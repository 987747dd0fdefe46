import HybridSE.Vm.CurrentHistoryWindow

/-!
# HybridSE.Vm.InstanceRows

Windows of which the instance rows are no part (`INSTANCE_NOT_IN_WINDOW`): union rows are
pushed, instance rows are pushed, read and popped again.

`InstancesInvisible` says what is wanted of a range, for all sequences of rows with keys from
a given set: an instance row reads itself and union rows only, and the same as if no
instance row had been there before it. Whether this holds is decided by the window start and
the window end as functions of the key, and `InstanceSafe` says how:

* the pushed row has to stay in the table, so that `PopFrontData` finds it;
* a window whose end is not the current row must let every row through at once, since
  otherwise the instance row is not in the table it reads;
* the window start must not move back, which it does where `key + start_offset_` leaves
  `int64_t`: then an instance row can evict a union row that a later one wants;
* with `exclude_current_time_` no key may be zero, since there the bound `key - 1` wraps and
  the row is pushed twice, unless there is no room for a second row.
-/

namespace HybridSE.Vm

open HybridSE.Lib List

variable {Row : Type*}

/-! ### Runs with instance rows -/

/-- A run: the rows that are popped are the instance rows. -/
def runCalls (w : HistoryWindow Row) (calls : List (WindowCall Row)) : HistoryWindow Row :=
  calls.foldl (fun w c => (HistoryWindow.pushPop c w).2) w

@[simp] theorem runCalls_cons (w : HistoryWindow Row) (c : WindowCall Row)
    (calls : List (WindowCall Row)) :
    runCalls w (c :: calls) = runCalls (HistoryWindow.pushPop c w).2 calls := rfl

theorem runCalls_append (w : HistoryWindow Row) (calls calls' : List (WindowCall Row)) :
    runCalls w (calls ++ calls') = runCalls (runCalls w calls) calls' := foldl_append

/-- The union rows of a run. -/
def unionCalls (calls : List (WindowCall Row)) : List (WindowCall Row) :=
  calls.filter fun c => !c.pops

/-- The row of an operation, with its key. -/
def WindowCall.entry (c : WindowCall Row) : Entry Row := (c.key, c.row)

/-- The window that an instance row reads after a run. -/
def windowRead (range : WindowRange) (excludeCurrentTime : Bool) (before : List (WindowCall Row))
    (c : WindowCall Row) : List (Entry Row) :=
  ((runCalls (HistoryWindow.new range excludeCurrentTime true) before).bufferData c.key c.row).2.table

/-- An instance row reads itself and union rows, and the same as without the instance rows
before it. -/
structure ReadsUnions (range : WindowRange) (excludeCurrentTime : Bool)
    (before : List (WindowCall Row)) (c : WindowCall Row) : Prop where
  only : ∃ rows, (windowRead range excludeCurrentTime before c).Perm (c.entry :: rows) ∧
    rows.Subperm ((unionCalls before).map WindowCall.entry)
  same : windowRead range excludeCurrentTime before c =
    windowRead range excludeCurrentTime (unionCalls before) c

/-- Every instance row of every sequence of rows with these keys reads union rows only. -/
def InstancesInvisible (Row : Type*) (range : WindowRange) (excludeCurrentTime : Bool)
    (keys : Set Nat) : Prop :=
  ∀ (before : List (WindowCall Row)) (c : WindowCall Row),
    (before ++ [c]).Pairwise (fun c d => c.key ≤ d.key) → (∀ d ∈ before ++ [c], d.key ∈ keys) →
      c.pops = true → ReadsUnions range excludeCurrentTime before c

/-! ### The condition -/

namespace WindowRange

/-- A new row of this key is not evicted at once. -/
def KeepsNew (range : WindowRange) (key : Nat) : Prop :=
  match range.frameType with
  | .kFrameRows => range.startRow + 1 < 2 ^ 64
  | .kFrameRowsRange => clampTs key range.startOffset ≤ key
  | .kFrameRowsMergeRowsRange =>
    range.startRow + 1 < 2 ^ 64 ∨ clampTs key range.startOffset ≤ key

/-- The window start decides about some of the rows behind the newest one. -/
def ReadsStart (range : WindowRange) : Prop :=
  match range.frameType with
  | .kFrameRows => False
  | .kFrameRowsRange => range.maxSize ≠ 1
  | .kFrameRowsMergeRowsRange => range.maxSize = 0 ∨ max range.rowsLimit 1 < range.maxSize

/-- A window of key zero has room for a second row of key zero. -/
def RepeatsZero (range : WindowRange) : Prop :=
  range.maxSize ≠ 1 ∧
    match range.frameType with
    | .kFrameRows => 0 < range.startRow
    | .kFrameRowsRange => True
    | .kFrameRowsMergeRowsRange => 0 < range.startRow ∨ range.startOffset ≤ 0

end WindowRange

/-- The ranges, flags and keys with which instance rows leave no trace. -/
structure InstanceSafe (range : WindowRange) (excludeCurrentTime : Bool) (keys : Set Nat) :
    Prop where
  keepsNew : ∀ k ∈ keys, range.KeepsNew k
  /-- A window that does not end at the current row passes every row on at once, or never
  has as many rows as would make it wait. -/
  prompt : range.endOffset ≠ 0 →
    (0 < range.maxSize ∧ range.maxSize < range.startRow) ∨
      ∀ k ∈ keys, k ≤ clampTs k range.endOffset
  /-- What a later window wants, an earlier one does not evict. -/
  startMono : range.ReadsStart → ∀ k₀ ∈ keys, ∀ k₁ ∈ keys, ∀ k₂ ∈ keys, k₀ ≤ k₁ → k₁ ≤ k₂ →
    (excludeCurrentTime = true → range.endOffset = 0 → 0 < k₀ ∧ k₀ < k₁) →
      clampTs k₂ range.startOffset ≤ k₀ → clampTs k₁ range.startOffset ≤ k₀
  zero : excludeCurrentTime = true → range.endOffset = 0 → 0 ∈ keys → ¬ range.RepeatsZero

/-! ### The frame test behind the newest row -/

section Keep

variable {range : WindowRange} {k k₁ k₂ : Nat} {row : Row}

theorem keepAt_zero_iff : range.keepAt k 0 (k, row) = true ↔ range.KeepsNew k := by
  unfold WindowRange.keepAt frameKeep WindowRange.KeepsNew
  have hlimit := range.rowsLimit_eq
  have huint := range.startRow_uint64
  unfold IsUInt64 at huint
  cases hf : range.frameType <;>
    simp only [Bool.and_eq_true, Bool.or_eq_true, decide_eq_true_eq] <;>
    split at hlimit <;> omega

theorem repeatsZero_iff (h : range.KeepsNew 0) :
    range.keepAt 0 1 (0, row) = true ↔ range.RepeatsZero := by
  have hstart : clampTs (0 : Nat) range.startOffset ≤ 0 ↔ range.startOffset ≤ 0 := by
    have := range.startOffset_int64
    unfold clampTs
    rw [Nat.cast_zero, Int.zero_add, toInt64_of_isInt64 this]
    dsimp only
    split <;> omega
  unfold WindowRange.keepAt frameKeep WindowRange.RepeatsZero
  unfold WindowRange.KeepsNew at h
  have hlimit := range.rowsLimit_eq
  cases hf : range.frameType <;> simp only [hf, hstart] at h ⊢ <;>
    simp only [Bool.and_eq_true, Bool.or_eq_true, decide_eq_true_eq, and_true] <;>
    split at hlimit <;> omega

/-- What the window of `k₂` keeps at a position, the window of `k₁` keeps there or one place
further in front, if it does not start later. -/
theorem keepAt_of_keepAt {e : Entry Row} {i j : Nat} (hi : 1 ≤ i) (hij : i ≤ j)
    (hstart : range.ReadsStart → clampTs k₂ range.startOffset ≤ e.1 →
      clampTs k₁ range.startOffset ≤ e.1)
    (h : range.keepAt k₂ j e = true) : range.keepAt k₁ i e = true := by
  unfold WindowRange.keepAt frameKeep at h ⊢
  unfold WindowRange.ReadsStart at hstart
  cases hf : range.frameType <;> simp only [hf] at h hstart ⊢ <;>
    simp only [Bool.and_eq_true, Bool.or_eq_true, decide_eq_true_eq] at h ⊢
  · omega
  · omega
  · rcases h with ⟨hmax, hlt | hold⟩
    · omega
    · by_cases hlt : j < range.rowsLimit
      · omega
      · omega

end Keep

/-- The rows behind a new row of key `k` that its window wants. -/
def WindowRange.wanted (range : WindowRange) (k : Nat) (rows : List (Entry Row)) :
    List (Entry Row) :=
  takeIdxWhile (range.keepAt k) 1 rows

/-- A table from which all windows from the last key on can be read. -/
structure Holds (range : WindowRange) (keys : Set Nat) (last : Nat)
    (table rows : List (Entry Row)) : Prop where
  isPrefix : table <+: rows
  wanted : ∀ k ∈ keys, last ≤ k → range.wanted k rows <+: table

section Holds

variable {range : WindowRange} {keys : Set Nat} {last k : Nat} {row : Row}
  {table rows : List (Entry Row)}

theorem holds_nil (range : WindowRange) (keys : Set Nat) (last : Nat) :
    Holds range keys last ([] : List (Entry Row)) [] :=
  ⟨prefix_rfl, fun _ _ _ => prefix_rfl⟩

theorem cut_new (h : range.KeepsNew k) (rows : List (Entry Row)) :
    takeIdxWhile (range.keepAt k) 0 ((k, row) :: rows) = (k, row) :: range.wanted k rows :=
  takeIdxWhile_cons_of_pos (keepAt_zero_iff.mpr h)

/-- A new row reads from the table what it would read from all rows. -/
theorem Holds.cut (h : Holds range keys last table rows) (hk : k ∈ keys) (hlast : last ≤ k)
    (hnew : range.KeepsNew k) :
    takeIdxWhile (range.keepAt k) 0 ((k, row) :: table) = (k, row) :: range.wanted k rows := by
  rw [cut_new hnew]
  exact congrArg _ (takeIdxWhile_eq_of_isPrefix h.isPrefix (h.wanted k hk hlast))

/-- What is left after the new row was popped is enough for later windows. -/
theorem holds_wanted
    (hstart : range.ReadsStart → ∀ e ∈ rows, ∀ k' ∈ keys, k ≤ k' →
      clampTs k' range.startOffset ≤ e.1 → clampTs k range.startOffset ≤ e.1) :
    Holds range keys k (range.wanted k rows) rows := by
  refine ⟨takeIdxWhile_isPrefix _ _ _, fun k' hk' hle => ?_⟩
  refine takeIdxWhile_isPrefix_takeIdxWhile fun d e he h => ?_
  exact keepAt_of_keepAt (by omega) (Nat.le_refl _) (fun hr => hstart hr e he k' hk' hle) h

/-- So is what is left with the new row. -/
theorem holds_cons_wanted
    (hstart : range.ReadsStart → ∀ e ∈ rows, ∀ k' ∈ keys, k ≤ k' →
      clampTs k' range.startOffset ≤ e.1 → clampTs k range.startOffset ≤ e.1) :
    Holds range keys k ((k, row) :: range.wanted k rows) ((k, row) :: rows) := by
  refine ⟨(prefix_cons_inj _).mpr (takeIdxWhile_isPrefix _ _ _), fun k' hk' hle => ?_⟩
  unfold WindowRange.wanted
  cases hkeep : range.keepAt k' 1 (k, row) with
  | false =>
    rw [takeIdxWhile_cons_of_neg hkeep]
    exact nil_prefix
  | true =>
    rw [takeIdxWhile_cons_of_pos hkeep]
    refine (prefix_cons_inj _).mpr (takeIdxWhile_isPrefix_takeIdxWhile fun d e he h => ?_)
    exact keepAt_of_keepAt (by omega) (by omega) (fun hr => hstart hr e he k' hk' hle) h

end Holds

/-! ### Runs in general -/

/-- An invariant that says what a window of a run shows to the next row: `rows` are the union
rows so far, newest first, and `shown` those of them behind a row of some key. -/
structure Tracks (keys : Set Nat) (shown : Nat → List (Entry Row) → List (Entry Row))
    (inv : HistoryWindow Row → List (Entry Row) → Nat → Prop) : Prop where
  read : ∀ {w : HistoryWindow Row} {rows : List (Entry Row)} {last : Nat} (c : WindowCall Row),
    inv w rows last → c.key ∈ keys → last ≤ c.key →
      (w.bufferData c.key c.row).2.table = c.entry :: shown c.key rows
  call : ∀ {w : HistoryWindow Row} {rows : List (Entry Row)} {last : Nat} (c : WindowCall Row),
    inv w rows last → c.key ∈ keys → last ≤ c.key →
      inv (HistoryWindow.pushPop c w).2 (if c.pops then rows else c.entry :: rows) c.key

section Tracks

variable {keys : Set Nat} {shown : Nat → List (Entry Row) → List (Entry Row)}
  {inv : HistoryWindow Row → List (Entry Row) → Nat → Prop} {w : HistoryWindow Row}
  {rows : List (Entry Row)} {last : Nat}

theorem Tracks.runCalls (h : Tracks keys shown inv) (hw : inv w rows last) {calls}
    (hasc : calls.Pairwise fun c d => c.key ≤ d.key) (hkeys : ∀ c ∈ calls, c.key ∈ keys)
    (hge : ∀ c ∈ calls, last ≤ c.key) {key} (hle : ∀ c ∈ calls, c.key ≤ key) (hlast : last ≤ key) :
    ∃ last' ≤ key, inv (runCalls w calls)
      (((unionCalls calls).map WindowCall.entry).reverse ++ rows) last' := by
  induction calls generalizing w rows last with
  | nil => exact ⟨last, hlast, hw⟩
  | cons c calls ih =>
    obtain ⟨hc, hcalls⟩ := pairwise_cons.mp hasc
    have hnext := h.call c hw (hkeys c mem_cons_self) (hge c mem_cons_self)
    obtain ⟨last', hlast', hrun⟩ := ih hnext hcalls
      (fun d hd => hkeys d (mem_cons_of_mem _ hd)) hc
      (fun d hd => hle d (mem_cons_of_mem _ hd)) (hle c mem_cons_self)
    refine ⟨last', hlast', ?_⟩
    cases hpops : c.pops with
    | true =>
      rw [hpops] at hrun
      simpa [unionCalls, hpops] using hrun
    | false =>
      rw [hpops] at hrun
      simpa [unionCalls, hpops] using hrun

/-- What an instance row reads depends on the union rows only. -/
theorem Tracks.windowRead {range excludeCurrentTime} (h : Tracks keys shown inv)
    (hnew : inv (HistoryWindow.new range excludeCurrentTime true) [] 0) {before c}
    (hasc : (before ++ [c]).Pairwise fun c d => c.key ≤ d.key)
    (hkeys : ∀ d ∈ before ++ [c], d.key ∈ keys) :
    windowRead range excludeCurrentTime before c =
      c.entry :: shown c.key ((unionCalls before).map WindowCall.entry).reverse := by
  obtain ⟨hbefore, -, hle⟩ := pairwise_append.mp hasc
  obtain ⟨last, hlast, hrun⟩ := h.runCalls hnew hbefore
    (fun d hd => hkeys d (mem_append_left _ hd)) (fun _ _ => Nat.zero_le _)
    (fun d hd => hle d hd c mem_cons_self) (Nat.zero_le _)
  rw [append_nil] at hrun
  exact h.read c hrun (hkeys c (mem_append_right _ mem_cons_self)) hlast

theorem unionCalls_unionCalls (calls : List (WindowCall Row)) :
    unionCalls (unionCalls calls) = unionCalls calls := by
  simp [unionCalls]

theorem Tracks.instancesInvisible {range excludeCurrentTime} (h : Tracks keys shown inv)
    (hnew : inv (HistoryWindow.new range excludeCurrentTime true) [] 0)
    (hshown : ∀ k rows, (shown k rows).Sublist rows) :
    InstancesInvisible Row range excludeCurrentTime keys := by
  intro before c hasc hkeys _
  have hread := h.windowRead hnew hasc hkeys
  have hsub : (unionCalls before ++ [c]).Sublist (before ++ [c]) :=
    filter_sublist.append (List.Sublist.refl _)
  have hread' := h.windowRead hnew (hasc.sublist hsub) fun d hd => hkeys d (hsub.subset hd)
  refine ⟨⟨_, List.Perm.of_eq hread, ?_⟩, ?_⟩
  · exact (hshown _ _).subperm.trans (reverse_perm _).subperm
  · rw [hread, hread', unionCalls_unionCalls]

end Tracks

/-! ### Windows that let every row through at once -/

/-- A push that goes to the table directly: the window ends at the current row and keeps the
current time, or has not enough rows to wait, or its end is not before the row. -/
def PromptAt (w : HistoryWindow Row) (k : Nat) : Prop :=
  (w.windowRange.endOffset = 0 ∧ w.excludeCurrentTime = false) ∨
    (w.windowRange.endOffset ≠ 0 ∧
      (w.table.length < w.windowRange.startRow ∨ k ≤ clampTs k w.windowRange.endOffset))

section Prompt

variable {w : HistoryWindow Row} {range : WindowRange} {excludeCurrentTime : Bool}
  {keys : Set Nat} {rows : List (Entry Row)} {last k : Nat}

theorem bufferData_of_prompt (h : PromptAt w k) (hbuffer : w.currentHistoryBuffer = [])
    (hdesc : w.table.Pairwise KeyDesc) (hle : ∀ e ∈ w.table, e.1 ≤ k) (row : Row) :
    w.bufferData k row = (true, { w with
      table := takeIdxWhile (w.windowRange.keepAt k) 0 ((k, row) :: w.table) }) := by
  have hcut : w.bufferEffectiveWindow k row (clampTs k w.windowRange.startOffset) =
      { w with table := takeIdxWhile (w.windowRange.keepAt k) 0 ((k, row) :: w.table) } := by
    unfold WindowRange.keepAt
    rw [← HistoryWindow.bufferEffectiveWindow_table w _ (pairwise_cons.mpr ⟨hle, hdesc⟩)]
    rfl
  rw [← hcut]
  rcases h with ⟨h0, hplain⟩ | ⟨h0, hprompt⟩
  · rw [HistoryWindow.bufferData_eq h0 row hle]
    simp [HistoryWindow.bufferCurrentTimeBuffer, hplain]
  · have hguard : w.table.head?.any (fun front => decide (k < front.1)) = false := by
      cases htable : w.table with
      | nil => rfl
      | cons e table => simpa using hle e (htable ▸ mem_cons_self)
    unfold HistoryWindow.bufferData
    rw [if_neg (by simp [hguard])]
    rw [if_neg (Ne.symm h0), if_neg (Ne.symm h0)]
    split
    case isTrue => rfl
    case isFalse hfull =>
      -- the row passes through the buffer
      have hend := Nat.not_lt.mpr (hprompt.resolve_left hfull)
      unfold HistoryWindow.bufferCurrentHistoryBuffer
      rw [hbuffer]
      simp only [length_singleton, HistoryWindow.drainHistoryBuffer,
        getLast?_singleton, if_neg hend, dropLast_singleton]
      rw [← hbuffer]
      rfl

/-- Between two rows: nothing waits, and the table holds what later windows want. -/
structure PromptInv (range : WindowRange) (excludeCurrentTime : Bool) (keys : Set Nat)
    (w : HistoryWindow Row) (rows : List (Entry Row)) (last : Nat) : Prop where
  windowRange_eq : w.windowRange = range
  exclude_eq : w.excludeCurrentTime = excludeCurrentTime
  buffer_eq : w.currentHistoryBuffer = []
  holds : Holds range keys last w.table rows
  sorted : rows.Pairwise KeyDesc
  rows_keys : ∀ e ∈ rows, e.1 ∈ keys ∧ e.1 ≤ last
  size : range.maxSize ≠ 0 → w.table.length ≤ range.maxSize

theorem PromptInv.new (range : WindowRange) (excludeCurrentTime inw : Bool) (keys : Set Nat) :
    PromptInv range excludeCurrentTime keys
      (HistoryWindow.new range excludeCurrentTime inw : HistoryWindow Row) [] 0 where
  windowRange_eq := rfl
  exclude_eq := rfl
  buffer_eq := rfl
  holds := holds_nil range keys 0
  sorted := List.Pairwise.nil
  rows_keys := by simp
  size := by simp [HistoryWindow.new]

theorem length_takeIdxWhile_keepAt (hmax : range.maxSize ≠ 0) (xs : List (Entry Row)) :
    (takeIdxWhile (range.keepAt k) 0 xs).length ≤ range.maxSize := by
  have hpre : takeIdxWhile (range.keepAt k) 0 xs <+:
      takeIdxWhile (fun i _ => decide (i < range.maxSize)) 0 xs := by
    refine takeIdxWhile_isPrefix_takeIdxWhile fun d e _ h => ?_
    have := (Bool.and_eq_true_iff.mp h).1
    simpa [hmax] using this
  rw [takeIdxWhile_lt] at hpre
  exact hpre.length_le.trans (length_take_le _ _)

variable (hsafe : InstanceSafe range excludeCurrentTime keys)
  (hregime : range.endOffset = 0 → excludeCurrentTime = false)

include hsafe hregime in
theorem PromptInv.promptAt (h : PromptInv range excludeCurrentTime keys w rows last)
    (hk : k ∈ keys) : PromptAt w k := by
  unfold PromptAt
  rw [h.windowRange_eq, h.exclude_eq]
  by_cases h0 : range.endOffset = 0
  · exact .inl ⟨h0, hregime h0⟩
  · refine .inr ⟨h0, ?_⟩
    rcases hsafe.prompt h0 with ⟨hpos, hlt⟩ | hend
    · exact .inl (Nat.lt_of_le_of_lt (h.size hpos.ne') hlt)
    · exact .inr (hend k hk)

include hsafe hregime in
theorem PromptInv.bufferData (h : PromptInv range excludeCurrentTime keys w rows last)
    (hk : k ∈ keys) (hlast : last ≤ k) (row : Row) :
    w.bufferData k row = (true, { w with table := (k, row) :: range.wanted k rows }) := by
  have hdesc := h.sorted.sublist h.holds.isPrefix.sublist
  have hle : ∀ e ∈ w.table, e.1 ≤ k := fun e he =>
    (h.rows_keys e (h.holds.isPrefix.subset he)).2.trans hlast
  rw [bufferData_of_prompt (h.promptAt hsafe hregime hk) h.buffer_eq hdesc hle row,
    h.windowRange_eq, h.holds.cut hk hlast (hsafe.keepsNew k hk)]

include hsafe hregime in
theorem PromptInv.tracks : Tracks keys (fun k rows => range.wanted k rows)
    (@PromptInv Row range excludeCurrentTime keys) := by
  refine ⟨fun c h hk hlast => ?_, fun {w rows last} c h hk hlast => ?_⟩
  · rw [h.bufferData hsafe hregime hk hlast]
    rfl
  · have hstart : range.ReadsStart → ∀ e ∈ rows, ∀ k' ∈ keys, c.key ≤ k' →
        clampTs k' range.startOffset ≤ e.1 → clampTs c.key range.startOffset ≤ e.1 :=
      fun hreads e he k' hk' hle => hsafe.startMono hreads e.1 (h.rows_keys e he).1 c.key hk k' hk'
        ((h.rows_keys e he).2.trans hlast) hle
        fun hexclude h0 => absurd (hregime h0) (by simp [hexclude])
    have hkeys : ∀ e ∈ rows, e.1 ∈ keys ∧ e.1 ≤ c.key := fun e he =>
      ⟨(h.rows_keys e he).1, (h.rows_keys e he).2.trans hlast⟩
    have hsize : range.maxSize ≠ 0 → (c.entry :: range.wanted c.key rows).length ≤ range.maxSize := by
      intro hmax
      rw [WindowCall.entry, ← cut_new (hsafe.keepsNew c.key hk)]
      exact length_takeIdxWhile_keepAt hmax _
    unfold HistoryWindow.pushPop
    rw [h.bufferData hsafe hregime hk hlast]
    cases c.pops with
    | true =>
      simp only [h.buffer_eq]
      exact ⟨h.windowRange_eq, h.exclude_eq, rfl, holds_wanted hstart, h.sorted, hkeys,
        fun hmax => (Nat.le_succ _).trans (hsize hmax)⟩
    | false =>
      refine ⟨h.windowRange_eq, h.exclude_eq, h.buffer_eq, holds_cons_wanted hstart, ?_, ?_, hsize⟩
      · exact pairwise_cons.mpr ⟨fun e he => (hkeys e he).2, h.sorted⟩
      · exact forall_mem_cons.mpr ⟨⟨hk, Nat.le_refl _⟩, hkeys⟩

end Prompt

/-! ### Windows that exclude the current time -/

/-- The rows of positive keys. Rows of key zero are drained together with the current row and
leave no room for them. -/
def positiveRows (rows : List (Entry Row)) : List (Entry Row) :=
  rows.filter fun e => decide (0 < e.1)

/-- Between two rows: of the union rows of positive keys, those of the last key wait in the
buffer, and behind the front row the table holds what later windows want of the others. -/
structure WaitingInv (range : WindowRange) (keys : Set Nat) (w : HistoryWindow Row)
    (rows waiting past : List (Entry Row)) (last : Nat) : Prop where
  windowRange_eq : w.windowRange = range
  exclude_eq : w.excludeCurrentTime = true
  rows_eq : positiveRows rows = waiting ++ past
  buffer_eq : w.currentHistoryBuffer = waiting
  holds : Holds range keys last w.table.tail past
  table_le : ∀ e ∈ w.table, e.1 ≤ last
  sorted : past.Pairwise KeyDesc
  waiting_key : ∀ e ∈ waiting, e.1 = last
  past_lt : ∀ e ∈ past, e.1 < last
  rows_keys : ∀ e ∈ rows, e.1 ∈ keys ∧ e.1 ≤ last

section Waiting

variable {w : HistoryWindow Row} {range : WindowRange} {keys : Set Nat}
  {rows waiting past : List (Entry Row)} {last k : Nat} {row : Row}

theorem WaitingInv.new (range : WindowRange) (inw : Bool) (keys : Set Nat) :
    WaitingInv range keys (HistoryWindow.new range true inw : HistoryWindow Row) [] [] [] 0 where
  windowRange_eq := rfl
  exclude_eq := rfl
  rows_eq := rfl
  buffer_eq := rfl
  holds := holds_nil range keys 0
  table_le := by simp [HistoryWindow.new]
  sorted := List.Pairwise.nil
  waiting_key := by simp
  past_lt := by simp
  rows_keys := by simp

/-- The drain bound `key - 1` of a positive key. -/
theorem drainBound_of_pos (hpos : 0 < k) (hk : IsUInt64 k) : toUInt64 ((k : Int) - 1) = k - 1 := by
  unfold IsUInt64 at hk
  unfold toUInt64
  omega

/-- A push with a positive key, once it is known which rows are drained: those of earlier
keys. -/
theorem bufferData_of_pos (h0 : w.windowRange.endOffset = 0)
    (hexclude : w.excludeCurrentTime = true) (hpos : 0 < k) (huint : IsUInt64 k)
    (hle : ∀ e ∈ w.table, e.1 ≤ k) {stay drained}
    (hsplit : w.currentHistoryBuffer = stay ++ drained) (hstay : ∀ e ∈ stay, e.1 = k)
    (hlt : ∀ e ∈ drained ++ past, e.1 < k) (hsorted : (drained ++ past).Pairwise KeyDesc)
    (hcov : Covers (w.windowRange.keepAt k) w.table.tail past) :
    w.bufferData k row = (true, { w with
      table := takeIdxWhile (w.windowRange.keepAt k) 0 ((k, row) :: (drained ++ past))
      currentHistoryBuffer := (k, row) :: stay }) := by
  have hbound := drainBound_of_pos hpos huint
  refine HistoryWindow.bufferData_of_split h0 hexclude hle (by rw [hsplit]; rfl) ?_ ?_
    (fun e he => (hlt e he).le) hsorted hcov
  · intro e he
    rcases mem_cons.mp he with rfl | he
    · omega
    · have := hstay e he
      omega
  · intro e he
    have := hlt e (mem_append_left _ he)
    omega

/-- A push with key zero, when nothing else is there: the bound wraps and the row is drained. -/
theorem bufferData_of_zero (h0 : w.windowRange.endOffset = 0)
    (hexclude : w.excludeCurrentTime = true) (hle : ∀ e ∈ w.table, e.1 ≤ 0)
    (hbuffer : w.currentHistoryBuffer = []) (htail : w.table.tail = []) (row : Row) :
    w.bufferData 0 row = (true, { w with
      table := takeIdxWhile (w.windowRange.keepAt 0) 0 [(0, row), (0, row)]
      currentHistoryBuffer := [] }) := by
  have hsplit : (0, row) :: w.currentHistoryBuffer = [] ++ [(0, row)] := by rw [hbuffer]; rfl
  exact HistoryWindow.bufferData_of_split h0 hexclude hle hsplit (by simp) (by simp) (by simp)
    (pairwise_singleton _ _) (by rw [htail]; exact Covers.refl _ [])

/-- The rows that are behind a row of key `k`: those of earlier positive keys. -/
def pastRows (k : Nat) (rows : List (Entry Row)) : List (Entry Row) :=
  (positiveRows rows).filter fun e => decide (e.1 < k)

variable (hsafe : InstanceSafe range true keys) (h0 : range.endOffset = 0)
  (huint : ∀ k ∈ keys, IsUInt64 k)

include hsafe h0 huint in
/-- A push with a positive key. -/
theorem WaitingInv.bufferData (h : WaitingInv range keys w rows waiting past last)
    (hk : k ∈ keys) (hlast : last ≤ k) (hpos : 0 < k) (row : Row) :
    ∃ stay drained, waiting = stay ++ drained ∧ (∀ e ∈ stay, e.1 = k) ∧
      (∀ e ∈ drained ++ past, e.1 < k) ∧ (drained ++ past).Pairwise KeyDesc ∧
      w.bufferData k row = (true, { w with
        table := (k, row) :: range.wanted k (drained ++ past)
        currentHistoryBuffer := (k, row) :: stay }) := by
  have hend : w.windowRange.endOffset = 0 := by rw [h.windowRange_eq, h0]
  have hcov : Covers (w.windowRange.keepAt k) w.table.tail past := by
    rw [h.windowRange_eq]
    exact covers_of_isPrefix (range.keepAt_antitone k) h.sorted h.holds.isPrefix
      (h.holds.wanted k hk hlast)
  have hle : ∀ e ∈ w.table, e.1 ≤ k := fun e he => (h.table_le e he).trans hlast
  -- all waiting rows have the last key, so they are drained together or not at all
  obtain ⟨stay, drained, hsplit, hstay, hlt, hsorted⟩ : ∃ stay drained,
      waiting = stay ++ drained ∧ (∀ e ∈ stay, e.1 = k) ∧ (∀ e ∈ drained ++ past, e.1 < k) ∧
        (drained ++ past).Pairwise KeyDesc := by
    rcases Nat.eq_or_lt_of_le hlast with heq | hlt
    · refine ⟨waiting, [], (append_nil _).symm, fun e he => ?_, fun e he => ?_, h.sorted⟩
      · rw [h.waiting_key e he, heq]
      · exact heq ▸ h.past_lt e he
    · refine ⟨[], waiting, rfl, by simp, fun e he => ?_, ?_⟩
      · rcases mem_append.mp he with he | he
        · rwa [h.waiting_key e he]
        · exact (h.past_lt e he).trans hlt
      · refine pairwise_append.mpr ⟨?_, h.sorted, fun x hx y hy => ?_⟩
        · refine pairwise_of_forall_mem_list fun x hx y hy => ?_
          exact ((h.waiting_key y hy).trans (h.waiting_key x hx).symm).le
        · have := h.waiting_key x hx
          have := h.past_lt y hy
          show y.1 ≤ x.1
          omega
  refine ⟨stay, drained, hsplit, hstay, hlt, hsorted, ?_⟩
  rw [bufferData_of_pos hend h.exclude_eq hpos (huint k hk) hle (h.buffer_eq.trans hsplit) hstay
    hlt hsorted hcov, h.windowRange_eq, cut_new (hsafe.keepsNew k hk)]

include hsafe h0 in
/-- A push with key zero: the row is drained, but there is no room for it. -/
theorem WaitingInv.bufferData_zero (h : WaitingInv range keys w rows waiting past last)
    (hk : 0 ∈ keys) (hlast : last ≤ 0) (row : Row) :
    waiting = [] ∧ past = [] ∧
      w.bufferData 0 row = (true, { w with
        table := [(0, row)]
        currentHistoryBuffer := [] }) := by
  have hnone : waiting ++ past = [] := by
    rw [← h.rows_eq]
    refine filter_eq_nil_iff.mpr fun e he => ?_
    have := (h.rows_keys e he).2
    simp only [decide_eq_true_eq]
    omega
  obtain ⟨rfl, rfl⟩ := append_eq_nil_iff.mp hnone
  refine ⟨rfl, rfl, ?_⟩
  have hend : w.windowRange.endOffset = 0 := by rw [h.windowRange_eq, h0]
  have htail : w.table.tail = [] := prefix_nil.mp h.holds.isPrefix
  rw [bufferData_of_zero hend h.exclude_eq (fun e he => (h.table_le e he).trans hlast) h.buffer_eq
    htail, h.windowRange_eq, cut_new (hsafe.keepsNew 0 hk)]
  have hsecond : range.keepAt 0 1 (0, row) = false := by
    rw [← Bool.not_eq_true, repeatsZero_iff (hsafe.keepsNew 0 hk)]
    exact hsafe.zero rfl h0 hk
  unfold WindowRange.wanted
  rw [takeIdxWhile_cons_of_neg hsecond]

theorem pastRows_of_split {stay drained} (hrows : positiveRows rows = stay ++ drained ++ past)
    (hstay : ∀ e ∈ stay, e.1 = k) (hlt : ∀ e ∈ drained ++ past, e.1 < k) :
    pastRows k rows = drained ++ past := by
  have hnone : stay.filter (fun e => decide (e.1 < k)) = [] :=
    filter_eq_nil_iff.mpr fun e he => by simp [hstay e he]
  have hall : (drained ++ past).filter (fun e => decide (e.1 < k)) = drained ++ past :=
    filter_eq_self.mpr fun e he => decide_eq_true (hlt e he)
  rw [pastRows, hrows, append_assoc, filter_append, hnone, hall, nil_append]

include hsafe in
/-- The window start does not move back behind a row that is drained. -/
theorem startMono_of_waiting {k} (hk : k ∈ keys)
    (hpast : ∀ e ∈ past, e.1 ∈ keys ∧ 0 < e.1 ∧ e.1 < k) :
    range.ReadsStart → ∀ e ∈ past, ∀ k' ∈ keys, k ≤ k' →
      clampTs k' range.startOffset ≤ e.1 → clampTs k range.startOffset ≤ e.1 :=
  fun hreads e he k' hk' hle => hsafe.startMono hreads e.1 (hpast e he).1 k hk k' hk'
    (hpast e he).2.2.le hle fun _ _ => (hpast e he).2

include hsafe h0 huint in
theorem WaitingInv.tracks : Tracks keys (fun k rows => range.wanted k (pastRows k rows))
    fun (w : HistoryWindow Row) rows last =>
      ∃ waiting past, WaitingInv range keys w rows waiting past last := by
  refine ⟨fun {w rows last} c h hk hlast => ?_, fun {w rows last} c h hk hlast => ?_⟩
  · obtain ⟨waiting, past, h⟩ := h
    rcases Nat.eq_zero_or_pos c.key with hzero | hpos
    · rw [hzero] at hk hlast
      obtain ⟨-, -, hdata⟩ := h.bufferData_zero hsafe h0 hk hlast c.row
      simp [hzero, hdata, pastRows, WindowRange.wanted, WindowCall.entry]
    · obtain ⟨stay, drained, hsplit, hstay, hlt, -, hdata⟩ :=
        h.bufferData hsafe h0 huint hk hlast hpos c.row
      rw [hdata, pastRows_of_split (hsplit ▸ h.rows_eq) hstay hlt]
      rfl
  · obtain ⟨waiting, past, h⟩ := h
    rcases Nat.eq_zero_or_pos c.key with hzero | hpos
    · -- key zero: nothing waits and nothing is behind the front row
      obtain ⟨key, row, pops⟩ := c
      subst hzero
      obtain ⟨rfl, rfl, hdata⟩ := h.bufferData_zero hsafe h0 hk hlast row
      have hrows : positiveRows (((0, row) : Entry Row) :: rows) = [] := by
        exact h.rows_eq
      unfold HistoryWindow.pushPop
      rw [hdata]
      cases pops with
      | true =>
        exact ⟨[], [], h.windowRange_eq, h.exclude_eq, h.rows_eq, rfl, holds_nil _ _ _, by simp
          [HistoryWindow.dropFront], List.Pairwise.nil, by simp, by simp,
          fun e he => ⟨(h.rows_keys e he).1, (h.rows_keys e he).2.trans hlast⟩⟩
      | false =>
        exact ⟨[], [], h.windowRange_eq, h.exclude_eq, hrows, rfl, holds_nil _ _ _, by simp,
          List.Pairwise.nil, by simp, by simp, forall_mem_cons.mpr ⟨⟨hk, Nat.le_refl _⟩,
          fun e he => ⟨(h.rows_keys e he).1, (h.rows_keys e he).2.trans hlast⟩⟩⟩
    · obtain ⟨stay, drained, hsplit, hstay, hlt, hsorted, hdata⟩ :=
        h.bufferData hsafe h0 huint hk hlast hpos c.row
      have hpositive : positiveRows rows = stay ++ (drained ++ past) := by
        rw [h.rows_eq, hsplit, append_assoc]
      have hpast : ∀ e ∈ drained ++ past, e.1 ∈ keys ∧ 0 < e.1 ∧ e.1 < c.key := by
        intro e he
        have hmem : e ∈ positiveRows rows := hpositive ▸ mem_append_right _ he
        obtain ⟨hmem, hpos⟩ := mem_filter.mp hmem
        exact ⟨(h.rows_keys e hmem).1, of_decide_eq_true hpos, hlt e he⟩
      have hholds : Holds range keys c.key (range.wanted c.key (drained ++ past)) (drained ++ past) :=
        holds_wanted (startMono_of_waiting hsafe hk hpast)
      have hle : ∀ e ∈ (c.key, c.row) :: range.wanted c.key (drained ++ past), e.1 ≤ c.key :=
        forall_mem_cons.mpr ⟨Nat.le_refl _, fun e he =>
          (hlt e ((takeIdxWhile_isPrefix _ _ _).subset he)).le⟩
      have hkeys : ∀ e ∈ rows, e.1 ∈ keys ∧ e.1 ≤ c.key := fun e he =>
        ⟨(h.rows_keys e he).1, (h.rows_keys e he).2.trans hlast⟩
      unfold HistoryWindow.pushPop
      rw [hdata]
      cases c.pops with
      | true =>
        -- the row is popped from the buffer, and the next push drops it from the table
        exact ⟨stay, drained ++ past, h.windowRange_eq, h.exclude_eq, hpositive, rfl, hholds, hle,
          hsorted, hstay, hlt, hkeys⟩
      | false =>
        refine ⟨(c.key, c.row) :: stay, drained ++ past, h.windowRange_eq, h.exclude_eq, ?_, rfl,
          hholds, hle, hsorted, forall_mem_cons.mpr ⟨rfl, hstay⟩, hlt,
          forall_mem_cons.mpr ⟨⟨hk, Nat.le_refl _⟩, hkeys⟩⟩
        have hcons : positiveRows (c.entry :: rows) = c.entry :: positiveRows rows :=
          filter_cons_of_pos (decide_eq_true hpos)
        rw [if_neg (by simp), hcons, hpositive]
        rfl

end Waiting

/-- Safe ranges hide their instance rows. -/
theorem InstanceSafe.instancesInvisible {range excludeCurrentTime keys}
    (hsafe : InstanceSafe range excludeCurrentTime keys) (huint : ∀ k ∈ keys, IsUInt64 k) :
    InstancesInvisible Row range excludeCurrentTime keys := by
  by_cases hregime : range.endOffset = 0 → excludeCurrentTime = false
  · refine (PromptInv.tracks hsafe hregime).instancesInvisible (.new range _ true keys) ?_
    exact fun k rows => (takeIdxWhile_isPrefix _ _ _).sublist
  · obtain ⟨h0, hexclude⟩ := Classical.not_imp.mp hregime
    rw [Bool.not_eq_false] at hexclude
    subst hexclude
    refine (WaitingInv.tracks hsafe h0 huint).instancesInvisible
      ⟨[], [], .new range true keys⟩ fun k rows => ?_
    exact (takeIdxWhile_isPrefix _ _ _).sublist.trans
      (filter_sublist.trans filter_sublist)

/-! ### Unsafe ranges -/

section Unsafe

variable {range : WindowRange} {excludeCurrentTime : Bool} {keys : Set Nat} {k k₀ k₁ k₂ : Nat}
  {row : Row}

/-- The first row reads itself and nothing else. -/
theorem InstancesInvisible.windowRead_nil (h : InstancesInvisible Row range excludeCurrentTime keys)
    (hk : k ∈ keys) (row : Row) :
    windowRead range excludeCurrentTime [] ⟨k, row, true⟩ = [(k, row)] := by
  obtain ⟨⟨rows, hperm, hsub⟩, -⟩ := h [] ⟨k, row, true⟩ (pairwise_singleton _ _)
    (by simpa using hk) rfl
  rw [subperm_nil.mp hsub] at hperm
  exact perm_singleton.mp hperm

variable {w : HistoryWindow Row} {i : Nat}

theorem bufferEffectiveWindow_of_empty (htable : w.table = []) (hnew : ¬ w.windowRange.KeepsNew k) :
    (w.bufferEffectiveWindow k row (clampTs k w.windowRange.startOffset)).table = [] := by
  rw [HistoryWindow.bufferEffectiveWindow_table w _ (by rw [htable]; exact pairwise_singleton _ _)]
  refine takeIdxWhile_cons_of_neg ?_
  rw [← Bool.not_eq_true]
  exact fun h => hnew (keepAt_zero_iff.mp h)

theorem bufferCurrentHistoryBuffer_of_empty (htable : w.table = [])
    (hbuffer : w.currentHistoryBuffer = []) (hnew : ¬ w.windowRange.KeepsNew k) (endTs : Nat) :
    (w.bufferCurrentHistoryBuffer k row endTs).table = [] := by
  unfold HistoryWindow.bufferCurrentHistoryBuffer
  rw [hbuffer]
  simp only [length_singleton, HistoryWindow.drainHistoryBuffer, getLast?_singleton]
  split
  · exact htable
  · exact bufferEffectiveWindow_of_empty htable hnew

/-- A first row that is evicted at once. -/
theorem windowRead_nil_of_not_keepsNew (hnew : ¬ range.KeepsNew k) :
    windowRead range excludeCurrentTime [] ⟨k, row, true⟩ = [] := by
  show ((HistoryWindow.new range excludeCurrentTime true).bufferData k row).2.table = []
  by_cases h0 : range.endOffset = 0
  · rw [HistoryWindow.bufferData_eq h0 row (by simp [HistoryWindow.new])]
    unfold HistoryWindow.bufferCurrentTimeBuffer
    split
    · exact bufferEffectiveWindow_of_empty rfl hnew
    · have hsettings := (HistoryWindow.sameSettings_bufferCurrentHistoryBuffer
        (HistoryWindow.new range excludeCurrentTime true).popEffectiveData k row
        (toUInt64 ((k : Int) - 1))).windowRange_eq
      have hempty := @bufferCurrentHistoryBuffer_of_empty Row k row
        (HistoryWindow.new range excludeCurrentTime true).popEffectiveData rfl rfl hnew
        (toUInt64 ((k : Int) - 1))
      have hrange : ((HistoryWindow.new range excludeCurrentTime true).popEffectiveData
          |>.bufferCurrentHistoryBuffer k row (toUInt64 ((k : Int) - 1))).windowRange = range :=
        hsettings
      have hcut := @bufferEffectiveWindow_of_empty Row k row _ hempty (by rwa [hrange])
      rwa [hrange] at hcut
  · have hne : ¬ 0 = (HistoryWindow.new range excludeCurrentTime true :
        HistoryWindow Row).windowRange.endOffset := fun h => h0 h.symm
    unfold HistoryWindow.bufferData
    rw [if_neg (by simp [HistoryWindow.new])]
    split
    · exact bufferEffectiveWindow_of_empty rfl hnew
    · exact bufferCurrentHistoryBuffer_of_empty rfl rfl hnew _

/-- Union rows of one key that the window has room for. -/
theorem runCalls_replicate (hbuffer : w.currentHistoryBuffer = []) (htable : w.table = []) {n}
    (hkeep : ∀ i < n, w.windowRange.keepAt k i (k, row) = true)
    (hprompt : ∀ m < n, PromptAt { w with table := List.replicate m (k, row) } k) :
    runCalls w (List.replicate n ⟨k, row, false⟩) = { w with table := List.replicate n (k, row) } := by
  induction n with
  | zero =>
    rw [replicate_zero, replicate_zero, ← htable]
    rfl
  | succ n ih =>
    have hstep := bufferData_of_prompt (hprompt n (Nat.lt_succ_self n)) hbuffer
      (pairwise_of_forall_mem_list fun x hx y hy => by
        rw [eq_of_mem_replicate hx, eq_of_mem_replicate hy]
        exact keyDesc_refl _)
      (fun e he => by rw [eq_of_mem_replicate he]) row
    have hall : takeIdxWhile (w.windowRange.keepAt k) 0 (List.replicate (n + 1) (k, row)) =
        List.replicate (n + 1) (k, row) := by
      refine takeIdxWhile_eq_self fun j x hj hx => ?_
      rw [eq_of_mem_replicate hx, Nat.zero_add]
      exact hkeep j (by simpa using hj)
    rw [replicate_succ', runCalls_append, ih (fun i hi => hkeep i (by omega))
      fun m hm => hprompt m (by omega)]
    simp [runCalls, HistoryWindow.pushPop, foldl_cons, hstep, ← replicate_succ, hall]

/-- A row that has to wait is not in the table. -/
theorem bufferData_table_of_waits (h0 : w.windowRange.endOffset ≠ 0)
    (hfull : w.windowRange.startRow ≤ w.table.length) (hbuffer : w.currentHistoryBuffer = [])
    (hend : clampTs k w.windowRange.endOffset < k) : (w.bufferData k row).2.table = w.table := by
  unfold HistoryWindow.bufferData
  split
  · rfl
  · rw [if_neg (Nat.not_lt.mpr hfull), if_neg (Ne.symm h0)]
    unfold HistoryWindow.bufferCurrentHistoryBuffer
    rw [hbuffer]
    simp only [length_singleton, HistoryWindow.drainHistoryBuffer, getLast?_singleton,
      if_pos hend]

/-- As many rows of one key as make the next one wait. -/
theorem keepAt_of_lt_startRow (hnew : range.KeepsNew k)
    (hroom : ¬ (0 < range.maxSize ∧ range.maxSize < range.startRow)) (hi : i < range.startRow)
    (row : Row) : range.keepAt k i (k, row) = true := by
  have hlimit := range.rowsLimit_eq
  unfold WindowRange.KeepsNew at hnew
  unfold WindowRange.keepAt frameKeep
  cases hf : range.frameType <;> simp only [hf] at hnew ⊢ <;>
    simp only [Bool.and_eq_true, Bool.or_eq_true, decide_eq_true_eq] <;>
    split at hlimit <;> omega

theorem pairwise_key_of_forall {calls : List (WindowCall Row)} (h : ∀ c ∈ calls, c.key = k) :
    calls.Pairwise fun c d => c.key ≤ d.key :=
  pairwise_of_forall_mem_list fun c hc d hd => by rw [h c hc, h d hd]

/-- An instance row that has to wait does not read itself. -/
theorem InstancesInvisible.prompt [Nontrivial Row]
    (h : InstancesInvisible Row range excludeCurrentTime keys)
    (hkeeps : ∀ k ∈ keys, range.KeepsNew k) (h0 : range.endOffset ≠ 0) :
    (0 < range.maxSize ∧ range.maxSize < range.startRow) ∨
      ∀ k ∈ keys, k ≤ clampTs k range.endOffset := by
  by_contra hnot
  obtain ⟨hroom, hwaits⟩ := not_or.mp hnot
  push Not at hwaits
  obtain ⟨k, hk, hend⟩ := hwaits
  obtain ⟨u, r, hne⟩ := exists_pair_ne Row
  let unions : List (WindowCall Row) := List.replicate range.startRow ⟨k, u, false⟩
  have hkey : ∀ d ∈ unions ++ [⟨k, r, true⟩], d.key = k := by
    intro d hd
    rcases mem_append.mp hd with hd | hd
    · rw [eq_of_mem_replicate hd]
    · rw [mem_singleton.mp hd]
  obtain ⟨⟨rows, hperm, -⟩, -⟩ := h unions ⟨k, r, true⟩ (pairwise_key_of_forall hkey)
    (fun d hd => by rwa [hkey d hd]) rfl
  -- the table is full of union rows when the instance row comes
  have hrun : runCalls (HistoryWindow.new range excludeCurrentTime true) unions =
      { HistoryWindow.new range excludeCurrentTime true with
        table := List.replicate range.startRow (k, u) } := by
    refine runCalls_replicate rfl rfl
      (fun i hi => keepAt_of_lt_startRow (hkeeps k hk) hroom hi u) fun m hm => ?_
    refine .inr ⟨h0, .inl ?_⟩
    rwa [length_replicate]
  have hread : windowRead range excludeCurrentTime unions ⟨k, r, true⟩ =
      List.replicate range.startRow (k, u) := by
    unfold windowRead
    rw [hrun]
    refine bufferData_table_of_waits h0 ?_ rfl hend
    rw [length_replicate]
    exact Nat.le_refl _
  rw [hread] at hperm
  have hmem : (k, r) ∈ List.replicate range.startRow (k, u) :=
    hperm.mem_iff.mpr mem_cons_self
  exact hne (congrArg Prod.snd (eq_of_mem_replicate hmem)).symm

/-- With key zero and room for it, the first row reads itself twice. -/
theorem InstancesInvisible.zero [Nonempty Row] (h : InstancesInvisible Row range true keys)
    (hkeeps : ∀ k ∈ keys, range.KeepsNew k) (h0 : range.endOffset = 0) (hk : 0 ∈ keys) :
    ¬ range.RepeatsZero := by
  intro hrepeats
  obtain ⟨row⟩ := ‹Nonempty Row›
  have hnew := hkeeps 0 hk
  have hread := h.windowRead_nil hk row
  have htwice : windowRead range true [] ⟨0, row, true⟩ = [(0, row), (0, row)] := by
    have hdata := bufferData_of_zero (w := HistoryWindow.new range true true) h0 rfl
      (by simp [HistoryWindow.new]) rfl rfl row
    unfold windowRead runCalls
    rw [foldl_nil, hdata]
    exact (cut_new hnew _).trans (congrArg _
      (takeIdxWhile_cons_of_pos ((repeatsZero_iff hnew).mpr hrepeats)))
  rw [htwice] at hread
  simp at hread

/-- The first position at which the window start decides. -/
def WindowRange.startPosition (range : WindowRange) : Nat :=
  match range.frameType with
  | .kFrameRowsMergeRowsRange => max range.rowsLimit 1
  | _ => 1

theorem WindowRange.startPosition_pos (range : WindowRange) : 0 < range.startPosition := by
  unfold WindowRange.startPosition
  split <;> omega

theorem WindowRange.ReadsStart.room (h : range.ReadsStart) :
    range.maxSize = 0 ∨ range.startPosition < range.maxSize := by
  unfold WindowRange.ReadsStart at h
  unfold WindowRange.startPosition
  cases hf : range.frameType <;> simp only [hf] at h ⊢ <;> omega

/-- There it keeps what is not too old. -/
theorem keepAt_of_le_startPosition (h : range.ReadsStart) {e : Entry Row}
    (hi : i ≤ range.startPosition) (hstart : clampTs k range.startOffset ≤ e.1) :
    range.keepAt k i e = true := by
  have hroom := h.room
  unfold WindowRange.ReadsStart at h
  unfold WindowRange.keepAt frameKeep
  cases hf : range.frameType <;> simp only [hf] at h ⊢ <;>
    simp only [Bool.and_eq_true, Bool.or_eq_true, decide_eq_true_eq] <;> omega

/-- And evicts what is. -/
theorem keepAt_startPosition (h : range.ReadsStart) {e : Entry Row}
    (hstart : e.1 < clampTs k range.startOffset) :
    range.keepAt k range.startPosition e = false := by
  unfold WindowRange.ReadsStart at h
  unfold WindowRange.keepAt frameKeep WindowRange.startPosition
  cases hf : range.frameType <;> simp only [hf] at h ⊢ <;>
    simp only [Bool.and_eq_false_iff, Bool.or_eq_false_iff, decide_eq_false_iff_not] <;> omega

/-- Rows of one key fill the table up to that position. -/
theorem keepAt_of_lt_startPosition (h : range.ReadsStart) (hnew : range.KeepsNew k)
    (hi : i < range.startPosition) (row : Row) : range.keepAt k i (k, row) = true := by
  have hroom := h.room
  have hlimit := range.rowsLimit_eq
  unfold WindowRange.KeepsNew at hnew
  unfold WindowRange.startPosition at hi hroom
  unfold WindowRange.keepAt frameKeep
  cases hf : range.frameType <;> simp only [hf] at h hnew hi hroom ⊢ <;>
    simp only [Bool.and_eq_true, Bool.or_eq_true, decide_eq_true_eq] <;>
    split at hlimit <;> omega

/-- An instance row between: the last union row is evicted, though the next instance row
wants it. -/
theorem cut_after_cut_ne (h : range.ReadsStart) (hnew₁ : range.KeepsNew k₁)
    (hnew₂ : range.KeepsNew k₂) (hstart₁ : k₀ < clampTs k₁ range.startOffset)
    (hstart₂ : clampTs k₂ range.startOffset ≤ k₀) (u r : Row) :
    takeIdxWhile (range.keepAt k₂) 0 ((k₂, r) ::
        (takeIdxWhile (range.keepAt k₁) 0
          ((k₁, r) :: List.replicate range.startPosition (k₀, u))).tail) ≠
      takeIdxWhile (range.keepAt k₂) 0
        ((k₂, r) :: List.replicate range.startPosition (k₀, u)) := by
  rw [cut_new hnew₁, cut_new hnew₂, cut_new hnew₂, tail_cons]
  have hevicted : (range.wanted k₁ (List.replicate range.startPosition (k₀, u))).length <
      range.startPosition := by
    obtain ⟨n, hn⟩ := Nat.exists_eq_succ_of_ne_zero range.startPosition_pos.ne'
    have hlast : range.keepAt k₁ (1 + (List.replicate n (k₀, u)).length) (k₀, u) = false := by
      rw [length_replicate, Nat.add_comm, ← Nat.succ_eq_add_one, ← hn]
      exact keepAt_startPosition h hstart₁
    have hcut := (takeIdxWhile_isPrefix (range.keepAt k₁) 1 (List.replicate n (k₀, u))).length_le
    unfold WindowRange.wanted
    rw [hn, replicate_succ', takeIdxWhile_append_of_neg hlast]
    rw [length_replicate] at hcut
    omega
  have hkept : range.wanted k₂ (List.replicate range.startPosition (k₀, u)) =
      List.replicate range.startPosition (k₀, u) := by
    refine takeIdxWhile_eq_self fun j x hj hx => ?_
    rw [eq_of_mem_replicate hx]
    rw [length_replicate] at hj
    exact keepAt_of_le_startPosition h (by omega) hstart₂
  intro heq
  have hlen := congrArg List.length (List.cons.inj heq).2
  rw [hkept, length_replicate] at hlen
  have hle := (takeIdxWhile_isPrefix (range.keepAt k₂) 1
    (range.wanted k₁ (List.replicate range.startPosition (k₀, u)))).length_le
  unfold WindowRange.wanted at hlen hle hevicted
  omega

/-- What the last of two instance rows after `n` union rows of one key reads, with and without
the first. -/
structure ReadsAfter (range : WindowRange) (excludeCurrentTime : Bool) (n k₀ k₁ k₂ : Nat)
    (u r : Row) : Prop where
  between : windowRead range excludeCurrentTime
      (List.replicate n ⟨k₀, u, false⟩ ++ [⟨k₁, r, true⟩]) ⟨k₂, r, true⟩ =
    takeIdxWhile (range.keepAt k₂) 0 ((k₂, r) ::
      (takeIdxWhile (range.keepAt k₁) 0 ((k₁, r) :: List.replicate n (k₀, u))).tail)
  alone : windowRead range excludeCurrentTime (List.replicate n ⟨k₀, u, false⟩) ⟨k₂, r, true⟩ =
    takeIdxWhile (range.keepAt k₂) 0 ((k₂, r) :: List.replicate n (k₀, u))

theorem InstancesInvisible.startMono_of_reads
    (h : InstancesInvisible Row range excludeCurrentTime keys) (hreads : range.ReadsStart)
    (hkeeps : ∀ k ∈ keys, range.KeepsNew k) (hk₀ : k₀ ∈ keys) (hk₁ : k₁ ∈ keys) (hk₂ : k₂ ∈ keys)
    (hle₀ : k₀ ≤ k₁) (hle₁ : k₁ ≤ k₂) {u r : Row}
    (hreadsAfter : ReadsAfter range excludeCurrentTime range.startPosition k₀ k₁ k₂ u r)
    (hstart : clampTs k₂ range.startOffset ≤ k₀) : clampTs k₁ range.startOffset ≤ k₀ := by
  by_contra hlate
  let unions : List (WindowCall Row) := List.replicate range.startPosition ⟨k₀, u, false⟩
  have hunion : ∀ d ∈ unions, d = ⟨k₀, u, false⟩ := fun d hd => eq_of_mem_replicate hd
  have hfilter : unionCalls (unions ++ [⟨k₁, r, true⟩]) = unions := by
    unfold unionCalls
    rw [filter_append, filter_eq_self.mpr fun d hd => by rw [hunion d hd]; rfl]
    exact append_nil _
  have hsame := (h (unions ++ [⟨k₁, r, true⟩]) ⟨k₂, r, true⟩ ?_ ?_ rfl).same
  · rw [hfilter, hreadsAfter.between, hreadsAfter.alone] at hsame
    exact cut_after_cut_ne hreads (hkeeps k₁ hk₁) (hkeeps k₂ hk₂) (not_le.mp hlate) hstart u r hsame
  · rw [append_assoc, pairwise_append]
    refine ⟨pairwise_key_of_forall fun d hd => by rw [hunion d hd], ?_, fun c hc d hd => ?_⟩
    · simpa using hle₁
    · rw [hunion c hc]
      rcases mem_cons.mp hd with rfl | hd
      · exact hle₀
      · rw [mem_singleton.mp hd]
        exact hle₀.trans hle₁
  · intro d hd
    rw [append_assoc] at hd
    rcases mem_append.mp hd with hd | hd
    · rwa [hunion d hd]
    · rcases mem_cons.mp hd with rfl | hd
      · exact hk₁
      · rwa [mem_singleton.mp hd]

theorem replicate_desc (n : Nat) (e : Entry Row) : (List.replicate n e).Pairwise KeyDesc :=
  pairwise_of_forall_mem_list fun x hx y hy => by
    rw [eq_of_mem_replicate hx, eq_of_mem_replicate hy]
    exact keyDesc_refl _

/-- A window of a run, given what it holds. -/
def windowWith (range : WindowRange) (excludeCurrentTime : Bool) (table buffer : List (Entry Row)) :
    HistoryWindow Row where
  windowRange := range
  excludeCurrentTime := excludeCurrentTime
  instanceNotInWindow := true
  table := table
  currentHistoryBuffer := buffer

theorem windowRead_append_instance {before c d} (hpops : c.pops = true)
    (hrun : runCalls (HistoryWindow.new range excludeCurrentTime true) before = w) :
    windowRead range excludeCurrentTime (before ++ [c]) d =
      ((w.bufferData c.key c.row).2.dropFront.bufferData d.key d.row).2.table := by
  unfold windowRead
  rw [runCalls_append, hrun, runCalls_cons]
  unfold HistoryWindow.pushPop
  simp only [hpops]
  rfl

/-- In a window that lets every row through at once. -/
theorem readsAfter_of_prompt {n : Nat} (hle₀ : k₀ ≤ k₁) (hle₁ : k₁ ≤ k₂) (u r : Row)
    (hkeep : ∀ i < n, range.keepAt k₀ i (k₀, u) = true)
    (hprompt : ∀ table : List (Entry Row), table.length ≤ n → ∀ k ∈ [k₀, k₁, k₂],
      PromptAt (windowWith range excludeCurrentTime table []) k) :
    ReadsAfter range excludeCurrentTime n k₀ k₁ k₂ u r := by
  have hunions : runCalls (HistoryWindow.new range excludeCurrentTime true)
      (List.replicate n ⟨k₀, u, false⟩) =
        windowWith range excludeCurrentTime (List.replicate n (k₀, u)) [] :=
    runCalls_replicate rfl rfl hkeep fun m hm =>
      hprompt _ (by rw [length_replicate]; exact hm.le) k₀ (by simp)
  have hread : ∀ table, table <+: List.replicate n (k₀, u) → ∀ k ∈ [k₀, k₁, k₂],
      (windowWith range excludeCurrentTime table []).bufferData k r =
        (true, windowWith range excludeCurrentTime
          (takeIdxWhile (range.keepAt k) 0 ((k, r) :: table)) []) := by
    intro table htable k hk
    have hlen := htable.length_le
    rw [length_replicate] at hlen
    have hle : k₀ ≤ k := by
      simp only [mem_cons, not_mem_nil, or_false] at hk
      omega
    exact bufferData_of_prompt (hprompt table hlen k hk) rfl
      ((replicate_desc n (k₀, u)).sublist htable.sublist)
      (fun e he => by rwa [eq_of_mem_replicate (htable.subset he)]) r
  constructor
  · -- what is left of the union rows after the first instance row
    have hleft : (takeIdxWhile (range.keepAt k₁) 0 ((k₁, r) :: List.replicate n (k₀, u))).tail <+:
        List.replicate n (k₀, u) := by
      rw [tail_takeIdxWhile (range.keepAt_antitone k₁) fun e he => by
        rw [eq_of_mem_replicate he]
        exact hle₀]
      exact takeIdxWhile_isPrefix _ _ _
    rw [windowRead_append_instance rfl hunions, hread _ prefix_rfl k₁ (by simp)]
    exact congrArg (fun d => d.2.table) (hread _ hleft k₂ (by simp))
  · unfold windowRead
    rw [hunions, hread _ prefix_rfl k₂ (by simp)]
    rfl

/-- A push with a positive key, given what the window holds. -/
theorem windowWith_bufferData (h0 : range.endOffset = 0) (hpos : 0 < k) (huint : IsUInt64 k)
    {table stay drained past} (hle : ∀ e ∈ table, e.1 ≤ k) (hstay : ∀ e ∈ stay, e.1 = k)
    (hlt : ∀ e ∈ drained ++ past, e.1 < k) (hsorted : (drained ++ past).Pairwise KeyDesc)
    (hcov : Covers (range.keepAt k) table.tail past) (row : Row) :
    (windowWith range true table (stay ++ drained)).bufferData k row =
      (true, windowWith range true
        (takeIdxWhile (range.keepAt k) 0 ((k, row) :: (drained ++ past))) ((k, row) :: stay)) :=
  bufferData_of_pos h0 rfl hpos huint hle rfl hstay hlt hsorted hcov

/-- Union rows of a positive key wait in the buffer. -/
theorem exists_runCalls_replicate (h0 : range.endOffset = 0) (hpos : 0 < k₀) (huint : IsUInt64 k₀)
    (u : Row) (n : Nat) :
    ∃ table, runCalls (HistoryWindow.new range true true) (List.replicate n ⟨k₀, u, false⟩) =
        windowWith range true table (List.replicate n (k₀, u)) ∧
      table.tail = [] ∧ ∀ e ∈ table, e.1 ≤ k₀ := by
  induction n with
  | zero => exact ⟨[], rfl, rfl, by simp⟩
  | succ n ih =>
    obtain ⟨table, hrun, htail, hle⟩ := ih
    have hcov : Covers (range.keepAt k₀) table.tail [] := by rw [htail]; exact Covers.refl _ []
    have hdata := windowWith_bufferData h0 hpos huint hle
      (fun e (he : e ∈ List.replicate n (k₀, u)) => by rw [eq_of_mem_replicate he])
      (fun e (he : e ∈ ([] ++ [] : List (Entry Row))) => absurd he not_mem_nil)
      List.Pairwise.nil hcov u
    rw [append_nil] at hdata
    refine ⟨takeIdxWhile (range.keepAt k₀) 0 [(k₀, u)], ?_, ?_, ?_⟩
    · rw [replicate_succ', runCalls_append, hrun, runCalls_cons]
      unfold HistoryWindow.pushPop
      rw [hdata]
      rfl
    · have := (takeIdxWhile_isPrefix (range.keepAt k₀) 0 [(k₀, u)]).length_le
      rw [← length_eq_zero_iff, length_tail]
      rw [length_singleton] at this
      omega
    · intro e he
      rw [mem_singleton.mp ((takeIdxWhile_isPrefix _ _ _).subset he)]

/-- In a window that excludes the current time. -/
theorem readsAfter_of_exclude (h0 : range.endOffset = 0) (hpos : 0 < k₀) (hlt₀ : k₀ < k₁)
    (hle₁ : k₁ ≤ k₂) (huint₀ : IsUInt64 k₀) (huint₁ : IsUInt64 k₁) (huint₂ : IsUInt64 k₂)
    (n : Nat) (u r : Row) : ReadsAfter range true n k₀ k₁ k₂ u r := by
  obtain ⟨table, hunions, htail, hle⟩ := exists_runCalls_replicate h0 hpos huint₀ u n
  have hlt₂ := Nat.lt_of_lt_of_le hlt₀ hle₁
  -- the union rows are drained by the next instance row
  have hread : ∀ k, k₀ < k → IsUInt64 k →
      (windowWith range true table (List.replicate n (k₀, u))).bufferData k r =
        (true, windowWith range true
          (takeIdxWhile (range.keepAt k) 0 ((k, r) :: List.replicate n (k₀, u))) [(k, r)]) := by
    intro k hlt huint
    have hcov : Covers (range.keepAt k) table.tail [] := by rw [htail]; exact Covers.refl _ []
    have hdata := windowWith_bufferData h0 (hpos.trans hlt) huint
      (fun e he => (hle e he).trans hlt.le) (forall_mem_nil _)
      (fun e (he : e ∈ List.replicate n (k₀, u) ++ []) => by
        rw [append_nil] at he
        rwa [eq_of_mem_replicate he])
      (by rw [append_nil]; exact replicate_desc n (k₀, u)) hcov r
    rwa [append_nil] at hdata
  constructor
  · let left := takeIdxWhile (range.keepAt k₁) 0 ((k₁, r) :: List.replicate n (k₀, u))
    have hleft : left.tail <+: List.replicate n (k₀, u) := by
      rw [tail_takeIdxWhile (range.keepAt_antitone k₁) fun e he => by
        rw [eq_of_mem_replicate he]
        exact hlt₀.le]
      exact takeIdxWhile_isPrefix _ _ _
    have hmem : ∀ e ∈ left, e.1 ≤ k₁ := by
      intro e he
      rcases mem_cons.mp ((takeIdxWhile_isPrefix _ _ _).subset he) with rfl | he
      · exact Nat.le_refl _
      · rw [eq_of_mem_replicate he]
        exact hlt₀.le
    -- nothing waits when the second instance row comes
    have hsecond : (windowWith range true left []).bufferData k₂ r =
        (true, windowWith range true
          (takeIdxWhile (range.keepAt k₂) 0 ((k₂, r) :: left.tail)) [(k₂, r)]) :=
      windowWith_bufferData h0 (hpos.trans hlt₂) huint₂ (fun e he => (hmem e he).trans hle₁)
        (forall_mem_nil _)
        (fun e he => by rwa [eq_of_mem_replicate (hleft.subset he)])
        ((replicate_desc n (k₀, u)).sublist hleft.sublist) (Covers.refl _ _) r
    rw [windowRead_append_instance rfl hunions, hread k₁ hlt₀ huint₁]
    exact congrArg (fun d => d.2.table) hsecond
  · unfold windowRead
    rw [hunions, hread k₂ hlt₂ huint₂]
    rfl

/-- The window start moves back: an instance row evicts what a later one wants. -/
theorem InstancesInvisible.startMono [Nonempty Row]
    (h : InstancesInvisible Row range excludeCurrentTime keys)
    (hkeeps : ∀ k ∈ keys, range.KeepsNew k) (huint : ∀ k ∈ keys, IsUInt64 k)
    (hprompt : range.endOffset ≠ 0 → (0 < range.maxSize ∧ range.maxSize < range.startRow) ∨
      ∀ k ∈ keys, k ≤ clampTs k range.endOffset)
    (hreads : range.ReadsStart) (hk₀ : k₀ ∈ keys) (hk₁ : k₁ ∈ keys) (hk₂ : k₂ ∈ keys)
    (hle₀ : k₀ ≤ k₁) (hle₁ : k₁ ≤ k₂)
    (hexclude : excludeCurrentTime = true → range.endOffset = 0 → 0 < k₀ ∧ k₀ < k₁)
    (hstart : clampTs k₂ range.startOffset ≤ k₀) : clampTs k₁ range.startOffset ≤ k₀ := by
  obtain ⟨row⟩ := ‹Nonempty Row›
  refine h.startMono_of_reads (u := row) (r := row) hreads hkeeps hk₀ hk₁ hk₂ hle₀ hle₁ ?_ hstart
  by_cases hregime : range.endOffset = 0 → excludeCurrentTime = false
  · refine readsAfter_of_prompt hle₀ hle₁ row row
      (fun i hi => keepAt_of_lt_startPosition hreads (hkeeps k₀ hk₀) hi row) ?_
    intro table hlen k hk
    have hmem : k ∈ keys := by
      simp only [mem_cons, not_mem_nil, or_false] at hk
      rcases hk with rfl | rfl | rfl <;> assumption
    by_cases h0 : range.endOffset = 0
    · exact .inl ⟨h0, hregime h0⟩
    · refine .inr ⟨h0, ?_⟩
      rcases hprompt h0 with ⟨hmax, hlt⟩ | hend
      · have hroom := hreads.room.resolve_left hmax.ne'
        refine .inl ?_
        show table.length < range.startRow
        omega
      · exact .inr (hend k hmem)
  · obtain ⟨h0, hexcluded⟩ := Classical.not_imp.mp hregime
    rw [Bool.not_eq_false] at hexcluded
    subst hexcluded
    obtain ⟨hpos, hlt⟩ := hexclude rfl h0
    exact readsAfter_of_exclude h0 hpos hlt hle₁ (huint k₀ hk₀) (huint k₁ hk₁) (huint k₂ hk₂) _ row
      row

end Unsafe

/-- Instance rows that are not in the window leave no trace, for every sequence of rows with
keys from the given set, if and only if range, flag and keys are as `InstanceSafe` says. -/
theorem instancesInvisible_iff [Nontrivial Row] (range : WindowRange) (excludeCurrentTime : Bool)
    {keys : Set Nat} (huint : ∀ k ∈ keys, IsUInt64 k) :
    InstancesInvisible Row range excludeCurrentTime keys ↔
      InstanceSafe range excludeCurrentTime keys := by
  refine ⟨fun h => ?_, fun h => h.instancesInvisible huint⟩
  have hkeeps : ∀ k ∈ keys, range.KeepsNew k := by
    intro k hk
    by_contra hnew
    have hread := h.windowRead_nil hk (Classical.arbitrary Row)
    rw [windowRead_nil_of_not_keepsNew hnew] at hread
    cases hread
  have hprompt := fun h0 => h.prompt hkeeps h0
  refine ⟨hkeeps, hprompt, ?_, ?_⟩
  · intro hreads k₀ hk₀ k₁ hk₁ k₂ hk₂ hle₀ hle₁ hexclude hstart
    exact h.startMono hkeeps huint hprompt hreads hk₀ hk₁ hk₂ hle₀ hle₁ hexclude hstart
  · rintro rfl h0 hzero
    exact h.zero hkeeps h0 hzero

theorem instancesInvisible_lastSecond :
    InstancesInvisible Bool lastSecond true {k | 0 < k ∧ k < 2 ^ 63} := by
  have hoffset := lastSecond.startOffset_int64
  refine (instancesInvisible_iff lastSecond true ?_).mpr ⟨?_, ?_, ?_, ?_⟩
  · rintro k ⟨-, hk⟩
    unfold IsUInt64
    omega
  · rintro k ⟨-, hk⟩
    exact clampTs_le hk hoffset (by decide)
  · exact fun hend => absurd rfl hend
  · rintro - k₀ - k₁ - k₂ ⟨-, hk₂⟩ - hle - hstart
    exact (clampTs_mono hle hk₂ hoffset (by decide)).trans hstart
  · exact fun _ _ hzero => absurd hzero.1 (Nat.lt_irrefl 0)

/-- `ROWS BETWEEN 1 PRECEDING AND CURRENT ROW`. -/
def lastRow : WindowRange where
  frameType := .kFrameRows
  startOffset := 0
  endOffset := 0
  startRow := 1
  maxSize := 0
  startOffset_int64 := isInt64_zero
  endOffset_int64 := isInt64_zero
  startRow_uint64 := isUInt64_one

/-- `ROWS_RANGE BETWEEN 1s PRECEDING AND 1s PRECEDING`. -/
def oneSecondAgo : WindowRange where
  frameType := .kFrameRowsRange
  startOffset := -1000
  endOffset := -1000
  startRow := 0
  maxSize := 0
  startOffset_int64 := isInt64_oneSecondBack
  endOffset_int64 := isInt64_oneSecondBack
  startRow_uint64 := isUInt64_zero

/-- The instance row `a` of key zero is pushed twice and popped once, so the next instance row
finds no union row; and a window of the past does not show its instance row. -/
theorem windowRead_loses_union :
    windowRead lastRow true [⟨0, 'u', false⟩, ⟨0, 'a', true⟩] ⟨5, 'b', true⟩ = [(5, 'b')] ∧
      windowRead lastRow true [⟨0, 'u', false⟩] ⟨5, 'b', true⟩ = [(5, 'b'), (0, 'u')] ∧
      windowRead oneSecondAgo false [⟨100, 'u', false⟩] ⟨1100, 'b', true⟩ = [(100, 'u')] := by
  decide

end HybridSE.Vm
