import HybridSE.Vm.CurrentHistoryWindow
import HybridSE.Vm.HistoryExact
import HybridSE.Vm.PureHistory

/-!
# HybridSE.Vm.LateRows

Which windows reject a row that comes too late.

`HistoryWindow::BufferData` compares a key with the front of the table only. Rows that wait
in the pending buffer, and rows that were evicted, are not looked at. The check is right
for every run of calls exactly if the newest accepted row is always the front of the table:
no row may wait (`NeverWaits`), and the window must not evict the row it has just added
(`KeepsNewest`). For every other range `rejectsLateRows_iff` has a run of calls in which a
late row is accepted.
-/

namespace HybridSE.Vm

open HybridSE.Lib List

variable {Row : Type*}

/-! ### The runs -/

/-- The rows of a run of calls for which `BufferData` returns true. -/
def HistoryWindow.accepted (w : HistoryWindow Row) : List (Entry Row) → List (Entry Row)
  | [] => []
  | e :: calls =>
    let pushed := w.bufferData e.1 e.2
    if pushed.1 then e :: pushed.2.accepted calls else pushed.2.accepted calls

/-- A call, after some others on a fresh window, treats its row as a stream in order of the
keys asks for. -/
structure LateRejected (fresh : HistoryWindow Row) (before : List (Entry Row)) (e : Entry Row) :
    Prop where
  /-- A row is rejected if it is older than some accepted row. -/
  rejects_iff : ((fresh.bufferAll before).bufferData e.1 e.2).1 = false ↔
    ∃ a ∈ fresh.accepted before, e.1 < a.1
  /-- A rejected row leaves no trace. -/
  unchanged : ((fresh.bufferAll before).bufferData e.1 e.2).1 = false →
    ((fresh.bufferAll before).bufferData e.1 e.2).2.table = (fresh.bufferAll before).table ∧
      ((fresh.bufferAll before).bufferData e.1 e.2).2.currentHistoryBuffer =
        (fresh.bufferAll before).currentHistoryBuffer
  /-- The newest rows are in front. -/
  sorted : ((fresh.bufferAll before).bufferData e.1 e.2).2.table.Pairwise KeyDesc

/-- Every call of a run on a fresh window. -/
def RejectsLateRows (range : WindowRange) (excludeCurrentTime instanceNotInWindow : Bool)
    (calls : List (Entry Row)) : Prop :=
  EveryCall (LateRejected (HistoryWindow.new range excludeCurrentTime instanceNotInWindow)) calls

namespace WindowRange

/-- No row is put aside in the pending buffer: the range ends at the current row, or the
table never has the `start_row_` rows from which on rows wait. -/
def NeverWaits (range : WindowRange) : Prop :=
  range.endOffset = 0 ∨ range.maxSize ≠ 0 ∧ range.maxSize < range.startRow

/-- A row that has just been added stays, unless its key is zero. A rows frame drops it if
its row limit wraps to zero, a time frame if it starts after the current row. The largest
start of all leaves `int64_t` for every key but zero. -/
def KeepsNewest (range : WindowRange) : Prop :=
  match range.frameType with
  | .kFrameRows => range.startRow + 1 < 2 ^ 64
  | .kFrameRowsRange => range.startOffset ≤ 0 ∨ range.startOffset = 2 ^ 63 - 1
  | .kFrameRowsMergeRowsRange =>
    range.startRow + 1 < 2 ^ 64 ∨ range.startOffset ≤ 0 ∨ range.startOffset = 2 ^ 63 - 1

instance (range : WindowRange) : Decidable range.NeverWaits :=
  inferInstanceAs (Decidable (_ ∨ _))

instance (range : WindowRange) : Decidable range.KeepsNewest :=
  match h : range.frameType with
  | .kFrameRows => decidable_of_iff (range.startRow + 1 < 2 ^ 64) (by simp [KeepsNewest, h])
  | .kFrameRowsRange =>
    decidable_of_iff (range.startOffset ≤ 0 ∨ range.startOffset = 2 ^ 63 - 1)
      (by simp [KeepsNewest, h])
  | .kFrameRowsMergeRowsRange =>
    decidable_of_iff (range.startRow + 1 < 2 ^ 64 ∨ range.startOffset ≤ 0 ∨
      range.startOffset = 2 ^ 63 - 1) (by simp [KeepsNewest, h])

end WindowRange

/-! ### Is the new row kept? -/

section Newest

variable {range : WindowRange} {key : Nat}

/-- Only a start after the current row that stays in `int64_t` is after a key. -/
theorem clampTs_le_key_iff (hk : IsUInt64 key) (range : WindowRange) :
    clampTs key range.startOffset ≤ key ↔
      range.startOffset ≤ 0 ∨ 2 ^ 63 ≤ (key : Int) + range.startOffset := by
  obtain ⟨hlo, hhi⟩ := range.startOffset_int64
  unfold IsUInt64 at hk
  unfold clampTs toInt64
  rw [Int.bmod_def]
  dsimp only
  split <;> split <;> omega

/-- The test of the new row, which stands in front. -/
theorem frameKeep_zero_iff (hk : IsUInt64 key) (row : Row) :
    frameKeep range range.rowsLimit (clampTs key range.startOffset) 0 (key, row) = true ↔
      match range.frameType with
      | .kFrameRows => range.startRow + 1 < 2 ^ 64
      | .kFrameRowsRange =>
        range.startOffset ≤ 0 ∨ 2 ^ 63 ≤ (key : Int) + range.startOffset
      | .kFrameRowsMergeRowsRange => range.startRow + 1 < 2 ^ 64 ∨ range.startOffset ≤ 0 ∨
          2 ^ 63 ≤ (key : Int) + range.startOffset := by
  have hstart := clampTs_le_key_iff hk range
  have hlimit : 0 < range.rowsLimit ↔ range.startRow + 1 < 2 ^ 64 := by
    by_cases h : range.startRow + 1 < 2 ^ 64
    · rw [rowsLimit_eq_of_lt h]
      exact ⟨fun _ => h, fun _ => Nat.succ_pos _⟩
    · rw [(startRow_eq_of_not_lt h).2]
      exact ⟨fun hpos => absurd hpos (Nat.lt_irrefl 0), fun hlt => absurd hlt h⟩
  have hsize : (decide (range.maxSize = 0) || decide (0 < range.maxSize)) = true := by
    rw [Bool.or_eq_true, decide_eq_true_eq, decide_eq_true_eq]
    omega
  unfold frameKeep
  rw [hsize, Bool.true_and]
  cases range.frameType with
  | kFrameRows => rw [decide_eq_true_eq, hlimit]
  | kFrameRowsRange => rw [decide_eq_true_eq, hstart]
  | kFrameRowsMergeRowsRange =>
    rw [Bool.or_eq_true, decide_eq_true_eq, decide_eq_true_eq, hlimit, hstart]

theorem frameKeep_zero_of_keepsNewest (h : range.KeepsNewest) (hk : IsUInt64 key)
    (hpos : 0 < key) (row : Row) :
    frameKeep range range.rowsLimit (clampTs key range.startOffset) 0 (key, row) = true := by
  rw [frameKeep_zero_iff hk]
  unfold WindowRange.KeepsNewest at h
  revert h
  cases range.frameType <;> dsimp only <;> omega

/-- A range that does not keep its newest row drops a row of key one. -/
theorem frameKeep_zero_of_not_keepsNewest (h : ¬ range.KeepsNewest) (row : Row) :
    frameKeep range range.rowsLimit (clampTs 1 range.startOffset) 0 (1, row) = false := by
  rw [Bool.eq_false_iff]
  intro hkeep
  have hkept := (frameKeep_zero_iff isUInt64_one row).mp hkeep
  obtain ⟨hlo, hhi⟩ := range.startOffset_int64
  unfold WindowRange.KeepsNewest at h
  revert h hkept
  cases range.frameType <;> dsimp only <;> omega

end Newest

namespace HistoryWindow

variable {w : HistoryWindow Row} {range : WindowRange} {key : Nat} {row : Row}

/-! ### The order of the rows -/

/-- Rows in the pending buffer are newer than those of the table, and both have their newest
rows in front. -/
def Ordered (w : HistoryWindow Row) : Prop :=
  (w.currentHistoryBuffer ++ w.table).Pairwise KeyDesc

theorem Ordered.table (h : w.Ordered) : w.table.Pairwise KeyDesc :=
  (pairwise_append.mp h).2.1

/-- The loops of `BufferEffectiveWindow` only drop rows from the back. -/
theorem bufferEffectiveWindow_isPrefix (w : HistoryWindow Row) (key : Nat) (row : Row)
    (startTs : Nat) : (w.bufferEffectiveWindow key row startTs).table <+: (key, row) :: w.table :=
  (popBackWhile_isPrefix _ _ _).trans (popBackWhile_isPrefix _ _ _)

/-- A row between the pending rows and the table is added in its place. -/
theorem Ordered.bufferEffectiveWindow (h : w.Ordered) (hkeys : ∀ e ∈ w.table, e.1 ≤ key)
    (hbuffer : ∀ e ∈ w.currentHistoryBuffer, key ≤ e.1) (row : Row) (startTs : Nat) :
    (w.bufferEffectiveWindow key row startTs).Ordered := by
  have hadd : (w.currentHistoryBuffer ++ (key, row) :: w.table).Pairwise KeyDesc := by
    obtain ⟨hb, ht, hbt⟩ := pairwise_append.mp h
    refine pairwise_append.mpr ⟨hb, pairwise_cons.mpr ⟨hkeys, ht⟩, ?_⟩
    intro x hx y hy
    rcases mem_cons.mp hy with rfl | hy
    · exact hbuffer x hx
    · exact hbt x hx y hy
  have hsub := (w.bufferEffectiveWindow_isPrefix key row startTs).sublist
  exact hadd.sublist ((List.Sublist.refl _).append hsub)

/-- Moving pending rows, oldest first, keeps the order. -/
theorem Ordered.drainHistoryBuffer (h : w.Ordered) (endTs startTs n : Nat) :
    (drainHistoryBuffer endTs startTs n w).Ordered := by
  induction n generalizing w with
  | zero => exact h
  | succ n ih =>
    rw [HistoryWindow.drainHistoryBuffer]
    split
    · exact h
    · next back hback =>
        split
        · exact h
        · have hsplit := dropLast_append_getLast? back hback
          refine ih ?_
          have hsub := (w.bufferEffectiveWindow_isPrefix back.1 back.2 startTs).sublist
          unfold Ordered at h
          rw [← hsplit, append_assoc, singleton_append] at h
          exact h.sublist ((List.Sublist.refl _).append hsub)

/-- The rows that still wait after the loop are newer than its bound. -/
theorem lt_of_mem_drainHistoryBuffer {endTs startTs n} (h : w.currentHistoryBuffer.Pairwise KeyDesc)
    (hn : w.currentHistoryBuffer.length ≤ n) :
    ∀ e ∈ (drainHistoryBuffer endTs startTs n w).currentHistoryBuffer, endTs < e.1 := by
  induction n generalizing w with
  | zero =>
    intro e he
    have hnil := length_eq_zero_iff.mp (Nat.le_zero.mp hn)
    simp [drainHistoryBuffer, hnil] at he
  | succ n ih =>
    rw [drainHistoryBuffer]
    split
    · next hlast =>
        intro e he
        rw [getLast?_eq_none_iff.mp hlast] at he
        simp at he
    · next back hback =>
        split
        · next hlt =>
            -- the oldest waiting row is newer than the bound, so all are
            intro e he
            have hsplit := dropLast_append_getLast? back hback
            rw [← hsplit] at h he
            rcases mem_append.mp he with he | he
            · exact lt_of_lt_of_le hlt
                ((pairwise_append.mp h).2.2 e he back (mem_singleton_self back))
            · simp [mem_singleton.mp he, hlt]
        · refine ih (h.sublist (dropLast_sublist _)) ?_
          simp only [length_dropLast]
          omega

/-- A row that is not older than any other comes out in front, unless it is dropped at
once. -/
theorem bufferEffectiveWindow_front (hkeep : w.windowRange.KeepsNewest) (hk : IsUInt64 key)
    (hsorted : w.table.Pairwise KeyDesc) (hkeys : ∀ e ∈ w.table, e.1 ≤ key) (row : Row) :
    ∀ k < key, ((w.bufferEffectiveWindow key row
      (clampTs key w.windowRange.startOffset)).table.head?.any
        fun front => decide (k < front.1)) = true := by
  intro k hlt
  have hfront := frameKeep_zero_of_keepsNewest hkeep hk (Nat.zero_lt_of_lt hlt) row
  rw [bufferEffectiveWindow_table w _ (pairwise_cons.mpr ⟨hkeys, hsorted⟩),
    takeIdxWhile_cons_of_pos hfront]
  simpa using hlt

/-- A table is cut to `max_size_` rows. -/
theorem length_bufferEffectiveWindow_le (hmax : w.windowRange.maxSize ≠ 0)
    (hsorted : ((key, row) :: w.table).Pairwise KeyDesc) (startTs : Nat) :
    (w.bufferEffectiveWindow key row startTs).table.length ≤ w.windowRange.maxSize := by
  have hpre : (w.bufferEffectiveWindow key row startTs).table <+:
      evictMaxSize w.windowRange ((key, row) :: w.table) := popBackWhile_isPrefix _ _ _
  refine hpre.length_le.trans ?_
  simp [evictMaxSize_eq _ hsorted, hmax, decide_false, Bool.false_or, takeIdxWhile_lt, length_take]

/-- A push at a range that ends at the current row adds the row to a table in which older
rows may have come from the pending buffer. -/
theorem exists_bufferCurrentTimeBuffer_eq (h : w.Ordered) (hkeys : w.KeysLe key)
    (hplain : w.excludeCurrentTime = false → w.currentHistoryBuffer = []) (hk : IsUInt64 key)
    (row : Row) (startTs : Nat) :
    ∃ moved : HistoryWindow Row,
      w.bufferCurrentTimeBuffer key row startTs = moved.bufferEffectiveWindow key row startTs ∧
        moved.windowRange = w.windowRange ∧ moved.Ordered ∧ moved.KeysLe key ∧
        ∀ e ∈ moved.currentHistoryBuffer, key ≤ e.1 := by
  unfold HistoryWindow.bufferCurrentTimeBuffer
  cases hexclude : w.excludeCurrentTime with
  | false => exact ⟨w, rfl, rfl, h, hkeys, by simp [hplain hexclude]⟩
  | true =>
    have hpop := hkeys.popEffectiveData
    -- the new row waits in front of the others, and those before its key move on
    have hpush : Ordered { w.popEffectiveData with
        currentHistoryBuffer := (key, row) :: w.popEffectiveData.currentHistoryBuffer } := by
      have hrest : w.popEffectiveData.Ordered := by
        rw [popEffectiveData_eq]
        exact h.sublist ((List.Sublist.refl _).append (tail_sublist _))
      refine pairwise_cons.mpr ⟨fun e he => ?_, hrest⟩
      rcases mem_append.mp he with he | he
      · exact hpop.buffer e he
      · exact hpop.table e he
    have hkeys' : KeysLe { w.popEffectiveData with
        currentHistoryBuffer := (key, row) :: w.popEffectiveData.currentHistoryBuffer } key :=
      ⟨hpop.table, forall_mem_cons.mpr ⟨Nat.le_refl key, hpop.buffer⟩⟩
    refine ⟨w.popEffectiveData.bufferCurrentHistoryBuffer key row (toUInt64 ((key : Int) - 1)),
      rfl, ?_, hpush.drainHistoryBuffer _ _ _, hkeys'.drainHistoryBuffer _ _ _, ?_⟩
    · rw [(sameSettings_bufferCurrentHistoryBuffer _ _ _ _).windowRange_eq, popEffectiveData_eq]
    · intro e he
      have hlt := lt_of_mem_drainHistoryBuffer (pairwise_append.mp hpush).1 (Nat.le_refl _)
        e he
      unfold IsUInt64 at hk
      unfold toUInt64 at hlt
      omega

/-- If the range ends elsewhere, a row that is not late goes into the table, or waits. -/
theorem bufferData_eq_of_ne (hne : w.windowRange.endOffset ≠ 0) (row : Row)
    (hkeys : ∀ e ∈ w.table, e.1 ≤ key) :
    w.bufferData key row =
      (true, if w.table.length < w.windowRange.startRow then
        w.bufferEffectiveWindow key row (clampTs key w.windowRange.startOffset)
      else w.bufferCurrentHistoryBuffer key row (clampTs key w.windowRange.endOffset)) := by
  unfold bufferData
  rw [if_neg (by simp [front_any_eq_false hkeys])]
  rw [if_neg hne.symm, if_neg hne.symm]
  split <;> rfl

/-! ### One call -/

/-- A window in which no row waits, between two calls. The last key is that of the newest
accepted row. -/
structure OrderInv (range : WindowRange) (w : HistoryWindow Row) (accepted : List (Entry Row))
    (last : Nat) : Prop where
  windowRange_eq : w.windowRange = range
  keys : w.KeysLe last
  ordered : w.Ordered
  /-- The front of the table is the newest accepted row. -/
  front : ∀ k < last, (w.table.head?.any fun front => decide (k < front.1)) = true
  accepted_le : ∀ a ∈ accepted, a.1 ≤ last
  exists_accepted : ∀ k < last, ∃ a ∈ accepted, k < a.1
  plain : w.excludeCurrentTime = false ∨ range.endOffset ≠ 0 → w.currentHistoryBuffer = []
  /-- If the range ends elsewhere, the table never has `start_row_` rows. -/
  short : range.endOffset ≠ 0 → w.table.length ≤ range.maxSize

variable {accepted : List (Entry Row)} {last : Nat} {e : Entry Row}

theorem OrderInv.new (range : WindowRange) (excludeCurrentTime inw : Bool) :
    OrderInv range (HistoryWindow.new range excludeCurrentTime inw : HistoryWindow Row) [] 0 where
  windowRange_eq := rfl
  keys := .new range excludeCurrentTime inw 0
  ordered := List.Pairwise.nil
  front := nofun
  accepted_le := nofun
  exists_accepted := nofun
  plain := fun _ => rfl
  short := fun _ => Nat.zero_le _

/-- A row that is older than the newest accepted one is rejected. -/
theorem OrderInv.bufferData_of_late (h : OrderInv range w accepted last) (hlate : e.1 < last) :
    w.bufferData e.1 e.2 = (false, w) := by
  unfold HistoryWindow.bufferData
  rw [if_pos (h.front e.1 hlate)]

/-- Any other row is accepted, and added to a table in order. -/
theorem OrderInv.bufferData_of_inOrder (h : OrderInv range w accepted last)
    (hwaits : range.NeverWaits) (hle : last ≤ e.1) (hk : IsUInt64 e.1) :
    ∃ moved : HistoryWindow Row,
      w.bufferData e.1 e.2 = (true, moved.bufferEffectiveWindow e.1 e.2
          (clampTs e.1 moved.windowRange.startOffset)) ∧
        moved.windowRange = range ∧ moved.Ordered ∧ moved.KeysLe e.1 ∧
        (∀ x ∈ moved.currentHistoryBuffer, e.1 ≤ x.1) ∧
        (range.endOffset ≠ 0 → moved = w) := by
  have hkeys := h.keys.mono hle
  by_cases h0 : range.endOffset = 0
  · obtain ⟨moved, heq, hrange, hordered, hmoved, hbuffer⟩ :=
      exists_bufferCurrentTimeBuffer_eq h.ordered hkeys (fun hx => h.plain (.inl hx)) hk e.2
        (clampTs e.1 w.windowRange.startOffset)
    refine ⟨moved, ?_, hrange.trans h.windowRange_eq, hordered, hmoved, hbuffer,
      fun hne => absurd h0 hne⟩
    rw [bufferData_eq (by rw [h.windowRange_eq, h0]) e.2 hkeys.table, heq, hrange]
  · refine ⟨w, ?_, h.windowRange_eq, h.ordered, hkeys, ?_, fun _ => rfl⟩
    · have hshort : w.table.length < w.windowRange.startRow := by
        have := h.short h0
        rw [h.windowRange_eq]
        have := hwaits.resolve_left h0
        omega
      rw [bufferData_eq_of_ne (by rwa [h.windowRange_eq]) e.2 hkeys.table, if_pos hshort]
    · simp [h.plain (.inr h0)]

/-- A call keeps the invariant: a late row changes nothing, any other is the newest. -/
theorem OrderInv.bufferData_of_le (h : OrderInv range w accepted last) (hwaits : range.NeverWaits)
    (hkeep : range.KeepsNewest) (hle : last ≤ e.1) (hk : IsUInt64 e.1) :
    (w.bufferData e.1 e.2).1 = true ∧
      OrderInv range (w.bufferData e.1 e.2).2 (accepted ++ [e]) e.1 := by
  obtain ⟨moved, heq, hrange, hordered, hkeys, hbuffer, hsame⟩ :=
    h.bufferData_of_inOrder hwaits hle hk
  have hsettings := sameSettings_bufferData w e.1 e.2
  have hplain : w.excludeCurrentTime = false ∨ range.endOffset ≠ 0 →
      (w.bufferData e.1 e.2).2.currentHistoryBuffer = [] := by
    intro hcase
    by_cases h0 : range.endOffset = 0
    · have hno := hcase.resolve_right (not_not.mpr h0)
      simpa [bufferData_eq (by rw [h.windowRange_eq, h0]) e.2 (h.keys.mono hle).table,
        HistoryWindow.bufferCurrentTimeBuffer, hno] using h.plain hcase
    · rw [heq, hsame h0]
      exact h.plain hcase
  rw [heq] at hsettings hplain ⊢
  refine ⟨rfl, hrange, hkeys.bufferEffectiveWindow (Nat.le_refl _) _ _,
    hordered.bufferEffectiveWindow hkeys.table hbuffer _ _,
    bufferEffectiveWindow_front (by rw [hrange]; exact hkeep) hk hordered.table hkeys.table _,
    ?_, fun k hlt => ⟨e, by simp, hlt⟩, ?_, ?_⟩
  · intro a ha
    rcases mem_append.mp ha with ha | ha
    · exact (h.accepted_le a ha).trans hle
    · rw [mem_singleton.mp ha]
  · rw [hsettings.exclude_eq]
    exact hplain
  · intro h0
    have hmax := (hwaits.resolve_left h0).1
    have hsorted := pairwise_cons.mpr ⟨hkeys.table, hordered.table⟩
    rw [← hrange] at hmax ⊢
    exact length_bufferEffectiveWindow_le hmax hsorted _

/-! ### Runs -/

theorem bufferAll_concat (w : HistoryWindow Row) (calls : List (Entry Row)) (e : Entry Row) :
    w.bufferAll (calls ++ [e]) = ((w.bufferAll calls).bufferData e.1 e.2).2 := by
  simp [bufferAll]

theorem accepted_concat (w : HistoryWindow Row) (calls : List (Entry Row)) (e : Entry Row) :
    w.accepted (calls ++ [e]) = w.accepted calls ++
      if ((w.bufferAll calls).bufferData e.1 e.2).1 then [e] else [] := by
  induction calls generalizing w with
  | nil => rfl
  | cons x calls ih =>
    rw [cons_append, accepted, accepted, ih]
    split <;> rfl

/-- After any run the invariant holds. -/
theorem exists_orderInv (hwaits : range.NeverWaits) (hkeep : range.KeepsNewest)
    (excludeCurrentTime inw : Bool) {calls : List (Entry Row)} (hk : ∀ e ∈ calls, IsUInt64 e.1) :
    ∃ last, OrderInv range ((HistoryWindow.new range excludeCurrentTime inw).bufferAll calls)
      ((HistoryWindow.new range excludeCurrentTime inw).accepted calls) last := by
  induction calls using List.reverseRecOn with
  | nil => exact ⟨0, .new range excludeCurrentTime inw⟩
  | append_singleton calls e ih =>
    obtain ⟨last, hinv⟩ := ih fun x hx => hk x (mem_append_left _ hx)
    rw [bufferAll_concat, accepted_concat]
    by_cases hlate : e.1 < last
    · rw [hinv.bufferData_of_late hlate]
      exact ⟨last, by simpa using hinv⟩
    · obtain ⟨hok, hnext⟩ := hinv.bufferData_of_le hwaits hkeep (not_lt.mp hlate)
        (hk e (by simp))
      rw [if_pos hok]
      exact ⟨e.1, hnext⟩

end HistoryWindow

/-- While the newest accepted row is in front, a call rejects exactly the late rows. -/
theorem HistoryWindow.OrderInv.lateRejected {fresh range before} {e : Entry Row} {last}
    (h : OrderInv range (fresh.bufferAll before) (fresh.accepted before) last)
    (hwaits : range.NeverWaits) (hkeep : range.KeepsNewest) (hk : IsUInt64 e.1) :
    LateRejected fresh before e := by
  by_cases hlate : e.1 < last
  · have hcall := h.bufferData_of_late hlate
    exact ⟨by simpa [hcall] using h.exists_accepted e.1 hlate, fun _ => by simp [hcall],
      by simpa [hcall] using h.ordered.table⟩
  · obtain ⟨hok, hnext⟩ := h.bufferData_of_le hwaits hkeep (not_lt.mp hlate) hk
    refine ⟨⟨fun hfalse => by simp [hok] at hfalse, ?_⟩, fun hfalse => by simp [hok] at hfalse,
      hnext.ordered.table⟩
    rintro ⟨a, ha, hlt⟩
    exact absurd (lt_of_lt_of_le hlt (h.accepted_le a ha)) hlate

/-! ### Late rows that are accepted -/

section Late

variable {range : WindowRange} {w : HistoryWindow Row} {key : Nat} {row : Row}

theorem not_lateRejected {fresh before} {a e : Entry Row} (ha : a ∈ fresh.accepted before)
    (hlt : e.1 < a.1) (hok : ((fresh.bufferAll before).bufferData e.1 e.2).1 = true) :
    ¬ LateRejected fresh before e := by
  intro h
  have hfalse := h.rejects_iff.mpr ⟨a, ha, hlt⟩
  rw [hok] at hfalse
  exact absurd hfalse (by decide)

/-- `BufferData` returns true unless the front row is newer. -/
theorem HistoryWindow.bufferData_fst (h : ∀ e ∈ w.table, e.1 ≤ key) (row : Row) :
    (w.bufferData key row).1 = true := by
  unfold bufferData
  rw [if_neg (by simp [front_any_eq_false h])]
  split <;> split <;> rfl

/-- A row that is dropped at once takes all older rows with it. -/
theorem HistoryWindow.bufferEffectiveWindow_table_eq_nil {startTs}
    (hsorted : ((key, row) :: w.table).Pairwise KeyDesc)
    (hdrop : frameKeep w.windowRange w.windowRange.rowsLimit startTs 0 (key, row) = false) :
    (w.bufferEffectiveWindow key row startTs).table = [] := by
  rw [bufferEffectiveWindow_table w startTs hsorted, takeIdxWhile_cons_of_neg (by simp [hdrop])]

/-- The first row goes into the table, or waits, or both; if the window does not keep it, the
table is empty afterwards. -/
theorem bufferData_new_table (hkeep : ¬ range.KeepsNewest) (excludeCurrentTime inw : Bool)
    (row : Row) :
    ((HistoryWindow.new range excludeCurrentTime inw).bufferData 1 row).2.table = [] := by
  have hdrop := frameKeep_zero_of_not_keepsNewest hkeep row
  have hordered : (HistoryWindow.new range excludeCurrentTime inw : HistoryWindow Row).Ordered :=
    List.Pairwise.nil
  by_cases h0 : range.endOffset = 0
  · obtain ⟨moved, heq, hrange, hmoved, hkeys, -⟩ :=
      HistoryWindow.exists_bufferCurrentTimeBuffer_eq hordered (.new range excludeCurrentTime inw 1)
        (fun _ => rfl) isUInt64_one row (clampTs (1 : Nat) range.startOffset)
    rw [HistoryWindow.bufferData_eq h0 row (by simp [HistoryWindow.new])]
    refine (congrArg HistoryWindow.table heq).trans
      (HistoryWindow.bufferEffectiveWindow_table_eq_nil
        (pairwise_cons.mpr ⟨hkeys.table, hmoved.table⟩) ?_)
    rw [hrange]
    exact hdrop
  · have hadded : ((HistoryWindow.new range excludeCurrentTime inw).bufferEffectiveWindow 1 row
        (clampTs (1 : Nat) range.startOffset)).table = [] :=
      HistoryWindow.bufferEffectiveWindow_table_eq_nil (pairwise_singleton _ _) hdrop
    rw [HistoryWindow.bufferData_eq_of_ne h0 row (by simp [HistoryWindow.new])]
    split
    · exact hadded
    · unfold HistoryWindow.bufferCurrentHistoryBuffer
      rw [show ((HistoryWindow.new range excludeCurrentTime inw :
          HistoryWindow Row).currentHistoryBuffer) = [] from rfl]
      dsimp only [length_singleton, HistoryWindow.drainHistoryBuffer,
        getLast?_singleton]
      split
      · rfl
      · exact hadded

/-- A table that dropped its newest row accepts any row. -/
theorem not_rejectsLateRows_of_not_keepsNewest (hkeep : ¬ range.KeepsNewest)
    (excludeCurrentTime inw : Bool) (row : Row) :
    ¬ RejectsLateRows range excludeCurrentTime inw [(1, row), (0, row)] := by
  intro h
  have hempty := bufferData_new_table hkeep excludeCurrentTime inw row
  have hfirst : ((HistoryWindow.new range excludeCurrentTime inw).bufferData 1 row).1 = true :=
    HistoryWindow.bufferData_fst (by simp [HistoryWindow.new]) row
  refine not_lateRejected (a := (1, row)) ?_ Nat.zero_lt_one ?_ (h [(1, row)] (0, row) [] rfl)
  · simp [HistoryWindow.accepted, hfirst]
  · refine HistoryWindow.bufferData_fst ?_ row
    simp [HistoryWindow.bufferAll, hempty]

/-- The first of the keys that are negative as `int64_t`: a window that starts before it has
room for it, and a range that ends elsewhere does not reach from it to its successor. -/
def signKey : Nat := 2 ^ 63

theorem isUInt64_signKey : IsUInt64 signKey := by decide

theorem frameKeep_signKey (hkeep : range.KeepsNewest) (hwaits : ¬ range.NeverWaits) {i}
    (hi : i < range.startRow) (row : Row) :
    frameKeep range range.rowsLimit (clampTs signKey range.startOffset) i (signKey, row) =
      true := by
  have hstart : clampTs signKey range.startOffset ≤ signKey := by
    rw [clampTs_le_key_iff isUInt64_signKey]
    unfold signKey
    omega
  have hsize : (decide (range.maxSize = 0) || decide (i < range.maxSize)) = true := by
    rw [Bool.or_eq_true, decide_eq_true_eq, decide_eq_true_eq]
    have := (not_or.mp hwaits).2
    omega
  unfold WindowRange.KeepsNewest at hkeep
  unfold frameKeep
  rw [hsize, Bool.true_and]
  revert hkeep
  cases range.frameType with
  | kFrameRows =>
    intro hrows
    rw [rowsLimit_eq_of_lt hrows, decide_eq_true_eq]
    omega
  | kFrameRowsRange => exact fun _ => decide_eq_true hstart
  | kFrameRowsMergeRowsRange =>
    intro _
    rw [decide_eq_true hstart, Bool.or_true]

/-- The first rows go directly into the table, until there are `start_row_` of them. -/
theorem bufferAll_replicate (hkeep : range.KeepsNewest) (hwaits : ¬ range.NeverWaits)
    (excludeCurrentTime inw : Bool) (row : Row) {n} (hn : n ≤ range.startRow) :
    ((HistoryWindow.new range excludeCurrentTime inw).bufferAll
        (List.replicate n (signKey, row))).table = List.replicate n (signKey, row) ∧
      ((HistoryWindow.new range excludeCurrentTime inw).bufferAll
        (List.replicate n (signKey, row))).currentHistoryBuffer = [] := by
  induction n with
  | zero => exact ⟨rfl, rfl⟩
  | succ n ih =>
    obtain ⟨htable, hbuffer⟩ := ih (Nat.le_of_succ_le hn)
    have hsettings := (HistoryWindow.sameSettings_bufferAll
      (HistoryWindow.new range excludeCurrentTime inw)
      (List.replicate n (signKey, row))).windowRange_eq
    rw [replicate_succ', HistoryWindow.bufferAll_concat, ← replicate_succ']
    generalize (HistoryWindow.new range excludeCurrentTime inw).bufferAll
      (List.replicate n (signKey, row)) = w at htable hbuffer hsettings ⊢
    have hrange : w.windowRange = range := hsettings
    have hsorted : ((signKey, row) :: w.table).Pairwise KeyDesc := by
      rw [htable, ← replicate_succ, pairwise_replicate]
      exact .inr (Nat.le_refl _)
    have hcall : w.bufferData signKey row = (true, w.bufferEffectiveWindow signKey row
        (clampTs signKey range.startOffset)) := by
      rw [HistoryWindow.bufferData_eq_of_ne (by rw [hrange]; exact (not_or.mp hwaits).1) row
        (pairwise_cons.mp hsorted).1, if_pos, hrange]
      rw [htable, length_replicate, hrange]
      exact hn
    rw [hcall]
    refine ⟨?_, hbuffer⟩
    rw [HistoryWindow.bufferEffectiveWindow_table w _ hsorted, hrange, htable,
      ← replicate_succ]
    refine takeIdxWhile_eq_self fun j x hj hx => ?_
    rw [length_replicate] at hj
    rw [(mem_replicate.mp hx).2, Nat.zero_add]
    exact frameKeep_signKey hkeep hwaits (lt_of_lt_of_le hj hn) row

/-- A row after the bound waits, and the table stays as it is. -/
theorem bufferCurrentHistoryBuffer_table {endTs} (hbuffer : w.currentHistoryBuffer = [])
    (hlt : endTs < key) (row : Row) :
    (w.bufferCurrentHistoryBuffer key row endTs).table = w.table := by
  unfold HistoryWindow.bufferCurrentHistoryBuffer
  rw [hbuffer]
  dsimp only [length_singleton, HistoryWindow.drainHistoryBuffer, getLast?_singleton]
  rw [if_pos hlt]

theorem clampTs_signKey_lt (range : WindowRange) :
    clampTs ((signKey + 1 : Nat) : Int) range.endOffset < signKey + 1 := by
  unfold clampTs toInt64 signKey
  rw [Int.bmod_def]
  dsimp only
  split <;> split <;> omega

/-- With `start_row_` rows in the table the next row waits, and the check does not see it. -/
theorem bufferData_of_waiting (hwaits : ¬ range.NeverWaits) (hrange : w.windowRange = range)
    (htable : w.table = List.replicate range.startRow (signKey, row))
    (hbuffer : w.currentHistoryBuffer = []) :
    (w.bufferData (signKey + 1) row).1 = true ∧
      ∀ e ∈ (w.bufferData (signKey + 1) row).2.table, e.1 ≤ signKey := by
  have hkeys : ∀ e ∈ w.table, e.1 ≤ signKey := by
    intro e he
    rw [htable] at he
    rw [(mem_replicate.mp he).2]
  rw [HistoryWindow.bufferData_eq_of_ne (by rw [hrange]; exact (not_or.mp hwaits).1) row
      fun e he => (hkeys e he).trans (Nat.le_succ _),
    if_neg (by rw [htable, length_replicate, hrange]; exact Nat.lt_irrefl _),
    bufferCurrentHistoryBuffer_table hbuffer (clampTs_signKey_lt _)]
  exact ⟨rfl, hkeys⟩

theorem not_rejectsLateRows_of_waits (hkeep : range.KeepsNewest) (hwaits : ¬ range.NeverWaits)
    (excludeCurrentTime inw : Bool) (row : Row) :
    ¬ RejectsLateRows range excludeCurrentTime inw
      (List.replicate range.startRow (signKey, row) ++ [(signKey + 1, row), (signKey, row)]) := by
  intro h
  obtain ⟨htable, hbuffer⟩ := bufferAll_replicate hkeep hwaits excludeCurrentTime inw row
    (Nat.le_refl range.startRow)
  have hrange := (HistoryWindow.sameSettings_bufferAll
    (HistoryWindow.new range excludeCurrentTime inw)
    (List.replicate range.startRow (signKey, row))).windowRange_eq
  obtain ⟨hok, hkeys⟩ := bufferData_of_waiting hwaits hrange htable hbuffer
  refine not_lateRejected (a := (signKey + 1, row)) ?_ (Nat.lt_succ_self _) ?_
    (h (List.replicate range.startRow (signKey, row) ++ [(signKey + 1, row)]) (signKey, row) []
      (by simp))
  · rw [HistoryWindow.accepted_concat, hok]
    simp
  · rw [HistoryWindow.bufferAll_concat]
    exact HistoryWindow.bufferData_fst hkeys row

/-- A window rejects the late rows of every run exactly if no row waits in its pending
buffer and it keeps the newest row. -/
theorem rejectsLateRows_iff [Inhabited Row] (range : WindowRange) (excludeCurrentTime inw : Bool) :
    (∀ calls : List (Entry Row), (∀ e ∈ calls, IsUInt64 e.1) →
      RejectsLateRows range excludeCurrentTime inw calls) ↔
        range.NeverWaits ∧ range.KeepsNewest := by
  constructor
  · intro h
    have hkeep : range.KeepsNewest := by
      by_contra hkeep
      exact not_rejectsLateRows_of_not_keepsNewest hkeep excludeCurrentTime inw default
        (h _ (by simp [IsUInt64]))
    refine ⟨?_, hkeep⟩
    by_contra hwaits
    refine not_rejectsLateRows_of_waits hkeep hwaits excludeCurrentTime inw default (h _ ?_)
    intro e he
    simp only [mem_append, mem_replicate, mem_cons, not_mem_nil, or_false] at he
    rcases he with ⟨-, rfl⟩ | rfl | rfl <;> simp [IsUInt64, signKey]
  · rintro ⟨hwaits, hkeep⟩ calls hk before e after rfl
    obtain ⟨last, hinv⟩ := HistoryWindow.exists_orderInv hwaits hkeep excludeCurrentTime inw
      fun x hx => hk x (mem_append_left _ hx)
    exact hinv.lateRejected hwaits hkeep (hk e (by simp))

/-- The window of the second before the last one: after a row of key 5000 it accepts one of
key 4500, since the first row still waits. -/
theorem not_rejectsLateRows_beforeLastSecond :
    ¬ RejectsLateRows beforeLastSecond false false [(5000, 1), (4500, 2)] := by
  intro h
  have hlate := (h [(5000, 1)] (4500, 2) [] rfl).rejects_iff.mpr
  revert hlate
  decide

end Late

end HybridSE.Vm
