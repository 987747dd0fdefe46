import HybridSE.Vm.Window

/-!
# HybridSE.Vm.WindowSound

What a `HistoryWindow` with `end_offset_ = 0` holds after any run of
`BufferData` calls.

`frameKeep` is the test that both modes apply to a row at a position of the
window. One call of `BufferEffectiveWindow` cuts the table by it
(`bufferEffectiveWindow_table`). A run keeps, between two calls, only a prefix
of the history, so the invariants below say that this prefix still *covers* the
history (`Lib.Covers`): everything that a later cut can want is there, because
the window start never moves back and positions only grow.

With `exclude_current_time_` on, the rows of the current key wait in
`current_history_buffer_` and the table's front row is the current row, which
the next call pops first; `ExcludeInv` is the invariant of that protocol.
-/

namespace HybridSE.Vm

open HybridSE.Lib List

variable {Row : Type*}

/-! ### The frame test -/

/-- Is the row at position `i` of a newest-first list inside the frame?
`rowsLimit` is the number of rows that a rows frame keeps and `startTs` the
smallest key that a range frame keeps. -/
def frameKeep (range : WindowRange) (rowsLimit startTs i : Nat) (e : Entry Row) : Bool :=
  (decide (range.maxSize = 0) || decide (i < range.maxSize)) &&
    match range.frameType with
    | .kFrameRows => decide (i < rowsLimit)
    | .kFrameRowsRange => decide (startTs ≤ e.1)
    | .kFrameRowsMergeRowsRange => decide (i < rowsLimit) || decide (startTs ≤ e.1)

/-- Newest first: the keys never increase along the table. -/
def KeyDesc (x y : Entry Row) : Prop := y.1 ≤ x.1

theorem keyDesc_refl (x : Entry Row) : KeyDesc x x := Nat.le_refl x.1

variable {range : WindowRange} {key : Nat} {offset : Int}

/-- Positions further back, older rows and later window starts are rejected
first. -/
theorem frameKeep_mono {rowsLimit startTs startTs' i j} {x y : Entry Row} (hij : i ≤ j)
    (hxy : KeyDesc x y) (hts : startTs ≤ startTs')
    (h : frameKeep range rowsLimit startTs' j y = true) :
    frameKeep range rowsLimit startTs i x = true := by
  unfold KeyDesc at hxy
  unfold frameKeep at h ⊢
  cases hf : range.frameType <;> simp only [hf, Bool.and_eq_true, Bool.or_eq_true,
    decide_eq_true_eq] at h ⊢ <;> omega

theorem frameKeep_antitone (range : WindowRange) (rowsLimit startTs : Nat) :
    KeepAntitone (@KeyDesc Row) (frameKeep range rowsLimit startTs) :=
  fun _ _ _ _ hij hxy h => frameKeep_mono hij hxy (Nat.le_refl _) h

/-- Moving the window start forward keeps a covering table covering. -/
theorem covers_frameKeep_mono {rowsLimit startTs startTs'} {ys xs : List (Entry Row)}
    (hts : startTs ≤ startTs') (h : Covers (frameKeep range rowsLimit startTs) ys xs) :
    Covers (frameKeep range rowsLimit startTs') ys xs :=
  h.mono fun _ x hx => frameKeep_mono (Nat.le_refl _) (keyDesc_refl x) hts hx

/-! ### One call of `BufferEffectiveWindow` -/

/-- The number of rows a rows frame keeps in batch mode: `start_row_ + 1` as
`uint64_t`. -/
def WindowRange.rowsLimit (range : WindowRange) : Nat := toUInt64 (range.startRow + 1)

theorem WindowRange.rowsLimit_eq (range : WindowRange) :
    range.rowsLimit = if range.startRow + 1 = 2 ^ 64 then 0 else range.startRow + 1 := by
  have h := range.startRow_uint64
  unfold IsUInt64 at h
  unfold rowsLimit toUInt64
  split <;> omega

namespace HistoryWindow

/-- The first loop keeps the `max_size_` newest rows. -/
theorem evictMaxSize_eq (range : WindowRange) {table : List (Entry Row)}
    (h : table.Pairwise KeyDesc) :
    evictMaxSize range table =
      takeIdxWhile (fun i _ => decide (range.maxSize = 0) || decide (i < range.maxSize)) 0
        table := by
  refine popBackWhile_eq_takeIdxWhile keyDesc_refl ?_ ?_ h
  · intro i j x y hij _ hj
    simp only [Bool.or_eq_true, decide_eq_true_eq] at hj ⊢
    omega
  · intro n x
    rw [Bool.eq_iff_iff]
    simp only [Bool.and_eq_true, Bool.not_eq_true', Bool.or_eq_false_iff, decide_eq_true_eq,
      decide_eq_false_iff_not]
    omega

/-- The second loop keeps the rows that the frame's bounds want. -/
theorem slideWindow_eq (range : WindowRange) (startTs : Nat) {table : List (Entry Row)}
    (h : table.Pairwise KeyDesc) :
    slideWindow range startTs table =
      takeIdxWhile
        (fun i e => match range.frameType with
          | .kFrameRows => decide (i < range.rowsLimit)
          | .kFrameRowsRange => decide (startTs ≤ e.1)
          | .kFrameRowsMergeRowsRange => decide (i < range.rowsLimit) || decide (startTs ≤ e.1))
        0 table := by
  refine popBackWhile_eq_takeIdxWhile keyDesc_refl ?_ ?_ h
  · intro i j x y hij hxy hj
    unfold KeyDesc at hxy
    cases hf : range.frameType <;> simp only [hf, Bool.or_eq_true, decide_eq_true_eq] at hj ⊢ <;>
      omega
  · intro n x
    unfold WindowRange.isRowsLike WindowRange.rowsLimit
    rw [Bool.eq_iff_iff]
    cases range.frameType <;> grind

/-- One call cuts the table, the new row in front, by the frame test. -/
theorem bufferEffectiveWindow_table (w : HistoryWindow Row) {key : Nat} {row} (startTs : Nat)
    (h : ((key, row) :: w.table).Pairwise KeyDesc) :
    (w.bufferEffectiveWindow key row startTs).table =
      takeIdxWhile (frameKeep w.windowRange w.windowRange.rowsLimit startTs) 0
        ((key, row) :: w.table) := by
  have hevict := evictMaxSize_eq w.windowRange h
  have hsorted : (evictMaxSize w.windowRange ((key, row) :: w.table)).Pairwise KeyDesc := by
    rw [hevict]
    exact h.sublist (takeIdxWhile_isPrefix _ _ _).sublist
  unfold bufferEffectiveWindow
  rw [slideWindow_eq _ _ hsorted, hevict, takeIdxWhile_and]
  rfl

@[simp] theorem bufferEffectiveWindow_windowRange (w : HistoryWindow Row) (key : Nat) (row : Row)
    (startTs : Nat) : (w.bufferEffectiveWindow key row startTs).windowRange = w.windowRange := rfl

@[simp] theorem bufferEffectiveWindow_excludeCurrentTime (w : HistoryWindow Row) (key : Nat)
    (row : Row) (startTs : Nat) :
    (w.bufferEffectiveWindow key row startTs).excludeCurrentTime = w.excludeCurrentTime := rfl

@[simp] theorem bufferEffectiveWindow_currentHistoryBuffer (w : HistoryWindow Row) (key : Nat)
    (row : Row) (startTs : Nat) :
    (w.bufferEffectiveWindow key row startTs).currentHistoryBuffer = w.currentHistoryBuffer := rfl

/-! ### The flag `instance_not_in_window_` -/

@[simp] theorem drainHistoryBuffer_instanceNotInWindow (endTs startTs n : Nat)
    (w : HistoryWindow Row) :
    (drainHistoryBuffer endTs startTs n w).instanceNotInWindow = w.instanceNotInWindow := by
  induction n generalizing w with
  | zero => rfl
  | succ n ih =>
    rw [drainHistoryBuffer]
    split
    · rfl
    · split
      · rfl
      · rw [ih]
        rfl

/-- Pushing a row leaves the flag alone. -/
@[simp] theorem bufferData_instanceNotInWindow (w : HistoryWindow Row) (key : Nat) (row : Row) :
    (w.bufferData key row).2.instanceNotInWindow = w.instanceNotInWindow := by
  have hpop : w.popEffectiveData.instanceNotInWindow = w.instanceNotInWindow := by
    unfold popEffectiveData
    split <;> rfl
  have htime : ∀ startTs,
      (w.bufferCurrentTimeBuffer key row startTs).instanceNotInWindow = w.instanceNotInWindow := by
    unfold bufferCurrentTimeBuffer bufferCurrentHistoryBuffer bufferEffectiveWindow
    split <;> simp [hpop]
  unfold bufferData
  split
  · rfl
  · split
    · split
      · exact htime _
      · rfl
    · split
      · exact htime _
      · simp [bufferCurrentHistoryBuffer]

@[simp] theorem dropFront_instanceNotInWindow (w : HistoryWindow Row) :
    w.dropFront.instanceNotInWindow = w.instanceNotInWindow := by
  unfold dropFront
  split <;> rfl

/-- Nothing changes the settings of a window: its range and its flag for the current time. -/
structure SameSettings (w w' : HistoryWindow Row) : Prop where
  windowRange_eq : w'.windowRange = w.windowRange
  exclude_eq : w'.excludeCurrentTime = w.excludeCurrentTime

theorem SameSettings.refl (w : HistoryWindow Row) : SameSettings w w := ⟨rfl, rfl⟩

theorem SameSettings.trans {w w' w'' : HistoryWindow Row} (h : SameSettings w w')
    (h' : SameSettings w' w'') : SameSettings w w'' :=
  ⟨h'.windowRange_eq.trans h.windowRange_eq, h'.exclude_eq.trans h.exclude_eq⟩

theorem sameSettings_drainHistoryBuffer (endTs startTs n : Nat) (w : HistoryWindow Row) :
    SameSettings w (drainHistoryBuffer endTs startTs n w) := by
  induction n generalizing w with
  | zero => exact .refl w
  | succ n ih =>
    rw [drainHistoryBuffer]
    split
    · exact .refl w
    · split
      · exact .refl w
      · obtain ⟨hrange, hexclude⟩ := ih { w.bufferEffectiveWindow _ _ startTs with
          currentHistoryBuffer := w.currentHistoryBuffer.dropLast }
        exact ⟨hrange, hexclude⟩

theorem sameSettings_bufferCurrentHistoryBuffer (w : HistoryWindow Row) (key : Nat) (row : Row)
    (endTs : Nat) : SameSettings w (w.bufferCurrentHistoryBuffer key row endTs) := by
  obtain ⟨hrange, hexclude⟩ := sameSettings_drainHistoryBuffer endTs
    (clampTs key w.windowRange.startOffset) (w.currentHistoryBuffer.length + 1)
    { w with currentHistoryBuffer := (key, row) :: w.currentHistoryBuffer }
  exact ⟨hrange, hexclude⟩

theorem sameSettings_bufferCurrentTimeBuffer (w : HistoryWindow Row) (key : Nat) (row : Row)
    (startTs : Nat) : SameSettings w (w.bufferCurrentTimeBuffer key row startTs) := by
  have hpop : SameSettings w w.popEffectiveData := by
    unfold popEffectiveData
    split <;> exact ⟨rfl, rfl⟩
  unfold bufferCurrentTimeBuffer
  split
  · exact ⟨rfl, rfl⟩
  · obtain ⟨hrange, hexclude⟩ := hpop.trans
      (sameSettings_bufferCurrentHistoryBuffer w.popEffectiveData key row _)
    exact ⟨hrange, hexclude⟩

theorem sameSettings_bufferData (w : HistoryWindow Row) (key : Nat) (row : Row) :
    SameSettings w (w.bufferData key row).2 := by
  unfold bufferData
  split
  · exact .refl w
  · split
    · split
      · exact sameSettings_bufferCurrentTimeBuffer w key row _
      · exact ⟨rfl, rfl⟩
    · split
      · exact sameSettings_bufferCurrentTimeBuffer w key row _
      · exact sameSettings_bufferCurrentHistoryBuffer w key row _

theorem sameSettings_bufferAll (w : HistoryWindow Row) (rows : List (Entry Row)) :
    SameSettings w (w.bufferAll rows) := by
  induction rows generalizing w with
  | nil => exact .refl w
  | cons e rows ih => exact (sameSettings_bufferData w e.1 e.2).trans (ih _)

theorem bufferAll_instanceNotInWindow (w : HistoryWindow Row) (rows : List (Entry Row)) :
    (w.bufferAll rows).instanceNotInWindow = w.instanceNotInWindow := by
  unfold bufferAll
  induction rows generalizing w with
  | nil => rfl
  | cons e rows ih => rw [foldl_cons, ih, bufferData_instanceNotInWindow]

end HistoryWindow

/-! ### The window start -/

/-- Within the C++ ranges the clamped sum is the sum, cut at zero. -/
theorem clampTs_eq (hk : key < 2 ^ 63) (ho : IsInt64 offset) (h0 : offset ≤ 0) :
    clampTs key offset = (key + offset).toNat := by
  unfold clampTs
  dsimp only
  rw [toInt64_of_isInt64 (isInt64_add_of_nonpos hk ho h0)]
  split <;> omega

/-- The window start never moves back. -/
theorem clampTs_mono {key'} (h : key ≤ key') (hk : key' < 2 ^ 63) (ho : IsInt64 offset)
    (h0 : offset ≤ 0) : clampTs key offset ≤ clampTs key' offset := by
  rw [clampTs_eq (Nat.lt_of_le_of_lt h hk) ho h0, clampTs_eq hk ho h0]
  omega

/-- The window start is not after the current key. -/
theorem clampTs_le (hk : key < 2 ^ 63) (ho : IsInt64 offset) (h0 : offset ≤ 0) :
    clampTs key offset ≤ key := by
  rw [clampTs_eq hk ho h0]
  omega

/-- A later bound of the window is a later time. -/
theorem clampTs_mono_offset {offset'} (hk : key < 2 ^ 63) (ho : IsInt64 offset)
    (h : offset ≤ offset') (h0 : offset' ≤ 0) : clampTs key offset ≤ clampTs key offset' := by
  obtain ⟨hlo, hhi⟩ := ho
  rw [clampTs_eq hk ⟨hlo, hhi⟩ (h.trans h0), clampTs_eq hk ⟨hlo.trans h, by omega⟩ h0]
  omega

/-- The batch-mode frame test for a window whose current key is `key`. -/
def WindowRange.keepAt (range : WindowRange) (key : Nat) : Nat → Entry Row → Bool :=
  frameKeep range range.rowsLimit (clampTs key range.startOffset)

theorem WindowRange.keepAt_antitone (range : WindowRange) (key : Nat) :
    KeepAntitone (@KeyDesc Row) (range.keepAt key) :=
  frameKeep_antitone range _ _

theorem WindowRange.keepAt_pred (range : WindowRange) (key d : Nat) (e : Entry Row)
    (h : range.keepAt key (d + 1) e = true) : range.keepAt key d e = true :=
  range.keepAt_antitone key d (d + 1) e e (Nat.le_succ d) (keyDesc_refl e) h

/-- The ranges of the history windows: they end at the current row and start at
or before it. -/
structure WindowRange.EndsAtCurrent (range : WindowRange) : Prop where
  endOffset_eq : range.endOffset = 0
  startOffset_nonpos : range.startOffset ≤ 0

theorem WindowRange.EndsAtCurrent.covers_mono (hr : range.EndsAtCurrent) {key'} (h : key ≤ key')
    (hk : key' < 2 ^ 63) {ys xs : List (Entry Row)} (hc : Covers (range.keepAt key) ys xs) :
    Covers (range.keepAt key') ys xs :=
  covers_frameKeep_mono
    (clampTs_mono h hk range.startOffset_int64 hr.startOffset_nonpos) hc

namespace HistoryWindow

/-! ### Runs without `exclude_current_time_` -/

variable {key : Nat}

/-- The check of `BufferData` passes if no row of the table is newer. -/
theorem front_any_eq_false {table : List (Entry Row)} (h : ∀ e ∈ table, e.1 ≤ key) :
    table.head?.any (fun front => decide (key < front.1)) = false := by
  cases table with
  | nil => rfl
  | cons e t => simpa using h e mem_cons_self

/-- With `end_offset_ = 0` every accepted row goes to `BufferCurrentTimeBuffer`. -/
theorem bufferData_eq {w : HistoryWindow Row} (h0 : w.windowRange.endOffset = 0) (row : Row)
    (hfront : ∀ e ∈ w.table, e.1 ≤ key) :
    w.bufferData key row =
      (true, w.bufferCurrentTimeBuffer key row (clampTs key w.windowRange.startOffset)) := by
  unfold bufferData
  rw [if_neg (by simp [front_any_eq_false hfront])]
  rw [if_pos h0.symm, if_pos h0.symm, ite_self]

/-- Invariant of a window that keeps the current time: the table covers the rows
pushed so far, newest first, and nothing waits in the buffer. -/
structure PlainInv (w : HistoryWindow Row) (range : WindowRange) (hist : List (Entry Row))
    (key : Nat) : Prop where
  windowRange_eq : w.windowRange = range
  exclude_eq : w.excludeCurrentTime = false
  buffer_eq : w.currentHistoryBuffer = []
  covers : Covers (range.keepAt key) w.table hist
  sorted : hist.Pairwise KeyDesc
  le_key : ∀ e ∈ hist, e.1 ≤ key

theorem PlainInv.new (range : WindowRange) (inw : Bool) :
    PlainInv (HistoryWindow.new range false inw : HistoryWindow Row) range [] 0 where
  windowRange_eq := rfl
  exclude_eq := rfl
  buffer_eq := rfl
  covers := Covers.refl _ []
  sorted := List.Pairwise.nil
  le_key := by simp

section Plain

variable {w : HistoryWindow Row} {range : WindowRange} {hist : List (Entry Row)}
  {key key' : Nat} {row : Row}

/-- A pushed row: the table is the frame's cut of the whole history. -/
theorem PlainInv.bufferData_table (h : PlainInv w range hist key) (hr : range.EndsAtCurrent)
    (hk : key ≤ key') (hk' : key' < 2 ^ 63) :
    (w.bufferData key' row).2.table = takeIdxWhile (range.keepAt key') 0 ((key', row) :: hist) := by
  have hmem : ∀ e ∈ w.table, e.1 ≤ key' := fun e he =>
    Nat.le_trans (h.le_key e (h.covers.isPrefix.subset he)) hk
  rw [bufferData_eq (by rw [h.windowRange_eq, hr.endOffset_eq]) row hmem]
  dsimp only [bufferCurrentTimeBuffer]
  rw [h.exclude_eq, if_pos (by simp)]
  have hsorted : ((key', row) :: w.table).Pairwise KeyDesc :=
    pairwise_cons.mpr ⟨hmem, h.sorted.sublist h.covers.isPrefix.sublist⟩
  rw [bufferEffectiveWindow_table w _ hsorted, h.windowRange_eq]
  exact (hr.covers_mono hk hk' h.covers).takeIdxWhile_cons _

/-- Pushing a row keeps the invariant and is accepted. -/
theorem PlainInv.bufferData (h : PlainInv w range hist key) (hr : range.EndsAtCurrent)
    (hk : key ≤ key') (hk' : key' < 2 ^ 63) :
    (w.bufferData key' row).1 = true ∧
      PlainInv (w.bufferData key' row).2 range ((key', row) :: hist) key' := by
  have hmem : ∀ e ∈ w.table, e.1 ≤ key' := fun e he =>
    Nat.le_trans (h.le_key e (h.covers.isPrefix.subset he)) hk
  have htable := @bufferData_table _ _ _ _ _ _ row h hr hk hk'
  rw [bufferData_eq (by rw [h.windowRange_eq, hr.endOffset_eq]) row hmem] at htable ⊢
  refine ⟨rfl, ?_⟩
  dsimp only [bufferCurrentTimeBuffer] at htable ⊢
  rw [h.exclude_eq] at htable ⊢
  refine ⟨h.windowRange_eq, h.exclude_eq, h.buffer_eq, ?_, ?_, ?_⟩
  · rw [htable]
    exact covers_takeIdxWhile (range.keepAt_pred key')
  · exact pairwise_cons.mpr ⟨fun e he => Nat.le_trans (h.le_key e he) hk, h.sorted⟩
  · intro e he
    rcases mem_cons.mp he with rfl | he
    · exact Nat.le_refl _
    · exact Nat.le_trans (h.le_key e he) hk

/-- Popping the row just pushed leaves a table that covers the rows before it. -/
theorem PlainInv.dropFront (h : PlainInv w range ((key, row) :: hist) key)
    (htable : w.table = takeIdxWhile (range.keepAt key) 0 ((key, row) :: hist)) :
    PlainInv w.dropFront range hist key := by
  have hsorted := pairwise_cons.mp h.sorted
  have hpop : w.dropFront = { w with table := w.table.tail } := by
    unfold HistoryWindow.dropFront
    rw [if_pos (by rw [h.buffer_eq]; rfl)]
  rw [hpop]
  refine ⟨h.windowRange_eq, h.exclude_eq, h.buffer_eq, ?_, hsorted.2, ?_⟩
  · rw [htable, tail_takeIdxWhile (range.keepAt_antitone key) hsorted.1]
    exact covers_takeIdxWhile_one _ _
  · exact fun e he => h.le_key e (mem_cons_of_mem _ he)

end Plain

/-! ### Runs with `exclude_current_time_` -/

/-- The buffer's rows up to `end_ts` move into the table, which is cut by the
frame test if there are any; the rest waits. -/
theorem drainHistoryBuffer_spec (endTs startTs : Nat) (waiting drained : List (Entry Row)) :
    ∀ (w : HistoryWindow Row) (past : List (Entry Row)),
      w.currentHistoryBuffer = waiting ++ drained →
      (∀ e ∈ waiting, endTs < e.1) → (∀ e ∈ drained, e.1 ≤ endTs) →
      (drained ++ past).Pairwise KeyDesc →
      Covers (frameKeep w.windowRange w.windowRange.rowsLimit startTs) w.table past →
      ∃ table, drainHistoryBuffer endTs startTs (waiting ++ drained).length w =
          { w with table := table, currentHistoryBuffer := waiting } ∧
        Covers (frameKeep w.windowRange w.windowRange.rowsLimit startTs) table
          (drained ++ past) ∧
        ((drained = [] ∧ table = w.table) ∨
          table = takeIdxWhile (frameKeep w.windowRange w.windowRange.rowsLimit startTs) 0
            (drained ++ past)) := by
  -- the loop takes the buffer's last row, so the induction is from the back
  induction drained using List.reverseRecOn with
  | nil =>
    intro w past hbuf hwait _ _ hc
    rw [append_nil] at hbuf ⊢
    subst hbuf
    refine ⟨w.table, ?_, hc, Or.inl ⟨rfl, rfl⟩⟩
    cases hl : w.currentHistoryBuffer.getLast? with
    | none =>
      rw [length_eq_zero_iff.mpr (getLast?_eq_none_iff.mp hl)]
      rfl
    | some back =>
      have hmem := mem_of_getLast? hl
      obtain ⟨n, hn⟩ := Nat.exists_eq_succ_of_ne_zero
        (length_pos_of_mem hmem).ne'
      rw [hn, drainHistoryBuffer, hl]
      exact if_pos (hwait back hmem)
  | append_singleton drained back ih =>
    intro w past hbuf hwait hdrain hsorted hc
    rw [← append_assoc] at hbuf ⊢
    have hlast : w.currentHistoryBuffer.getLast? = some back := by
      rw [hbuf, getLast?_concat]
    have hback : ¬ endTs < back.1 := Nat.not_lt.mpr (hdrain back (by simp))
    rw [append_assoc] at hsorted
    have hpast := pairwise_cons.mp (pairwise_append.mp hsorted).2.1
    have hnew : ((back.1, back.2) :: w.table).Pairwise KeyDesc :=
      pairwise_cons.mpr ⟨fun e he => hpast.1 e (hc.isPrefix.subset he),
        hpast.2.sublist hc.isPrefix.sublist⟩
    have hcut : (w.bufferEffectiveWindow back.1 back.2 startTs).table =
        takeIdxWhile (frameKeep w.windowRange w.windowRange.rowsLimit startTs) 0
          (back :: past) := by
      rw [bufferEffectiveWindow_table w startTs hnew, hc.takeIdxWhile_cons]
    have hcov : Covers (frameKeep w.windowRange w.windowRange.rowsLimit startTs)
        (w.bufferEffectiveWindow back.1 back.2 startTs).table (back :: past) := by
      rw [hcut]
      exact covers_takeIdxWhile fun d x hx =>
        frameKeep_antitone _ _ _ d (d + 1) x x (Nat.le_succ d) (keyDesc_refl x) hx
    obtain ⟨table, hrun, htable, hlast_cut⟩ :=
      ih { w.bufferEffectiveWindow back.1 back.2 startTs with
            currentHistoryBuffer := w.currentHistoryBuffer.dropLast } (back :: past)
        (by rw [hbuf, dropLast_concat]) hwait
        (fun e he => hdrain e (mem_append_left _ he)) hsorted hcov
    rw [append_assoc drained]
    refine ⟨table, ?_, htable, Or.inr ?_⟩
    rotate_left
    · rcases hlast_cut with ⟨rfl, htable_eq⟩ | htable_eq
      · exact htable_eq.trans hcut
      · exact htable_eq
    rw [length_append, length_singleton, drainHistoryBuffer, hlast]
    dsimp only
    rw [if_neg hback, hrun]
    rfl

/-- Invariant of a window that excludes the current time. The rows pushed so far
are `buffered ++ past`, newest first. The table's front is the current row; the
rest covers `past`. The rows of the current key wait in the buffer, unless that
key is zero: then they were drained at once. -/
structure ExcludeInv (w : HistoryWindow Row) (range : WindowRange)
    (buffered past : List (Entry Row)) (key : Nat) : Prop where
  windowRange_eq : w.windowRange = range
  exclude_eq : w.excludeCurrentTime = true
  buffer_eq : w.currentHistoryBuffer = buffered
  covers : Covers (range.keepAt key) w.table.tail past
  table_le : ∀ e ∈ w.table, e.1 ≤ key
  sorted : past.Pairwise KeyDesc
  buffered_key : ∀ e ∈ buffered, e.1 = key ∧ 0 < key
  past_key : ∀ e ∈ past, e.1 < key ∨ key = 0 ∧ e.1 = 0

theorem ExcludeInv.new (range : WindowRange) (inw : Bool) :
    ExcludeInv (HistoryWindow.new range true inw : HistoryWindow Row) range [] [] 0 where
  windowRange_eq := rfl
  exclude_eq := rfl
  buffer_eq := rfl
  covers := Covers.refl _ []
  table_le := by simp [HistoryWindow.new]
  sorted := List.Pairwise.nil
  buffered_key := by simp
  past_key := by simp

theorem popEffectiveData_eq (w : HistoryWindow Row) :
    w.popEffectiveData = { w with table := w.table.tail } := by
  unfold popEffectiveData
  split
  · next h => rw [List.isEmpty_iff.mp h, tail_nil, ← List.isEmpty_iff.mp h]
  · rfl

/-- The drain bound `key - 1` lets exactly the older rows through, except at key
zero, where it wraps and lets everything through. -/
theorem lt_drainBound_iff {x} (hk : key < 2 ^ 63) (hx : x ≤ key) :
    toUInt64 ((key : Int) - 1) < x ↔ x = key ∧ 0 < key := by
  unfold toUInt64
  omega

section Exclude

variable {w : HistoryWindow Row} {range : WindowRange} {buffered past : List (Entry Row)}
  {key key' : Nat} {row : Row}

variable {waiting drained : List (Entry Row)}

/-- One push into a window that excludes the current time, once it is known which rows stay
in the buffer (`waiting`) and which are drained. -/
theorem bufferData_of_split (h0 : w.windowRange.endOffset = 0)
    (hexclude : w.excludeCurrentTime = true) (hle : ∀ e ∈ w.table, e.1 ≤ key)
    (hsplit : (key, row) :: w.currentHistoryBuffer = waiting ++ drained)
    (hwait : ∀ e ∈ waiting, toUInt64 ((key : Int) - 1) < e.1)
    (hdrain : ∀ e ∈ drained, e.1 ≤ toUInt64 ((key : Int) - 1))
    (hpast : ∀ e ∈ drained ++ past, e.1 ≤ key) (hsorted : (drained ++ past).Pairwise KeyDesc)
    (hcov : Covers (w.windowRange.keepAt key) w.table.tail past) :
    w.bufferData key row = (true, { w with
      table := takeIdxWhile (w.windowRange.keepAt key) 0 ((key, row) :: (drained ++ past))
      currentHistoryBuffer := waiting }) := by
  obtain ⟨table, hrun, hcov, -⟩ := drainHistoryBuffer_spec
    (toUInt64 ((key : Int) - 1)) (clampTs key w.windowRange.startOffset) waiting drained
    { w with table := w.table.tail, currentHistoryBuffer := (key, row) :: w.currentHistoryBuffer }
    past hsplit hwait hdrain hsorted hcov
  have hnew : ((key, row) :: table).Pairwise KeyDesc :=
    pairwise_cons.mpr ⟨fun e he => hpast e (hcov.isPrefix.subset he),
      hsorted.sublist hcov.isPrefix.sublist⟩
  have hdata : w.bufferData key row = (true,
      ({ w with table := table, currentHistoryBuffer := waiting } :
        HistoryWindow Row).bufferEffectiveWindow key row (clampTs key w.windowRange.startOffset)) := by
    rw [bufferData_eq h0 row hle]
    dsimp only [bufferCurrentTimeBuffer, bufferCurrentHistoryBuffer]
    rw [if_neg (by rw [hexclude]; simp), popEffectiveData_eq]
    rw [← hsplit] at hrun
    rw [hrun]
  have htable := bufferEffectiveWindow_table
    ({ w with table := table, currentHistoryBuffer := waiting } : HistoryWindow Row)
    (clampTs key w.windowRange.startOffset) hnew
  rw [hcov.takeIdxWhile_cons] at htable
  rw [hdata]
  unfold WindowRange.keepAt
  rw [← htable]
  rfl

theorem ExcludeInv.bufferData_of_split (h : ExcludeInv w range buffered past key)
    (hr : range.EndsAtCurrent) (hk : key ≤ key') (hk' : key' < 2 ^ 63)
    (hsplit : (key', row) :: buffered = waiting ++ drained)
    (hwait : ∀ e ∈ waiting, e.1 = key' ∧ 0 < key')
    (hdrain : ∀ e ∈ drained, e.1 < key' ∨ key' = 0 ∧ e.1 = 0)
    (hsorted : (drained ++ past).Pairwise KeyDesc) :
    (w.bufferData key' row).2.table =
        takeIdxWhile (range.keepAt key') 0 ((key', row) :: (drained ++ past)) ∧
      ExcludeInv (w.bufferData key' row).2 range waiting (drained ++ past) key' := by
  have hpast : ∀ e ∈ drained ++ past, e.1 < key' ∨ key' = 0 ∧ e.1 = 0 := by
    intro e he
    rcases mem_append.mp he with he | he
    · exact hdrain e he
    · have := h.past_key e he
      omega
  have hle : ∀ e ∈ drained ++ past, e.1 ≤ key' := fun e he => by
    have := hpast e he
    omega
  have hdata := HistoryWindow.bufferData_of_split
    (by rw [h.windowRange_eq, hr.endOffset_eq]) h.exclude_eq
    (fun e he => Nat.le_trans (h.table_le e he) hk) (h.buffer_eq ▸ hsplit)
    (fun e he => (lt_drainBound_iff hk' (hwait e he).1.le).mpr (hwait e he))
    (fun e he => Nat.not_lt.mp fun hlt => by
      have := (lt_drainBound_iff hk' (hle e (mem_append_left _ he))).mp hlt
      have := hdrain e he
      omega)
    hle hsorted (h.windowRange_eq ▸ hr.covers_mono hk hk' h.covers)
  rw [hdata, h.windowRange_eq]
  refine ⟨rfl, ?_⟩
  refine ⟨rfl, h.exclude_eq, rfl, ?_, ?_, hsorted, hwait, hpast⟩
  · rw [tail_takeIdxWhile (range.keepAt_antitone key') hle]
    exact covers_takeIdxWhile_one _ _
  · intro e he
    rcases mem_cons.mp ((takeIdxWhile_isPrefix _ _ _).subset he) with rfl | he
    · exact Nat.le_refl _
    · exact hle e he

/-- One push: the table is the frame's cut of the current row in front of the
rows that are now past. -/
theorem ExcludeInv.bufferData (h : ExcludeInv w range buffered past key)
    (hr : range.EndsAtCurrent) (hk : key ≤ key') (hk' : key' < 2 ^ 63) :
    ∃ waiting drained, (key', row) :: buffered = waiting ++ drained ∧
      (w.bufferData key' row).2.table =
        takeIdxWhile (range.keepAt key') 0 ((key', row) :: (drained ++ past)) ∧
      ExcludeInv (w.bufferData key' row).2 range waiting (drained ++ past) key' := by
  rcases Nat.eq_zero_or_pos key' with hzero | hpos
  · -- key zero: the new row is drained too
    have hempty : buffered = [] := eq_nil_iff_forall_not_mem.mpr fun e he => by
      have := h.buffered_key e he
      omega
    refine ⟨[], [(key', row)], by rw [hempty]; rfl, ?_⟩
    refine h.bufferData_of_split hr hk hk' (by rw [hempty]; rfl) (by simp)
      (by simp [hzero]) ?_
    refine pairwise_cons.mpr ⟨fun e he => ?_, h.sorted⟩
    have := h.past_key e he
    show e.1 ≤ key'
    omega
  · rcases Nat.lt_or_eq_of_le hk with hlt | heq
    · -- the clock moved: the rows of the last key are drained
      refine ⟨[(key', row)], buffered, rfl, ?_⟩
      refine h.bufferData_of_split hr hk hk' rfl (by simpa using hpos) ?_ ?_
      · intro e he
        have := h.buffered_key e he
        omega
      · refine pairwise_append.mpr ⟨?_, h.sorted, ?_⟩
        · refine pairwise_of_forall_mem_list fun x hx y hy => ?_
          exact ((h.buffered_key y hy).1.trans (h.buffered_key x hx).1.symm).le
        · intro x hx y hy
          have := h.buffered_key x hx
          have := h.past_key y hy
          show y.1 ≤ x.1
          omega
    · -- the same key again: it waits with the others
      refine ⟨(key', row) :: buffered, [], by simp, ?_⟩
      refine h.bufferData_of_split hr hk hk' (by simp) ?_ (by simp) h.sorted
      intro e he
      rcases mem_cons.mp he with rfl | he
      · exact ⟨rfl, hpos⟩
      · rw [← heq]
        exact h.buffered_key e he

/-- The past rows, read off the history: those before the current key, and all
of them when that key is zero. -/
theorem ExcludeInv.past_eq (h : ExcludeInv w range buffered past key) :
    past = if key = 0 then buffered ++ past
      else (buffered ++ past).filter fun e => decide (e.1 < key) := by
  split
  · next hzero =>
      have hempty : buffered = [] := eq_nil_iff_forall_not_mem.mpr fun e he => by
        have := h.buffered_key e he
        omega
      rw [hempty, nil_append]
  · next hpos =>
      have hbuf : buffered.filter (fun e => decide (e.1 < key)) = [] :=
        filter_eq_nil_iff.mpr fun e he => by
          have := (h.buffered_key e he).1
          simp [this]
      have hpast : past.filter (fun e => decide (e.1 < key)) = past :=
        filter_eq_self.mpr fun e he => by
          have := h.past_key e he
          simp only [decide_eq_true_eq]
          omega
      rw [filter_append, hbuf, hpast, nil_append]

/-- Popping the row just pushed, once the push is split as in
`ExcludeInv.bufferData`. -/
theorem ExcludeInv.dropFront_of_split (h : ExcludeInv w range waiting (drained ++ past) key)
    (hsplit : (key, row) :: buffered = waiting ++ drained)
    (htable : w.table = takeIdxWhile (range.keepAt key) 0 ((key, row) :: (drained ++ past)))
    (hzero : key = 0 → buffered ++ past = []) :
    ∃ buffered' past', buffered' ++ past' = buffered ++ past ∧
      ExcludeInv w.dropFront range buffered' past' key := by
  cases waiting with
  | cons e waiting =>
    -- the row waits in the buffer and is popped there
    obtain ⟨rfl, rfl⟩ := cons_eq_cons.mp hsplit
    have hpop : w.dropFront = { w with currentHistoryBuffer := waiting } := by
      simp [HistoryWindow.dropFront, h.buffer_eq, tail_cons]
    refine ⟨waiting, drained ++ past, (append_assoc _ _ _).symm, ?_⟩
    rw [hpop]
    exact ⟨h.windowRange_eq, h.exclude_eq, rfl, h.covers, h.table_le, h.sorted,
      fun e he => h.buffered_key e (mem_cons_of_mem _ he), h.past_key⟩
  | nil =>
    -- it was drained, so its key is zero and there is no other row
    subst hsplit
    have hkey : key = 0 := by
      have := h.past_key (key, row) (by simp)
      omega
    obtain ⟨rfl, rfl⟩ := append_eq_nil_iff.mp (hzero hkey)
    have hpop : w.dropFront = { w with table := w.table.tail } := by
      unfold HistoryWindow.dropFront
      rw [if_pos (by rw [h.buffer_eq]; rfl)]
    refine ⟨[], [], rfl, ?_⟩
    rw [hpop]
    refine ⟨h.windowRange_eq, h.exclude_eq, h.buffer_eq, ?_,
      fun e he => h.table_le e (mem_of_mem_tail he), List.Pairwise.nil, by simp, by simp⟩
    have htail : w.table.tail.tail = [] := by
      have hlen := (takeIdxWhile_isPrefix (range.keepAt key) 0
        ((key, row) :: ([(key, row)] ++ []))).length_le
      rw [← htable] at hlen
      refine length_eq_zero_iff.mp ?_
      simp only [length_tail]
      simp only [length_cons, length_append, length_nil] at hlen
      omega
    rw [htail]
    exact Covers.refl _ []

end Exclude

/-! ### Whole runs -/

/-- The rows behind the current row `(key, row)` that batch mode looks at. With
`exclude_current_time_` these are the rows of earlier keys; at key zero the
drain bound wraps and the current row itself and its contemporaries are among
them. -/
def batchPast (excludeCurrentTime : Bool) (key : Nat) (row : Row) (hist : List (Entry Row)) :
    List (Entry Row) :=
  if excludeCurrentTime then
    if key = 0 then (key, row) :: hist else hist.filter fun e => decide (e.1 < key)
  else hist

/-- What holds between two calls, for both values of `exclude_current_time_`:
`hist` are the rows pushed and not popped again, newest first, and `key` is the
last key. -/
def RunInv (w : HistoryWindow Row) (range : WindowRange) (excludeCurrentTime : Bool)
    (hist : List (Entry Row)) (key : Nat) : Prop :=
  match excludeCurrentTime with
  | false => PlainInv w range hist key
  | true => ∃ buffered past, buffered ++ past = hist ∧ ExcludeInv w range buffered past key

theorem RunInv.new (range : WindowRange) (excludeCurrentTime inw : Bool) :
    RunInv (HistoryWindow.new range excludeCurrentTime inw : HistoryWindow Row) range
      excludeCurrentTime [] 0 := by
  cases excludeCurrentTime with
  | false => exact PlainInv.new range inw
  | true => exact ⟨[], [], rfl, ExcludeInv.new range inw⟩

section Runs

variable {w : HistoryWindow Row} {range : WindowRange} {excludeCurrentTime : Bool}
  {hist : List (Entry Row)} {key key' : Nat} {row : Row}

/-- A push: the table is the frame's cut of the current row and the rows behind
it. -/
theorem RunInv.bufferData_table (h : RunInv w range excludeCurrentTime hist key)
    (hr : range.EndsAtCurrent) (hk : key ≤ key') (hk' : key' < 2 ^ 63) :
    (w.bufferData key' row).2.table =
      takeIdxWhile (range.keepAt key') 0
        ((key', row) :: batchPast excludeCurrentTime key' row hist) := by
  cases excludeCurrentTime with
  | false => exact PlainInv.bufferData_table h hr hk hk'
  | true =>
    obtain ⟨buffered, past, rfl, hinv⟩ := h
    obtain ⟨waiting, drained, hsplit, htable, hinv'⟩ :=
      @ExcludeInv.bufferData _ _ _ _ _ _ _ row hinv hr hk hk'
    have hpast := hinv'.past_eq
    rw [← append_assoc, ← hsplit] at hpast
    rw [htable, hpast]
    -- the current row itself is filtered out when the key is positive
    simp [batchPast]

theorem RunInv.bufferData (h : RunInv w range excludeCurrentTime hist key)
    (hr : range.EndsAtCurrent) (hk : key ≤ key') (hk' : key' < 2 ^ 63) :
    RunInv (w.bufferData key' row).2 range excludeCurrentTime ((key', row) :: hist) key' := by
  cases excludeCurrentTime with
  | false => exact (PlainInv.bufferData h hr hk hk').2
  | true =>
    obtain ⟨buffered, past, rfl, hinv⟩ := h
    obtain ⟨waiting, drained, hsplit, -, hinv'⟩ :=
      @ExcludeInv.bufferData _ _ _ _ _ _ _ row hinv hr hk hk'
    refine ⟨waiting, drained ++ past, ?_, hinv'⟩
    rw [← append_assoc, ← hsplit, cons_append]

/-- `PopFrontData` takes back the row just pushed. At key zero with
`exclude_current_time_` there is a second copy of that row, whose place an older
row may have lost; so there the run must not have older rows. -/
theorem RunInv.dropFront (h : RunInv w range excludeCurrentTime hist key)
    (hr : range.EndsAtCurrent) (hk : key ≤ key') (hk' : key' < 2 ^ 63)
    (hzero : key' = 0 → hist = []) :
    RunInv (w.bufferData key' row).2.dropFront range excludeCurrentTime hist key' := by
  cases excludeCurrentTime with
  | false =>
    exact PlainInv.dropFront (PlainInv.bufferData h hr hk hk').2
      (PlainInv.bufferData_table h hr hk hk')
  | true =>
    obtain ⟨buffered, past, rfl, hinv⟩ := h
    obtain ⟨waiting, drained, hsplit, htable, hinv'⟩ :=
      @ExcludeInv.bufferData _ _ _ _ _ _ _ row hinv hr hk hk'
    exact hinv'.dropFront_of_split hsplit htable hzero

/-- The window accepts rows in the order of their keys. -/
theorem RunInv.bufferData_fst (h : RunInv w range excludeCurrentTime hist key)
    (hr : range.EndsAtCurrent) (hk : key ≤ key') : (w.bufferData key' row).1 = true := by
  have hdata : w.windowRange = range ∧ ∀ e ∈ w.table, e.1 ≤ key := by
    cases excludeCurrentTime with
    | false =>
      exact ⟨h.windowRange_eq, fun e he => h.le_key e (h.covers.isPrefix.subset he)⟩
    | true =>
      obtain ⟨buffered, past, -, hinv⟩ := h
      exact ⟨hinv.windowRange_eq, hinv.table_le⟩
  rw [bufferData_eq (by rw [hdata.1, hr.endOffset_eq]) row
    fun e he => Nat.le_trans (hdata.2 e he) hk]

/-- A run of pushes keeps the invariant. -/
theorem RunInv.bufferAll (h : RunInv w range excludeCurrentTime hist key) (hr : range.EndsAtCurrent)
    {rows} (hasc : rows.Pairwise fun x y => x.1 ≤ y.1) (hge : ∀ e ∈ rows, key ≤ e.1)
    (hle : ∀ e ∈ rows, e.1 ≤ key') (hk : key ≤ key') (hk' : key' < 2 ^ 63) :
    ∃ last ≤ key', RunInv (w.bufferAll rows) range excludeCurrentTime (rows.reverse ++ hist)
      last := by
  induction rows generalizing w hist key with
  | nil => exact ⟨key, hk, h⟩
  | cons e rows ih =>
    obtain ⟨he, hrows⟩ := pairwise_cons.mp hasc
    have hek : e.1 ≤ key' := hle e mem_cons_self
    have hpush := @RunInv.bufferData _ _ _ _ _ _ e.1 e.2 h hr (hge e mem_cons_self)
      (Nat.lt_of_le_of_lt hek hk')
    rw [reverse_cons, append_assoc]
    exact ih hpush hrows he (fun x hx => hle x (mem_cons_of_mem _ hx)) hek

/-- Every run: what the table holds when the last row `(key, row)` was pushed. -/
theorem bufferAll_table (hr : range.EndsAtCurrent) (inw : Bool) (history : List (Entry Row))
    (hasc : (history ++ [(key, row)]).Pairwise fun x y => x.1 ≤ y.1) (hk : key < 2 ^ 63) :
    ((HistoryWindow.new range excludeCurrentTime inw).bufferAll (history ++ [(key, row)])).table =
      takeIdxWhile (range.keepAt key) 0
        ((key, row) :: batchPast excludeCurrentTime key row history.reverse) := by
  obtain ⟨hsorted, -, hle⟩ := pairwise_append.mp hasc
  obtain ⟨last, hlast, hinv⟩ := (RunInv.new range excludeCurrentTime inw).bufferAll hr hsorted
    (fun _ _ => Nat.zero_le _) (fun e he => hle e he (key, row) mem_cons_self)
    (Nat.zero_le key) hk
  simpa [bufferAll, append_nil, foldl_append] using hinv.bufferData_table hr hlast hk

end Runs

end HistoryWindow

end HybridSE.Vm
