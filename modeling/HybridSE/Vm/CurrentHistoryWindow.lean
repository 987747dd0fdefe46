import HybridSE.Vm.WindowConsistency

/-!
# HybridSE.Vm.CurrentHistoryWindow

`CurrentHistoryWindow` of `include/vm/mem_catalog.h`, against its base class.

The subclass has the fields of `HistoryWindow` and overrides `BufferData` and
`PopFrontData`. With `end_offset_ = 0` the two versions of `BufferData` are the same
function (`bufferData_eq_base`). `PopFrontData` always pops the table, although the pending
buffer is not empty while the current time is excluded: the base class pops the row from
the buffer and leaves the table as it is. So the windows part at the first row that is
popped with a positive key (`dropFront_table_ne`). Where the row limit of a rows frame wraps,
no row stays in the table, and the subclass pops an empty one. `currentHistoryWindow_same_iff`
says that there is no other way for the windows to part.
-/

namespace HybridSE.Vm

open HybridSE.Lib List Option

variable {Row : Type*}

/-! ### The subclass -/

namespace CurrentHistoryWindow

/-- `CurrentHistoryWindow::PopFrontData`; there is no result for an empty table. -/
def popFrontData (w : HistoryWindow Row) : Option (HistoryWindow Row) :=
  if w.table.isEmpty then none else some { w with table := w.table.tail }

/-- `CurrentHistoryWindow::BufferData`. -/
def bufferData (w : HistoryWindow Row) (key : Nat) (row : Row) : Bool × HistoryWindow Row :=
  if w.table.head?.any (fun front => decide (key < front.1)) then (false, w)
  else
    let startTs := clampTs key w.windowRange.startOffset
    if w.excludeCurrentTime then (true, w.bufferCurrentTimeBuffer key row startTs)
    else (true, w.bufferEffectiveWindow key row startTs)

end CurrentHistoryWindow

/-- An operation on a window: a row is pushed, and popped again or not. -/
structure WindowCall (Row : Type*) where
  key : Nat
  row : Row
  pops : Bool

/-- An operation with given versions of `BufferData` and `PopFrontData`: the result of
`BufferData`, and the window. -/
def WindowCall.run (bufferData : HistoryWindow Row → Nat → Row → Bool × HistoryWindow Row)
    (popFrontData : HistoryWindow Row → Option (HistoryWindow Row)) (c : WindowCall Row)
    (w : HistoryWindow Row) : Option (Bool × HistoryWindow Row) :=
  let pushed := bufferData w c.key c.row
  if c.pops then (popFrontData pushed.2).map (Prod.mk pushed.1) else some pushed

/-- What is seen of a run: the results and the tables. -/
def observe (run : WindowCall Row → HistoryWindow Row → Option (Bool × HistoryWindow Row)) :
    HistoryWindow Row → List (WindowCall Row) → Option (List (Bool × List (Entry Row)))
  | _, [] => some []
  | w, c :: calls =>
    (run c w).bind fun after =>
      (observe run after.2 calls).map (List.cons (after.1, after.2.table))

/-- An operation on a `HistoryWindow`. -/
def HistoryWindow.call : WindowCall Row → HistoryWindow Row → Option (Bool × HistoryWindow Row) :=
  WindowCall.run bufferData popFrontData

/-- An operation on a `CurrentHistoryWindow`. -/
def CurrentHistoryWindow.call :
    WindowCall Row → HistoryWindow Row → Option (Bool × HistoryWindow Row) :=
  WindowCall.run bufferData popFrontData

/-- An operation on a `HistoryWindow` whose pop finds a row. -/
def HistoryWindow.pushPop (c : WindowCall Row) (w : HistoryWindow Row) :
    Bool × HistoryWindow Row :=
  let pushed := w.bufferData c.key c.row
  (pushed.1, if c.pops then pushed.2.dropFront else pushed.2)

/-! ### The front row -/

variable {α : Type*}

/-- The loop leaves the front element alone if it is not to be dropped. -/
theorem exists_popBackWhile_cons {drop x} (h : drop 1 x = false) (xs : List α) :
    ∃ ys, popBackWhile drop (x :: xs).length (x :: xs) = x :: ys ∧ ys <+: xs := by
  induction xs using List.reverseRecOn with
  | nil => exact ⟨[], by simp [popBackWhile, h], prefix_rfl⟩
  | append_singleton xs z ih =>
    obtain ⟨ys, hys, hpre⟩ := ih
    rw [← cons_append, length_append, length_singleton, popBackWhile,
      getLast?_concat]
    dsimp only
    split
    · rw [dropLast_concat]
      exact ⟨ys, hys, hpre.trans (prefix_append _ _)⟩
    · exact ⟨xs ++ [z], rfl, prefix_rfl⟩

theorem popBackWhile_isPrefix (drop : Nat → α → Bool) (n : Nat) (xs : List α) :
    popBackWhile drop n xs <+: xs := by
  induction n generalizing xs with
  | zero => exact prefix_rfl
  | succ n ih =>
    rw [popBackWhile]
    split
    · exact prefix_rfl
    · split
      · exact (ih _).trans (List.dropLast_prefix xs)
      · exact prefix_rfl

/-- For every `uint64_t` key the window start is not after the current row. -/
theorem clampTs_le_key {key offset} (hk : IsUInt64 key) (ho : IsInt64 offset) (h0 : offset ≤ 0) :
    clampTs key offset ≤ key := by
  obtain ⟨hlo, -⟩ := ho
  unfold IsUInt64 at hk
  unfold clampTs toInt64
  rw [Int.bmod_def]
  dsimp only
  split <;> split <;> omega

theorem popBackWhile_eq_nil {drop} (h : ∀ n x, drop (n + 1) x = true) (xs : List α) :
    popBackWhile drop xs.length xs = [] := by
  induction xs using List.reverseRecOn with
  | nil => rfl
  | append_singleton xs z ih =>
    rw [length_append, length_singleton, popBackWhile, getLast?_concat]
    dsimp only
    rw [if_pos (h _ _), dropLast_concat, ih]

namespace HistoryWindow

variable {w : HistoryWindow Row} {range : WindowRange} {key key' : Nat} {row : Row}

theorem exists_evictMaxSize_cons (range : WindowRange) (x : Entry Row) (xs : List (Entry Row)) :
    ∃ ys, evictMaxSize range (x :: xs) = x :: ys ∧ ys <+: xs := by
  refine exists_popBackWhile_cons ?_ xs
  rw [Bool.and_eq_false_iff, decide_eq_false_iff_not, decide_eq_false_iff_not]
  omega

variable {startTs : Nat}

/-- The new row is not too old, and the row limit has room for it unless it wraps. -/
theorem exists_slideWindow_cons {x} (hstart : startTs ≤ x.1)
    (hrows : range.frameType = .kFrameRows → range.startRow + 1 < 2 ^ 64) (xs : List (Entry Row)) :
    ∃ ys, slideWindow range startTs (x :: xs) = x :: ys ∧ ys <+: xs := by
  refine exists_popBackWhile_cons ?_ xs
  have hold : ¬ x.1 < startTs := Nat.not_lt.mpr hstart
  cases hf : range.frameType with
  | kFrameRows =>
    have hlimit := range.rowsLimit_eq
    rw [if_neg (Nat.ne_of_lt (hrows hf)), WindowRange.rowsLimit] at hlimit
    simp [WindowRange.isRowsLike, hf, hlimit]
  | kFrameRowsRange => simp [WindowRange.isRowsLike, hf, hold]
  | kFrameRowsMergeRowsRange => simp [hold]

/-- The new row stays in front, unless a rows frame has the wrapped row limit. -/
theorem exists_bufferEffectiveWindow_cons (row : Row) (hstart : startTs ≤ key)
    (hrows : w.windowRange.frameType = .kFrameRows → w.windowRange.startRow + 1 < 2 ^ 64) :
    ∃ older, (w.bufferEffectiveWindow key row startTs).table = (key, row) :: older := by
  obtain ⟨kept, hkept, -⟩ := exists_evictMaxSize_cons w.windowRange (key, row) w.table
  obtain ⟨older, holder, -⟩ := exists_slideWindow_cons (x := (key, row)) hstart hrows kept
  refine ⟨older, ?_⟩
  rw [← holder, ← hkept]
  rfl

/-- With the wrapped row limit a rows frame keeps no row. -/
theorem bufferEffectiveWindow_table_of_wrap (hf : w.windowRange.frameType = .kFrameRows)
    (hwrap : w.windowRange.startRow + 1 = 2 ^ 64) (key : Nat) (row : Row) (startTs : Nat) :
    (w.bufferEffectiveWindow key row startTs).table = [] := by
  have hlimit := w.windowRange.rowsLimit_eq
  rw [if_pos hwrap, WindowRange.rowsLimit] at hlimit
  refine popBackWhile_eq_nil (fun n x => ?_) _
  simp [hf, hlimit]

/-! ### The keys in a window -/

/-- No row of a window is after the last key. -/
structure KeysLe (w : HistoryWindow Row) (key : Nat) : Prop where
  table : ∀ e ∈ w.table, e.1 ≤ key
  buffer : ∀ e ∈ w.currentHistoryBuffer, e.1 ≤ key

theorem KeysLe.new (range : WindowRange) (excludeCurrentTime inw : Bool) (key : Nat) :
    KeysLe (HistoryWindow.new range excludeCurrentTime inw : HistoryWindow Row) key :=
  ⟨by simp [HistoryWindow.new], by simp [HistoryWindow.new]⟩

theorem KeysLe.mono (h : KeysLe w key) (hk : key ≤ key') : KeysLe w key' :=
  ⟨fun e he => (h.table e he).trans hk, fun e he => (h.buffer e he).trans hk⟩

theorem KeysLe.bufferEffectiveWindow (h : KeysLe w key) (hk : key' ≤ key) (row : Row)
    (startTs : Nat) : KeysLe (w.bufferEffectiveWindow key' row startTs) key := by
  refine ⟨fun e he => ?_, h.buffer⟩
  have hcut := (popBackWhile_isPrefix _ _ _).subset he
  rcases mem_cons.mp ((popBackWhile_isPrefix _ _ _).subset hcut) with rfl | he
  · exact hk
  · exact h.table e he

theorem KeysLe.drainHistoryBuffer (h : KeysLe w key) (endTs startTs n : Nat) :
    KeysLe (drainHistoryBuffer endTs startTs n w) key := by
  induction n generalizing w with
  | zero => exact h
  | succ n ih =>
    rw [HistoryWindow.drainHistoryBuffer]
    split
    · exact h
    · next back hback =>
        split
        · exact h
        · have hmoved := h.bufferEffectiveWindow (h.buffer back (mem_of_getLast? hback))
            back.2 startTs
          exact ih ⟨hmoved.table, fun e he => h.buffer e ((dropLast_sublist _).subset he)⟩

theorem KeysLe.popEffectiveData (h : KeysLe w key) : KeysLe w.popEffectiveData key := by
  rw [popEffectiveData_eq]
  exact ⟨fun e he => h.table e (mem_of_mem_tail he), h.buffer⟩

theorem KeysLe.bufferCurrentTimeBuffer (h : KeysLe w key) (row : Row) (startTs : Nat) :
    KeysLe (w.bufferCurrentTimeBuffer key row startTs) key := by
  unfold HistoryWindow.bufferCurrentTimeBuffer bufferCurrentHistoryBuffer
  split
  · exact h.bufferEffectiveWindow (Nat.le_refl key) row startTs
  · have hpop := h.popEffectiveData
    have hpush : KeysLe { w.popEffectiveData with
        currentHistoryBuffer := (key, row) :: w.popEffectiveData.currentHistoryBuffer } key :=
      ⟨hpop.table, forall_mem_cons.mpr ⟨Nat.le_refl key, hpop.buffer⟩⟩
    exact (hpush.drainHistoryBuffer _ _ _).bufferEffectiveWindow (Nat.le_refl key) row startTs

theorem KeysLe.bufferData (h : KeysLe w key) (h0 : w.windowRange.endOffset = 0) (row : Row) :
    KeysLe (w.bufferData key row).2 key := by
  rw [bufferData_eq h0 row h.table]
  exact h.bufferCurrentTimeBuffer row _

theorem KeysLe.dropFront (h : KeysLe w key) : KeysLe w.dropFront key := by
  unfold HistoryWindow.dropFront
  split
  · exact ⟨fun e he => h.table e (mem_of_mem_tail he), h.buffer⟩
  · exact ⟨h.table, fun e he => h.buffer e (mem_of_mem_tail he)⟩

/-! ### The pending buffer -/

/-- Rows that are not after the bound all move into the table. -/
theorem drainHistoryBuffer_eq_nil {endTs n} (h : ∀ e ∈ w.currentHistoryBuffer, e.1 ≤ endTs)
    (hn : w.currentHistoryBuffer.length ≤ n) :
    (drainHistoryBuffer endTs startTs n w).currentHistoryBuffer = [] := by
  induction n generalizing w with
  | zero => exact length_eq_zero_iff.mp (Nat.le_zero.mp hn)
  | succ n ih =>
    rw [drainHistoryBuffer]
    split
    · next hlast => exact getLast?_eq_none_iff.mp hlast
    · next back hback =>
        rw [if_neg (Nat.not_lt.mpr (h back (mem_of_getLast? hback)))]
        refine ih (fun e he => h e ((dropLast_sublist _).subset he)) ?_
        simp only [length_dropLast]
        omega

/-- A front row that is after the bound stays. -/
theorem exists_drainHistoryBuffer_cons {endTs n x} (hx : endTs < x.1) {xs}
    (h : w.currentHistoryBuffer = x :: xs) :
    ∃ ys, (drainHistoryBuffer endTs startTs n w).currentHistoryBuffer = x :: ys := by
  induction n generalizing w xs with
  | zero => exact ⟨xs, h⟩
  | succ n ih =>
    rw [drainHistoryBuffer]
    split
    · exact ⟨xs, h⟩
    · next back hback =>
        split
        · exact ⟨xs, h⟩
        · next hle =>
            rcases eq_nil_or_concat xs with rfl | ⟨ys, y, rfl⟩
            · rw [h, getLast?_singleton, some_inj] at hback
              exact absurd (hback ▸ hx) hle
            · have hrest : w.currentHistoryBuffer.dropLast = x :: ys := by
                rw [h, concat_eq_append, ← cons_append, dropLast_concat]
              exact ih hrest

/-- At key zero the bound `key - 1` wraps, and no row waits. -/
theorem bufferCurrentTimeBuffer_buffer_zero (h : KeysLe w 0) (row : Row) (startTs : Nat)
    (hexclude : w.excludeCurrentTime = true) :
    (w.bufferCurrentTimeBuffer 0 row startTs).currentHistoryBuffer = [] := by
  unfold bufferCurrentTimeBuffer bufferCurrentHistoryBuffer
  rw [if_neg (by simp [hexclude])]
  refine drainHistoryBuffer_eq_nil (fun e he => ?_) (Nat.le_refl _)
  rcases mem_cons.mp he with rfl | he
  · exact Nat.zero_le _
  · exact (h.popEffectiveData.buffer e he).trans (Nat.zero_le _)

/-- At a positive key the current row waits in the buffer. -/
theorem exists_bufferCurrentTimeBuffer_buffer (hpos : 0 < key) (hk : IsUInt64 key) (row : Row)
    (startTs : Nat) (hexclude : w.excludeCurrentTime = true) :
    ∃ waiting, (w.bufferCurrentTimeBuffer key row startTs).currentHistoryBuffer =
      (key, row) :: waiting := by
  unfold bufferCurrentTimeBuffer bufferCurrentHistoryBuffer
  rw [if_neg (by simp [hexclude])]
  refine exists_drainHistoryBuffer_cons ?_ rfl
  unfold IsUInt64 at hk
  unfold toUInt64
  dsimp only
  omega

end HistoryWindow

/-! ### One operation -/

section Call

variable {w : HistoryWindow Row} {c : WindowCall Row}

theorem bufferData_eq_base (h0 : w.windowRange.endOffset = 0) (key : Nat) (row : Row) :
    CurrentHistoryWindow.bufferData w key row = w.bufferData key row := by
  unfold CurrentHistoryWindow.bufferData HistoryWindow.bufferData
    HistoryWindow.bufferCurrentTimeBuffer
  rw [if_pos h0.symm, if_pos h0.symm, ite_self]
  cases w.excludeCurrentTime <;> rfl

/-- Popping the table is right when nothing waits in the buffer. -/
theorem popFrontData_eq_base (h : w.currentHistoryBuffer = []) :
    CurrentHistoryWindow.popFrontData w = w.popFrontData := by
  simp [CurrentHistoryWindow.popFrontData, HistoryWindow.popFrontData, HistoryWindow.dropFront, h,
    isEmpty_nil]

/-- The base class pops a waiting row from the buffer. -/
theorem dropFront_table_ne (hbuffer : w.currentHistoryBuffer ≠ []) (htable : w.table ≠ []) :
    w.dropFront.table ≠ w.table.tail := by
  unfold HistoryWindow.dropFront
  rw [if_neg (by simpa using hbuffer)]
  intro h
  have hlen := congrArg List.length h
  have hpos := length_pos_iff.mpr htable
  simp only [length_tail] at hlen
  omega

theorem popFrontData_of_table (h : w.table ≠ []) : w.popFrontData = some w.dropFront := by
  simp [HistoryWindow.popFrontData, h]

/-- What holds of a window between two operations: no row is after the last key, and a row
waits in the buffer only if the current time is excluded. -/
structure CallInv (range : WindowRange) (excludeCurrentTime : Bool) (w : HistoryWindow Row)
    (last : Nat) : Prop where
  windowRange_eq : w.windowRange = range
  exclude_eq : w.excludeCurrentTime = excludeCurrentTime
  keys : w.KeysLe last
  buffer : excludeCurrentTime = false → w.currentHistoryBuffer = []

variable {range : WindowRange} {excludeCurrentTime : Bool} {last : Nat}

theorem CallInv.new (range : WindowRange) (excludeCurrentTime inw : Bool) :
    CallInv range excludeCurrentTime
      (HistoryWindow.new range excludeCurrentTime inw : HistoryWindow Row) 0 :=
  ⟨rfl, rfl, .new range excludeCurrentTime inw 0, fun _ => rfl⟩

/-- The push of an operation keeps the invariant. -/
theorem CallInv.bufferData (h : CallInv range excludeCurrentTime w last) (h0 : range.endOffset = 0)
    (hc : last ≤ c.key) : CallInv range excludeCurrentTime (w.bufferData c.key c.row).2 c.key := by
  obtain ⟨hrange, hexclude⟩ := HistoryWindow.sameSettings_bufferData w c.key c.row
  have hend : w.windowRange.endOffset = 0 := by rw [h.windowRange_eq, h0]
  refine ⟨hrange.trans h.windowRange_eq, hexclude.trans h.exclude_eq,
    (h.keys.mono hc).bufferData hend c.row, fun hplain => ?_⟩
  simpa [HistoryWindow.bufferData_eq hend c.row (h.keys.mono hc).table,
    HistoryWindow.bufferCurrentTimeBuffer, h.exclude_eq, hplain] using h.buffer hplain

/-- Popping keeps the invariant. -/
theorem CallInv.dropFront (h : CallInv range excludeCurrentTime w last) :
    CallInv range excludeCurrentTime w.dropFront last := by
  have hsame : w.dropFront.windowRange = w.windowRange ∧
      w.dropFront.excludeCurrentTime = w.excludeCurrentTime := by
    unfold HistoryWindow.dropFront
    split <;> exact ⟨rfl, rfl⟩
  refine ⟨hsame.1.trans h.windowRange_eq, hsame.2.trans h.exclude_eq, h.keys.dropFront,
    fun hplain => ?_⟩
  simp [HistoryWindow.dropFront, h.buffer hplain, isEmpty_nil]

/-- The push ends with a call of `BufferEffectiveWindow`, which puts the row in front. -/
theorem CallInv.exists_bufferEffectiveWindow (h : CallInv range excludeCurrentTime w last)
    (h0 : range.endOffset = 0) (hc : last ≤ c.key) :
    ∃ w' : HistoryWindow Row, w'.windowRange = range ∧ (w.bufferData c.key c.row).2 =
      w'.bufferEffectiveWindow c.key c.row (clampTs c.key range.startOffset) := by
  have hend : w.windowRange.endOffset = 0 := by rw [h.windowRange_eq, h0]
  rw [HistoryWindow.bufferData_eq hend c.row (h.keys.mono hc).table, h.windowRange_eq]
  unfold HistoryWindow.bufferCurrentTimeBuffer
  split
  · exact ⟨w, h.windowRange_eq, rfl⟩
  · refine ⟨_, ?_, rfl⟩
    rw [(HistoryWindow.sameSettings_bufferCurrentHistoryBuffer ..).windowRange_eq,
      HistoryWindow.popEffectiveData_eq]
    exact h.windowRange_eq

/-- The row is in the table after the push, unless the row limit wraps. -/
theorem CallInv.bufferData_table_eq_nil_iff (h : CallInv range excludeCurrentTime w last)
    (hr : range.EndsAtCurrent) (hc : last ≤ c.key) (hk : IsUInt64 c.key) :
    (w.bufferData c.key c.row).2.table = [] ↔
      range.frameType = .kFrameRows ∧ range.startRow + 1 = 2 ^ 64 := by
  obtain ⟨w', hrange, hpush⟩ := @CallInv.exists_bufferEffectiveWindow _ _ c _ _ _ h hr.endOffset_eq hc
  rw [hpush]
  constructor
  · intro hnil
    by_contra hwrap
    obtain ⟨older, holder⟩ := HistoryWindow.exists_bufferEffectiveWindow_cons c.row
      (clampTs_le_key hk range.startOffset_int64 hr.startOffset_nonpos) (w := w') fun hf => by
        rw [hrange] at hf ⊢
        by_contra hlt
        exact hwrap ⟨hf, (startRow_eq_of_not_lt hlt).1⟩
    rw [holder] at hnil
    exact cons_ne_nil _ _ hnil
  · rintro ⟨hf, hwrap⟩
    exact HistoryWindow.bufferEffectiveWindow_table_of_wrap (hrange ▸ hf) (hrange ▸ hwrap) _ _ _

/-- The pops that are the same in both classes. -/
def SafePop (range : WindowRange) (excludeCurrentTime : Bool) (c : WindowCall Row) : Prop :=
  c.pops = true → (excludeCurrentTime = true → c.key = 0) ∧
    ¬(range.frameType = .kFrameRows ∧ range.startRow + 1 = 2 ^ 64)

/-- Nothing waits in the buffer at such a pop. -/
theorem CallInv.bufferData_buffer (h : CallInv range excludeCurrentTime w last)
    (h0 : range.endOffset = 0) (hc : last ≤ c.key) (hzero : excludeCurrentTime = true → c.key = 0) :
    (w.bufferData c.key c.row).2.currentHistoryBuffer = [] := by
  have hend : w.windowRange.endOffset = 0 := by rw [h.windowRange_eq, h0]
  cases hplain : excludeCurrentTime with
  | false => exact (h.bufferData h0 hc).buffer hplain
  | true =>
    have hzero := hzero hplain
    rw [HistoryWindow.bufferData_eq hend c.row (h.keys.mono hc).table, hzero]
    rw [hzero] at hc
    exact HistoryWindow.bufferCurrentTimeBuffer_buffer_zero (h.keys.mono hc) c.row _
      (h.exclude_eq.trans hplain)

/-- Such an operation succeeds, is the same in both classes and keeps the invariant. -/
theorem CallInv.exists_call (h : CallInv range excludeCurrentTime w last) (hr : range.EndsAtCurrent)
    (hc : last ≤ c.key) (hk : IsUInt64 c.key) (hsafe : SafePop range excludeCurrentTime c) :
    ∃ after, HistoryWindow.call c w = some after ∧ CurrentHistoryWindow.call c w = some after ∧
      CallInv range excludeCurrentTime after.2 c.key := by
  have hend : w.windowRange.endOffset = 0 := by rw [h.windowRange_eq, hr.endOffset_eq]
  have hpush := @CallInv.bufferData _ _ c _ _ _ h hr.endOffset_eq hc
  unfold CurrentHistoryWindow.call HistoryWindow.call WindowCall.run
  rw [bufferData_eq_base hend]
  cases hpops : c.pops with
  | false => exact ⟨_, rfl, rfl, hpush⟩
  | true =>
    obtain ⟨hzero, hwrap⟩ := hsafe hpops
    have htable := (h.bufferData_table_eq_nil_iff hr hc hk).not.mpr hwrap
    have hpop := popFrontData_of_table htable
    have hbase := popFrontData_eq_base (h.bufferData_buffer hr.endOffset_eq hc hzero)
    refine ⟨((w.bufferData c.key c.row).1, (w.bufferData c.key c.row).2.dropFront), ?_, ?_,
      hpush.dropFront⟩
    · simp [hpop]
    · simp [hbase, hpop]

/-- At any other operation the subclass pops an empty table, or a row that the base class
leaves in its table. -/
theorem CallInv.call_ne_base (h : CallInv range excludeCurrentTime w last)
    (hr : range.EndsAtCurrent) (hc : last ≤ c.key) (hk : IsUInt64 c.key)
    (hsafe : ¬SafePop range excludeCurrentTime c) :
    ¬∃ b after after', HistoryWindow.call c w = some (b, after) ∧
      CurrentHistoryWindow.call c w = some (b, after') ∧ after.table = after'.table := by
  rintro ⟨b, after, after', hbase, hsub, htables⟩
  have hend : w.windowRange.endOffset = 0 := by rw [h.windowRange_eq, hr.endOffset_eq]
  unfold SafePop at hsafe
  rw [Classical.not_imp, not_and_or, not_not, Classical.not_imp] at hsafe
  obtain ⟨hpops, hunsafe⟩ := hsafe
  have hiff := @CallInv.bufferData_table_eq_nil_iff _ _ c _ _ _ h hr hc hk
  unfold HistoryWindow.call WindowCall.run at hbase
  unfold CurrentHistoryWindow.call WindowCall.run at hsub
  rw [bufferData_eq_base hend, hpops] at hsub
  rw [hpops] at hbase
  by_cases hnil : (w.bufferData c.key c.row).2.table = []
  · simp [CurrentHistoryWindow.popFrontData, hnil] at hsub
  · obtain ⟨hexclude, hpos⟩ := hunsafe.resolve_right fun hwrap => hnil (hiff.mpr hwrap)
    obtain ⟨waiting, hwaiting⟩ := HistoryWindow.exists_bufferCurrentTimeBuffer_buffer
      (Nat.pos_of_ne_zero hpos) hk c.row (clampTs c.key w.windowRange.startOffset)
      (h.exclude_eq.trans hexclude)
    have hbuffer : (w.bufferData c.key c.row).2.currentHistoryBuffer ≠ [] := by
      rw [HistoryWindow.bufferData_eq hend c.row (h.keys.mono hc).table, hwaiting]
      exact cons_ne_nil _ _
    simp only [if_true, popFrontData_of_table hnil, Option.map_some, Option.some.injEq,
      Prod.mk.injEq] at hbase
    simp [CurrentHistoryWindow.popFrontData, hnil] at hsub
    refine dropFront_table_ne hbuffer hnil ?_
    rw [hbase.2, htables, ← hsub.2]

end Call

/-! ### Whole runs -/

section Run

variable {w : HistoryWindow Row} {range : WindowRange} {excludeCurrentTime : Bool} {last : Nat}

/-- Both runs are defined and show the same. -/
def SameRuns (w : HistoryWindow Row) (calls : List (WindowCall Row)) : Prop :=
  ∃ seen, observe HistoryWindow.call w calls = some seen ∧
    observe CurrentHistoryWindow.call w calls = some seen

theorem sameRuns_cons_iff {c : WindowCall Row} {after}
    (hbase : HistoryWindow.call c w = some after) (hsub : CurrentHistoryWindow.call c w = some after)
    (calls : List (WindowCall Row)) : SameRuns w (c :: calls) ↔ SameRuns after.2 calls := by
  simp only [SameRuns, observe, hbase, hsub, Option.bind_some, Option.map_eq_some_iff]
  constructor
  · rintro ⟨_, ⟨seen, hseen, rfl⟩, seen', hseen', heq⟩
    obtain rfl := (List.cons.inj heq).2
    exact ⟨_, hseen, hseen'⟩
  · rintro ⟨seen, hseen, hseen'⟩
    exact ⟨_, ⟨seen, hseen, rfl⟩, seen, hseen', rfl⟩

/-- The first operation of a run that is the same. -/
theorem SameRuns.exists_call {c : WindowCall Row} {calls} (h : SameRuns w (c :: calls)) :
    ∃ b after after', HistoryWindow.call c w = some (b, after) ∧
      CurrentHistoryWindow.call c w = some (b, after') ∧ after.table = after'.table := by
  obtain ⟨seen, hbase, hsub⟩ := h
  obtain ⟨⟨b, after⟩, hcall, hrest⟩ := Option.bind_eq_some_iff.mp hbase
  obtain ⟨⟨b', after'⟩, hcall', hrest'⟩ := Option.bind_eq_some_iff.mp hsub
  obtain ⟨rest, -, rfl⟩ := Option.map_eq_some_iff.mp hrest
  obtain ⟨rest', -, heq⟩ := Option.map_eq_some_iff.mp hrest'
  obtain ⟨rfl, htable⟩ := Prod.mk.inj (List.cons.inj heq).1
  exact ⟨_, after, after', hcall, hcall', htable.symm⟩

/-- The windows part at the first pop that is not safe. -/
theorem CallInv.sameRuns_iff (h : CallInv range excludeCurrentTime w last)
    (hr : range.EndsAtCurrent) {calls} (hasc : calls.Pairwise fun c d => c.key ≤ d.key)
    (hlast : ∀ c ∈ calls, last ≤ c.key) (hk : ∀ c ∈ calls, IsUInt64 c.key) :
    SameRuns w calls ↔ ∀ c ∈ calls, SafePop range excludeCurrentTime c := by
  induction calls generalizing w last with
  | nil => simp [SameRuns, observe]
  | cons c calls ih =>
    obtain ⟨hc, hcalls⟩ := pairwise_cons.mp hasc
    have hle := hlast c mem_cons_self
    have hkc := hk c mem_cons_self
    rw [forall_mem_cons]
    by_cases hsafe : SafePop range excludeCurrentTime c
    · obtain ⟨after, hbase, hsub, hinv⟩ := h.exists_call hr hle hkc hsafe
      rw [sameRuns_cons_iff hbase hsub,
        ih hinv hcalls hc fun d hd => hk d (mem_cons_of_mem _ hd)]
      exact (and_iff_right hsafe).symm
    · exact iff_of_false (fun hsame => h.call_ne_base hr hle hkc hsafe hsame.exists_call)
        fun hall => hsafe hall.1

end Run

/-- A `CurrentHistoryWindow` and a `HistoryWindow` of the same range return the same and show
the same tables after every operation, if and only if the row limit of a rows frame does not
wrap where a row is popped, and no row of a positive key is popped while the current time is
excluded. -/
theorem currentHistoryWindow_same_iff {range : WindowRange} (hr : range.EndsAtCurrent)
    (excludeCurrentTime inw : Bool) {calls : List (WindowCall Row)}
    (hasc : calls.Pairwise fun c d => c.key ≤ d.key) (hk : ∀ c ∈ calls, IsUInt64 c.key) :
    SameRuns (HistoryWindow.new range excludeCurrentTime inw) calls ↔
      ∀ c ∈ calls, SafePop range excludeCurrentTime c :=
  (CallInv.new range excludeCurrentTime inw).sameRuns_iff hr hasc (fun _ _ => Nat.zero_le _) hk

theorem currentHistoryWindow_same_lastSecond :
    SameRuns (HistoryWindow.new lastSecond true true)
      [⟨0, 'a', true⟩, ⟨400, 'b', false⟩, ⟨1200, 'c', false⟩] := by
  refine (currentHistoryWindow_same_iff lastSecond_endsAtCurrent true true (by decide)
    (by decide)).mpr ?_
  have hframe : lastSecond.frameType ≠ .kFrameRows := by decide
  simp [SafePop, hframe]

/-- A row of key 400 is pushed and popped, and another one of key 600 pushed: the base class
takes back the first row, the subclass the front of the table, and the first row is in
its later table. -/
theorem currentHistoryWindow_keeps_popped :
    observe HistoryWindow.call (HistoryWindow.new lastSecond true true)
        [⟨400, 'a', true⟩, ⟨600, 'b', false⟩] =
          some [(true, [(400, 'a')]), (true, [(600, 'b')])] ∧
      observe CurrentHistoryWindow.call (HistoryWindow.new lastSecond true true)
        [⟨400, 'a', true⟩, ⟨600, 'b', false⟩] =
          some [(true, []), (true, [(600, 'b'), (400, 'a')])] := by
  decide

end HybridSE.Vm
