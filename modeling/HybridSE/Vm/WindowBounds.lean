import HybridSE.Vm.CurrentHistoryWindow

/-!
# HybridSE.Vm.WindowBounds

How many rows a window keeps, over all calls of `HistoryWindow` and `CurrentHistoryWindow`
(`include/vm/mem_catalog.h`) with keys in any order.
-/

namespace HybridSE.Vm

open HybridSE.Lib List

variable {Row : Type*} {range : WindowRange}

/-- A loop that drops every row beyond a limit. -/
theorem length_popBackWhile_le {α : Type*} {drop : Nat → α → Bool} {limit : Nat}
    (h : ∀ n x, limit < n → drop n x = true) (xs : List α) :
    (popBackWhile drop xs.length xs).length ≤ limit := by
  induction xs using List.reverseRecOn with
  | nil => exact Nat.zero_le _
  | append_singleton xs x ih =>
    rw [length_append, length_singleton, popBackWhile, getLast?_concat]
    dsimp only
    split
    · rwa [dropLast_concat]
    · next hkeep => exact Nat.not_lt.mp fun hlt => hkeep (h _ x (by simpa using hlt))

/-- The window has no more rows than `max_size_`, and than a frame of rows asks for. -/
structure Bounded (range : WindowRange) (w : HistoryWindow Row) : Prop where
  windowRange_eq : w.windowRange = range
  maxSize : range.maxSize ≠ 0 → w.table.length ≤ range.maxSize
  rows : range.frameType = .kFrameRows → w.table.length ≤ range.rowsLimit

namespace Bounded

variable {w w' : HistoryWindow Row}

theorem mono (h : Bounded range w) (hrange : w'.windowRange = w.windowRange)
    (hle : w'.table.length ≤ w.table.length) : Bounded range w' where
  windowRange_eq := hrange.trans h.windowRange_eq
  maxSize hmax := hle.trans (h.maxSize hmax)
  rows hframe := hle.trans (h.rows hframe)

/-- Whatever the table was, the two loops cut it. -/
theorem bufferEffectiveWindow (h : w.windowRange = range) (key : Nat) (row : Row)
    (startTs : Nat) : Bounded range (w.bufferEffectiveWindow key row startTs) where
  windowRange_eq := h
  maxSize hmax := by
    subst h
    refine (popBackWhile_isPrefix _ _ _).length_le.trans (length_popBackWhile_le ?_ _)
    simp [Nat.pos_iff_ne_zero, hmax]
  rows hframe := by
    subst h
    refine length_popBackWhile_le (fun n x hlt => ?_) _
    have hfull : ¬ n ≤ toUInt64 (w.windowRange.startRow + 1) := Nat.not_le.mpr hlt
    simp [hfull, hframe]

theorem drainHistoryBuffer (h : Bounded range w) (endTs startTs n : Nat) :
    Bounded range (HistoryWindow.drainHistoryBuffer endTs startTs n w) := by
  induction n generalizing w with
  | zero => exact h
  | succ n ih =>
    rw [HistoryWindow.drainHistoryBuffer]
    split
    · exact h
    · split
      · exact h
      · exact ih ((bufferEffectiveWindow h.windowRange_eq _ _ _).mono rfl le_rfl)

theorem bufferCurrentHistoryBuffer (h : Bounded range w) (key : Nat) (row : Row) (endTs : Nat) :
    Bounded range (w.bufferCurrentHistoryBuffer key row endTs) :=
  drainHistoryBuffer
    (h.mono rfl le_rfl : Bounded range
      { w with currentHistoryBuffer := (key, row) :: w.currentHistoryBuffer }) _ _ _

theorem bufferCurrentTimeBuffer (h : Bounded range w) (key : Nat) (row : Row) (startTs : Nat) :
    Bounded range (w.bufferCurrentTimeBuffer key row startTs) := by
  have hpop : Bounded range w.popEffectiveData := by
    rw [HistoryWindow.popEffectiveData_eq]
    exact h.mono rfl (tail_sublist _).length_le
  unfold HistoryWindow.bufferCurrentTimeBuffer
  split
  · exact bufferEffectiveWindow h.windowRange_eq _ _ _
  · exact bufferEffectiveWindow (hpop.bufferCurrentHistoryBuffer _ _ _).windowRange_eq _ _ _

theorem bufferData (h : Bounded range w) (key : Nat) (row : Row) :
    Bounded range (w.bufferData key row).2 := by
  unfold HistoryWindow.bufferData
  split_ifs
  · exact h
  · exact h.bufferCurrentTimeBuffer _ _ _
  · exact bufferEffectiveWindow h.windowRange_eq _ _ _
  · exact h.bufferCurrentTimeBuffer _ _ _
  · exact h.bufferCurrentHistoryBuffer _ _ _

theorem bufferData_current (h : Bounded range w) (key : Nat) (row : Row) :
    Bounded range (CurrentHistoryWindow.bufferData w key row).2 := by
  unfold CurrentHistoryWindow.bufferData
  dsimp only
  split_ifs
  · exact h
  · exact h.bufferCurrentTimeBuffer _ _ _
  · exact bufferEffectiveWindow h.windowRange_eq _ _ _

theorem popFrontData_current (h : Bounded range w)
    (hpop : CurrentHistoryWindow.popFrontData w = some w') : Bounded range w' := by
  unfold CurrentHistoryWindow.popFrontData at hpop
  split at hpop
  · cases hpop
  · cases hpop
    exact h.mono rfl (tail_sublist _).length_le

theorem popFrontData (h : Bounded range w) (hpop : w.popFrontData = some w') :
    Bounded range w' := by
  unfold HistoryWindow.popFrontData HistoryWindow.dropFront at hpop
  split at hpop
  · cases hpop
  · split at hpop
    · cases hpop
      exact h.mono rfl (tail_sublist _).length_le
    · cases hpop
      exact h.mono rfl le_rfl

/-- An operation of either window, with its versions of the two functions. -/
theorem call {bufferData : HistoryWindow Row → Nat → Row → Bool × HistoryWindow Row}
    {popFrontData : HistoryWindow Row → Option (HistoryWindow Row)}
    (hbuffer : ∀ w key row, Bounded range w → Bounded range (bufferData w key row).2)
    (hpop : ∀ w w', Bounded range w → popFrontData w = some w' → Bounded range w')
    (h : Bounded range w) {c : WindowCall Row} {after}
    (hcall : c.run bufferData popFrontData w = some after) : Bounded range after.2 := by
  have hpush := hbuffer w c.key c.row h
  unfold WindowCall.run at hcall
  dsimp only at hcall
  split at hcall
  · obtain ⟨popped, hpopped, rfl⟩ := Option.map_eq_some_iff.mp hcall
    exact hpop _ _ hpush hpopped
  · cases hcall
    exact hpush

end Bounded

/-- The window after all operations of a run, none of which pops an empty table. -/
def runAll (call : WindowCall Row → HistoryWindow Row → Option (Bool × HistoryWindow Row)) :
    HistoryWindow Row → List (WindowCall Row) → Option (HistoryWindow Row)
  | w, [] => some w
  | w, c :: calls => (call c w).bind fun after => runAll call after.2 calls

theorem Bounded.runAll
    {call : WindowCall Row → HistoryWindow Row → Option (Bool × HistoryWindow Row)}
    (hcall : ∀ c w after, Bounded range w → call c w = some after → Bounded range after.2)
    {w w' : HistoryWindow Row} (h : Bounded range w) {calls}
    (hrun : runAll call w calls = some w') : Bounded range w' := by
  induction calls generalizing w with
  | nil =>
    cases hrun
    exact h
  | cons c calls ih =>
    obtain ⟨after, hafter, hrest⟩ := Option.bind_eq_some_iff.mp hrun
    exact ih (hcall c w after h hafter) hrest

/-- Rows may come late, be popped or not and wait in the pending buffer: neither window
ever has more rows than its settings allow. -/
theorem windows_bounded (range : WindowRange) (excludeCurrentTime instanceNotInWindow : Bool)
    (calls : List (WindowCall Row)) (w : HistoryWindow Row) :
    let new := HistoryWindow.new range excludeCurrentTime instanceNotInWindow
    (runAll HistoryWindow.call new calls = some w → Bounded range w) ∧
      (runAll CurrentHistoryWindow.call new calls = some w → Bounded range w) := by
  have hnew : @Bounded Row range (.new range excludeCurrentTime instanceNotInWindow) :=
    ⟨rfl, fun _ => Nat.zero_le _, fun _ => Nat.zero_le _⟩
  constructor
  · exact hnew.runAll fun c w after h =>
      h.call (fun _ key row h => h.bufferData key row) fun _ _ h hpop => h.popFrontData hpop
  · exact hnew.runAll fun c w after h =>
      h.call (fun _ key row h => h.bufferData_current key row)
        fun _ _ h hpop => h.popFrontData_current hpop

/-- A late row, a row that is popped and one that stays. -/
theorem windows_bounded_late :
    (runAll HistoryWindow.call (.new lastSecond false true)
      [⟨400, 'a', false⟩, ⟨100, 'b', false⟩, ⟨600, 'c', true⟩]).isSome = true ∧
    ∀ w, runAll HistoryWindow.call (.new lastSecond false true)
      [⟨400, 'a', false⟩, ⟨100, 'b', false⟩, ⟨600, 'c', true⟩] = some w → Bounded lastSecond w :=
  ⟨by decide, fun w hrun => (windows_bounded lastSecond false true _ w).1 hrun⟩

end HybridSE.Vm
