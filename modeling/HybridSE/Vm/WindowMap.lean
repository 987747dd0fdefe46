import HybridSE.Vm.WindowAgg

/-!
# HybridSE.Vm.WindowMap

A window looks at the keys of its rows only, so whatever is done to the rows before
they enter it can as well be done to the rows in it: every operation of
`HistoryWindow` commutes with a function on rows (`bufferData_map`), and so does
`WindowProject` with a projection (`windowProject_map`).
-/

namespace HybridSE.Vm

open HybridSE.Lib List Option

variable {R S Out : Type*}

/-- The row of an entry changed. -/
def mapEntry (f : R → S) (e : Entry R) : Entry S := (e.1, f e.2)

@[simp] theorem mapEntry_fst (f : R → S) (e : Entry R) : (mapEntry f e).1 = e.1 := rfl

@[simp] theorem mapEntry_snd (f : R → S) (e : Entry R) : (mapEntry f e).2 = f e.2 := rfl

theorem mapEntry_id : mapEntry (fun row : R => row) = id := rfl

/-! ### The window -/

namespace HistoryWindow

/-- The rows of a window changed. -/
def map (f : R → S) (w : HistoryWindow R) : HistoryWindow S where
  windowRange := w.windowRange
  excludeCurrentTime := w.excludeCurrentTime
  instanceNotInWindow := w.instanceNotInWindow
  table := w.table.map (mapEntry f)
  currentHistoryBuffer := w.currentHistoryBuffer.map (mapEntry f)

variable (f : R → S) (w : HistoryWindow R)

@[simp] theorem map_table : (w.map f).table = w.table.map (mapEntry f) := rfl

@[simp] theorem map_currentHistoryBuffer :
    (w.map f).currentHistoryBuffer = w.currentHistoryBuffer.map (mapEntry f) := rfl

@[simp] theorem map_windowRange : (w.map f).windowRange = w.windowRange := rfl

@[simp] theorem map_excludeCurrentTime : (w.map f).excludeCurrentTime = w.excludeCurrentTime := rfl

@[simp] theorem map_instanceNotInWindow :
    (w.map f).instanceNotInWindow = w.instanceNotInWindow := rfl

theorem dropFront_map : (w.map f).dropFront = w.dropFront.map f := by
  unfold dropFront
  simp only [map, isEmpty_map]
  split <;> simp [map_tail]

theorem popEffectiveData_map : (w.map f).popEffectiveData = w.popEffectiveData.map f := by
  unfold popEffectiveData
  simp only [map, isEmpty_map]
  split <;> simp [map_tail]

theorem bufferEffectiveWindow_map (key : Nat) (row : R) (startTs : Nat) :
    (w.map f).bufferEffectiveWindow key (f row) startTs =
      (w.bufferEffectiveWindow key row startTs).map f := by
  have hevict : ∀ table : List (Entry R), evictMaxSize w.windowRange (table.map (mapEntry f)) =
      (evictMaxSize w.windowRange table).map (mapEntry f) := fun table => by
    unfold evictMaxSize
    rw [length_map]
    exact popBackWhile_map (mapEntry f) (fun _ _ => rfl) _ _
  have hslide : ∀ table : List (Entry R),
      slideWindow w.windowRange startTs (table.map (mapEntry f)) =
        (slideWindow w.windowRange startTs table).map (mapEntry f) := fun table => by
    unfold slideWindow
    rw [length_map]
    exact popBackWhile_map (mapEntry f) (fun _ _ => rfl) _ _
  have hcons : (key, f row) :: w.table.map (mapEntry f) =
      ((key, row) :: w.table).map (mapEntry f) := rfl
  unfold bufferEffectiveWindow
  simp only [map, hcons, hevict, hslide]

theorem drainHistoryBuffer_map (endTs startTs n : Nat) :
    drainHistoryBuffer endTs startTs n (w.map f) =
      (drainHistoryBuffer endTs startTs n w).map f := by
  induction n generalizing w with
  | zero => rfl
  | succ n ih =>
    rw [drainHistoryBuffer, drainHistoryBuffer, map_currentHistoryBuffer, getLast?_map]
    cases w.currentHistoryBuffer.getLast? with
    | none => rfl
    | some back =>
      dsimp only [map_some]
      by_cases hend : endTs < back.1
      · have hend' : endTs < (mapEntry f back).1 := hend
        rw [if_pos hend, if_pos hend']
      · have hend' : ¬ endTs < (mapEntry f back).1 := hend
        rw [if_neg hend, if_neg hend', ← ih, mapEntry_snd,
          bufferEffectiveWindow_map, ← map_dropLast]
        rfl

theorem bufferCurrentHistoryBuffer_map (key : Nat) (row : R) (endTs : Nat) :
    (w.map f).bufferCurrentHistoryBuffer key (f row) endTs =
      (w.bufferCurrentHistoryBuffer key row endTs).map f := by
  unfold bufferCurrentHistoryBuffer
  rw [← drainHistoryBuffer_map]
  simp [map, mapEntry]

theorem bufferCurrentTimeBuffer_map (key : Nat) (row : R) (startTs : Nat) :
    (w.map f).bufferCurrentTimeBuffer key (f row) startTs =
      (w.bufferCurrentTimeBuffer key row startTs).map f := by
  unfold bufferCurrentTimeBuffer
  rw [popEffectiveData_map, bufferCurrentHistoryBuffer_map, bufferEffectiveWindow_map,
    bufferEffectiveWindow_map, map_excludeCurrentTime]
  split <;> rfl

/-- `BufferData` decides by the key alone. -/
theorem bufferData_map (key : Nat) (row : R) :
    (w.map f).bufferData key (f row) =
      ((w.bufferData key row).1, (w.bufferData key row).2.map f) := by
  have hfront : (w.map f).table.head?.any (fun front => decide (key < front.1)) =
      w.table.head?.any (fun front => decide (key < front.1)) := by
    rw [map_table, head?_map]
    cases w.table.head? <;> rfl
  unfold bufferData
  rw [hfront, map_windowRange, map_table, length_map]
  simp only [bufferCurrentTimeBuffer_map, bufferEffectiveWindow_map,
    bufferCurrentHistoryBuffer_map]
  -- both sides branch on the same tests
  repeat' split
  all_goals rfl

end HistoryWindow

/-! ### The projection of a window -/

/-- A projection of changed rows, as one of the rows before the change. -/
def comapProject (f : R → S) (fn : Nat → S → List (Entry S) → Option Out) (key : Nat) (row : R)
    (window : List (Entry R)) : Option Out :=
  fn key (f row) (window.map (mapEntry f))

theorem windowProject_map (f : R → S) (fn : Nat → S → List (Entry S) → Option Out) (key : Nat)
    (row : R) (isInstance : Bool) (window : HistoryWindow R) :
    windowProject fn key (f row) isInstance (window.map f) =
      ((windowProject (comapProject f fn) key row isInstance window).1,
        (windowProject (comapProject f fn) key row isInstance window).2.map f) := by
  unfold windowProject
  rw [HistoryWindow.bufferData_map]
  rcases window.bufferData key row with ⟨_ | _, pushed⟩
  · rfl
  · dsimp only
    split
    case isTrue => rfl
    case isFalse =>
      rw [comapProject, HistoryWindow.map_table, HistoryWindow.map_instanceNotInWindow]
      cases fn key (f row) (pushed.table.map (mapEntry f)) with
      | none => rfl
      | some out =>
        cases pushed.instanceNotInWindow with
        | true => rw [if_pos rfl, if_pos rfl, HistoryWindow.dropFront_map]
        | false => rfl

/-! ### Projections and what they see -/

/-- What a projection that cannot fail sees: the key, the row and the window. -/
def sees (key : Nat) (row : R) (window : List (Entry R)) : Option (Nat × R × List (Entry R)) :=
  some (key, row, window)

/-- A projection that cannot fail. -/
def projectAll (project : Nat × R × List (Entry R) → Out) (key : Nat) (row : R)
    (window : List (Entry R)) : Option Out :=
  some (project (key, row, window))

theorem windowProject_project (project : Nat × R × List (Entry R) → Out) (key : Nat) (row : R)
    (isInstance : Bool) (window : HistoryWindow R) :
    windowProject (projectAll project) key row isInstance window =
      ((windowProject sees key row isInstance window).1.map project,
        (windowProject sees key row isInstance window).2) := by
  unfold windowProject
  rcases window.bufferData key row with ⟨_ | _, pushed⟩
  · rfl
  · cases isInstance <;> rfl

end HybridSE.Vm
