import HybridSE.Lib.KeySort
import HybridSE.Vm.JoinGenerator
import HybridSE.Vm.WindowMap

/-!
# HybridSE.Vm.WindowAggRunner

`WindowAggRunner` of `src/vm/runner.cc`: the instance input and the union inputs are
partitioned, and `RunWindowAggOnKey` runs over each partition of the instance input, in
the order of the keys. A row goes through the window joins when it is taken from its
segment; an empty row does not enter the window, and an empty instance row is passed on
as it is. `limit_cnt_` bounds the output of the whole run.

`run_eq` is the run as one list: the rows of the partitions one after the other, cut at
the limit.
-/

namespace HybridSE.Vm

open HybridSE.Lib HybridSE.Codec List Option

variable {R S J Out : Type*}

/-- `std::sort` on the rows of a table. -/
def stdSort (std : KeySort) (R : Type*) : StdSort R where
  sort := std.sort
  perm := std.sort_perm
  sorted := std.sort_sorted

/-! ### One partition -/

section Loops

variable (isEmpty : J → Bool) (fn : Nat → J → List (Entry J) → Option Out)

/-- `Runner::WindowProject`; `none` is an empty output row. -/
def windowProjectRow (key : Nat) (row : J) (isInstance : Bool) (window : HistoryWindow J) :
    Option Out × HistoryWindow J :=
  if isEmpty row then (none, window) else windowProject fn key row isInstance window

/-- The inner loop of `RunWindowAggOnKey`. The first argument bounds the number of
rounds. -/
def pushUnions (instanceOrder : Nat) :
    Nat → List (List (Entry J)) → HistoryWindow J → List (List (Entry J)) × HistoryWindow J
  | 0, iters, window => (iters, window)
  | n + 1, iters, window =>
    match IteratorStatus.pickIteratorWithMininumKey (iters.map IteratorStatus.ofIter) with
    | none => (iters, window)
    | some minUnionPos =>
      match iters[minUnionPos]? with
      | some (e :: rest) =>
        if e.1 < instanceOrder then
          pushUnions instanceOrder n (iters.set minUnionPos rest)
            (windowProjectRow isEmpty fn e.1 e.2 false window).2
        else (iters, window)
      -- a picked iterator is valid
      | _ => (iters, window)

/-- The outer loop of `RunWindowAggOnKey`, over the instance segment; `cnt` is the size
of the output table. -/
def windowAggRows (limitCnt : Nat) :
    List (Entry J) → List (List (Entry J)) → HistoryWindow J → List (Option Out) →
      List (Option Out)
  | [], _, _, output => output
  | instanceRow :: rest, iters, window, output =>
    if 0 < limitCnt ∧ limitCnt ≤ output.length then output
    else
      let pushed := pushUnions isEmpty fn instanceRow.1 iters.flatten.length iters window
      let projected :=
        windowProjectRow isEmpty fn instanceRow.1 instanceRow.2 true pushed.2
      windowAggRows limitCnt rest pushed.1 projected.2 (output ++ [projected.1])

end Loops

/-! ### The run -/

/-- `PartitionGenerator::Partition` of a generator that need not be valid. -/
def partitionOf (keyGen : Option (KeyGen R)) (input : DataHandler R) :
    Option (PartitionHandler R) :=
  match keyGen with
  | some keyGen => partitionInput keyGen input
  | none =>
    match input with
    | .partition p => some p
    | _ => none

/-- `WindowGenerator`. -/
structure WindowGenerator (R : Type*) where
  partitionGen : Option (KeyGen R)
  sortGen : SortGenerator R
  range : WindowRange

/-- The sorted segment of a key; `none` is a null table or iterator. -/
def WindowGenerator.segment (g : WindowGenerator R) (std : KeySort) (p : PartitionHandler R)
    (key : List Byte) : Option (List (Entry R)) :=
  (g.sortGen.sort (stdSort std R) (some (p.getSegment key)) false).bind (·.iterator)

/-- `WindowAggRunner`. `join` is `WindowJoinGenerator::Join` on the tables of the window
joins. -/
structure WindowAggRunner (R J Out : Type*) where
  limitCnt : Nat
  instanceNotInWindow : Bool
  excludeCurrentTime : Bool
  instanceWindow : WindowGenerator R
  unionWindows : List (WindowGenerator R)
  join : R → J
  isEmpty : J → Bool
  project : Nat → J → List (Entry J) → Option Out

namespace WindowAggRunner

variable (r : WindowAggRunner R J Out) (std : KeySort)

/-- `WindowUnionGenerator::PartitionEach`. -/
def partitionEach (unionInputs : List (DataHandler R)) : List (Option (PartitionHandler R)) :=
  List.zipWith (fun g input => partitionOf g.partitionGen input) r.unionWindows unionInputs

/-- The union segments of a key. -/
def unionSegments (unionPartitions : List (Option (PartitionHandler R))) (key : List Byte) :
    List (List (Entry R)) :=
  List.zipWith (fun g partition => (partition.bind fun q => g.segment std q key).getD [])
    r.unionWindows unionPartitions

/-- `WindowAggRunner::RunWindowAggOnKey`. -/
def runOnKey (unionPartitions : List (Option (PartitionHandler R))) (p : PartitionHandler R)
    (output : List (Option Out)) (key : List Byte) : List (Option Out) :=
  match r.instanceWindow.segment std p key with
  | none => output
  | some segment =>
    windowAggRows r.isEmpty r.project r.limitCnt (segment.map (mapEntry r.join))
      ((r.unionSegments std unionPartitions key).map (List.map (mapEntry r.join)))
      (HistoryWindow.new r.instanceWindow.range r.excludeCurrentTime r.instanceNotInWindow)
      output

/-- `WindowAggRunner::Run`; `none` is a null table. -/
def run (input : DataHandler R) (unionInputs : List (DataHandler R)) :
    Option (List (Option Out)) :=
  match partitionOf r.instanceWindow.partitionGen input with
  | none => none
  | some p => some (p.keys.foldl (r.runOnKey std (r.partitionEach unionInputs) p) [])

end WindowAggRunner

/-! ### The run as one list -/

/-- The rows that `limit_cnt_` leaves; zero is no limit. -/
def limitRows {α : Type*} (limitCnt : Nat) (rows : List α) : List α :=
  if limitCnt = 0 then rows else rows.take limitCnt

variable {α : Type*}

theorem limitRows_eq_take {limitCnt} (h : 0 < limitCnt) (rows : List α) :
    limitRows limitCnt rows = rows.take limitCnt := if_neg (Nat.ne_of_gt h)

theorem limitRows_map {β : Type*} (f : α → β) (limitCnt : Nat) (rows : List α) :
    limitRows limitCnt (rows.map f) = (limitRows limitCnt rows).map f := by
  unfold limitRows
  split
  · rfl
  · rw [map_take]

/-- A limit shows unless there are no more rows than it. -/
theorem limitRows_eq_self_iff {limitCnt} {rows : List α} :
    limitRows limitCnt rows = rows ↔ limitCnt = 0 ∨ rows.length ≤ limitCnt := by
  unfold limitRows
  split
  case isTrue h => exact ⟨fun _ => .inl h, fun _ => rfl⟩
  case isFalse h => rw [take_eq_self_iff, or_iff_right h]

theorem length_limitRows (limitCnt : Nat) (rows : List α) :
    (limitRows limitCnt rows).length =
      if limitCnt = 0 then rows.length else min limitCnt rows.length := by
  unfold limitRows
  split
  · rfl
  · rw [length_take]

section Loops

variable (isEmpty : J → Bool) (fn : Nat → J → List (Entry J) → Option Out)

/-- Without a limit the loop appends to the output. -/
theorem windowAggRows_append (segment : List (Entry J)) (iters : List (List (Entry J)))
    (window : HistoryWindow J) (output : List (Option Out)) :
    windowAggRows isEmpty fn 0 segment iters window output =
      output ++ windowAggRows isEmpty fn 0 segment iters window [] := by
  induction segment generalizing iters window output with
  | nil => exact (append_nil output).symm
  | cons row rest ih =>
    have hlimit : ∀ n : Nat, ¬ (0 < 0 ∧ 0 ≤ n) := fun n h => absurd h.1 (Nat.lt_irrefl 0)
    rw [windowAggRows, windowAggRows, if_neg (hlimit _), if_neg (hlimit _)]
    rw [ih, ih _ _ ([] ++ _), nil_append, append_assoc]

/-- Without a limit there is one output row for each row of the segment. -/
theorem length_windowAggRows (segment : List (Entry J)) (iters : List (List (Entry J)))
    (window : HistoryWindow J) (output : List (Option Out)) :
    (windowAggRows isEmpty fn 0 segment iters window output).length =
      output.length + segment.length := by
  induction segment generalizing iters window output with
  | nil => rfl
  | cons row rest ih =>
    rw [windowAggRows, if_neg fun h => absurd h.1 (Nat.lt_irrefl 0)]
    rw [ih, length_append, length_singleton, length_cons]
    omega

/-- The limit stops the loop where the output has reached it. -/
theorem windowAggRows_limit {limitCnt} (hlimit : 0 < limitCnt) (segment : List (Entry J))
    (iters : List (List (Entry J))) (window : HistoryWindow J) {output}
    (h : output.length ≤ limitCnt) :
    windowAggRows isEmpty fn limitCnt segment iters window output =
      (windowAggRows isEmpty fn 0 segment iters window output).take limitCnt := by
  induction segment generalizing iters window output with
  | nil => exact (take_of_length_le h).symm
  | cons row rest ih =>
    rw [windowAggRows]
    by_cases hfull : limitCnt ≤ output.length
    · rw [if_pos ⟨hlimit, hfull⟩, windowAggRows_append,
        take_append_of_le_length hfull, take_of_length_le h]
    · rw [if_neg fun hc => hfull hc.2]
      exact ih _ _ (by rw [length_append, length_singleton]; omega)

theorem windowAggRows_eq (limitCnt : Nat) (segment : List (Entry J)) (iters : List (List (Entry J)))
    (window : HistoryWindow J) {output} (h : limitCnt = 0 ∨ output.length ≤ limitCnt) :
    windowAggRows isEmpty fn limitCnt segment iters window output =
      limitRows limitCnt (output ++ windowAggRows isEmpty fn 0 segment iters window []) := by
  rw [← windowAggRows_append]
  rcases Nat.eq_zero_or_pos limitCnt with rfl | hpos
  · rfl
  · rw [limitRows_eq_take hpos]
    exact windowAggRows_limit isEmpty fn hpos segment iters window
      (h.resolve_left (Nat.ne_of_gt hpos))

end Loops

namespace WindowAggRunner

variable (r : WindowAggRunner R J Out) (std : KeySort)

/-- What a partition adds to an output without limit. -/
def rowsOnKey (unionPartitions : List (Option (PartitionHandler R))) (p : PartitionHandler R)
    (key : List Byte) : List (Option Out) :=
  match r.instanceWindow.segment std p key with
  | none => []
  | some segment =>
    windowAggRows r.isEmpty r.project 0 (segment.map (mapEntry r.join))
      ((r.unionSegments std unionPartitions key).map (List.map (mapEntry r.join)))
      (HistoryWindow.new r.instanceWindow.range r.excludeCurrentTime r.instanceNotInWindow) []

theorem runOnKey_eq (unionPartitions : List (Option (PartitionHandler R))) (p : PartitionHandler R)
    {output} (h : r.limitCnt = 0 ∨ output.length ≤ r.limitCnt) (key : List Byte) :
    r.runOnKey std unionPartitions p output key =
      limitRows r.limitCnt (output ++ r.rowsOnKey std unionPartitions p key) := by
  unfold runOnKey rowsOnKey
  cases r.instanceWindow.segment std p key with
  | none =>
    rw [append_nil]
    exact (limitRows_eq_self_iff.mpr h).symm
  | some segment => exact windowAggRows_eq _ _ _ _ _ _ h

/-- The rows of all partitions, without limit. -/
def allRows (unionInputs : List (DataHandler R)) (p : PartitionHandler R) : List (Option Out) :=
  p.keys.flatMap (r.rowsOnKey std (r.partitionEach unionInputs) p)

theorem length_allRows (unionInputs : List (DataHandler R)) (p : PartitionHandler R) :
    (r.allRows std unionInputs p).length =
      (p.keys.map fun key => ((r.instanceWindow.segment std p key).getD []).length).sum := by
  unfold allRows rowsOnKey
  rw [length_flatMap]
  refine congrArg List.sum (map_congr_left fun key _ => ?_)
  cases r.instanceWindow.segment std p key with
  | none => rfl
  | some segment =>
    rw [length_windowAggRows, length_map, length_nil, Nat.zero_add, getD_some]

/-- Cutting at the limit after each partition is cutting once. -/
theorem limitRows_append_limitRows {α : Type*} (limitCnt : Nat) (xs ys : List α) :
    limitRows limitCnt (limitRows limitCnt xs ++ ys) = limitRows limitCnt (xs ++ ys) := by
  unfold limitRows
  split
  case isTrue => rfl
  case isFalse =>
    rcases Nat.le_total xs.length limitCnt with h | h
    · rw [take_of_length_le h]
    · rw [take_append_of_le_length h, take_append_of_le_length (by simp [h]),
        take_take, Nat.min_self]

theorem run_eq (input : DataHandler R) (unionInputs : List (DataHandler R)) :
    r.run std input unionInputs =
      (partitionOf r.instanceWindow.partitionGen input).map fun p =>
        limitRows r.limitCnt (r.allRows std unionInputs p) := by
  unfold run
  cases partitionOf r.instanceWindow.partitionGen input with
  | none => rfl
  | some p =>
    -- the output so far, cut at the limit, is the invariant of the loop over the keys
    have hloop : ∀ (keys : List (List Byte)) (output : List (Option Out)),
        keys.foldl (r.runOnKey std (r.partitionEach unionInputs) p)
            (limitRows r.limitCnt output) =
          limitRows r.limitCnt
            (output ++ keys.flatMap (r.rowsOnKey std (r.partitionEach unionInputs) p)) := by
      intro keys
      induction keys with
      | nil => intro output; rw [foldl_nil, flatMap_nil, append_nil]
      | cons key keys ih =>
        intro output
        have hle : r.limitCnt = 0 ∨ (limitRows r.limitCnt output).length ≤ r.limitCnt := by
          rcases Nat.eq_zero_or_pos r.limitCnt with h | h
          · exact .inl h
          · exact .inr (by rw [limitRows_eq_take h, length_take]; omega)
        rw [foldl_cons, runOnKey_eq r std _ p hle, limitRows_append_limitRows, ih,
          flatMap_cons, append_assoc]
    have h := hloop p.keys []
    rw [limitRows_eq_self_iff.mpr (.inr (Nat.zero_le _))] at h
    exact congrArg some h

end WindowAggRunner

/-- A run with a limit, which stops inside a partition and skips the others, puts out the first
rows of the run without. -/
theorem run_limitCnt {R J Out : Type*} (r : WindowAggRunner R J Out) (std : KeySort)
    (input : DataHandler R) (unionInputs : List (DataHandler R)) :
    r.run std input unionInputs =
      ({ r with limitCnt := 0 }.run std input unionInputs).map (limitRows r.limitCnt) := by
  rw [WindowAggRunner.run_eq, WindowAggRunner.run_eq, Option.map_map]
  rfl

end HybridSE.Vm
