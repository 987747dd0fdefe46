import Mathlib.Data.List.Pairwise
import Mathlib.Data.List.Range
import Mathlib.Data.List.Sort

/-!
# HybridSE.Lib.KeySort

Sorting of entries that carry a key, by an algorithm that looks at the keys only and of
which nothing else is known: `KeySort` gives, for a list of keys, the positions of the
sorted list. What it does to the entries follows: the sorted list is a permutation
(`sort_perm`), its keys are in order (`sort_sorted`), and it does not matter whether the
entries are changed before or after (`sort_map`).
-/

namespace HybridSE.Lib

open List

variable {α β : Type*}

/-- Of two different elements one comes before the other. -/
theorem pairwise_either {r} {l : List α} (h : l.Pairwise r) {x y} (hx : x ∈ l) (hy : y ∈ l)
    (hne : x ≠ y) : r x y ∨ r y x := by
  have hsymm : Std.Symm fun a b => r a b ∨ r b a := ⟨fun _ _ => Or.symm⟩
  have hor : l.Pairwise fun a b => r a b ∨ r b a := h.imp Or.inl
  exact hor.forall hx hy hne

/-- A sort by keys, ascending or descending, not necessarily stable. -/
structure KeySort where
  order : Bool → List Nat → List Nat
  perm : ∀ (isAsc : Bool) (keys : List Nat), (order isAsc keys).Perm (List.range keys.length)
  sorted : ∀ (isAsc : Bool) (keys : List Nat),
    ((order isAsc keys).map fun i => keys.getD i 0).Pairwise
      fun a b => if isAsc then a ≤ b else b ≤ a

namespace KeySort

variable (s : KeySort)

/-- The entries at the positions that the sort gives. -/
def sort (isAsc : Bool) (xs : List (Nat × α)) : List (Nat × α) :=
  (s.order isAsc (xs.map Prod.fst)).filterMap fun i => xs[i]?

theorem filterMap_getElem?_range (xs : List α) :
    (List.range xs.length).filterMap (fun i => xs[i]?) = xs := by
  induction xs with
  | nil => rfl
  | cons x xs ih =>
    rw [length_cons, range_succ_eq_map, filterMap_cons, filterMap_map]
    exact congrArg (x :: ·) ih

theorem sort_perm (isAsc : Bool) (xs : List (Nat × α)) : (s.sort isAsc xs).Perm xs := by
  have h := (s.perm isAsc (xs.map Prod.fst)).filterMap fun i => xs[i]?
  rwa [length_map, filterMap_getElem?_range] at h

theorem map_fst_sort (isAsc : Bool) (xs : List (Nat × α)) :
    (s.sort isAsc xs).map Prod.fst =
      (s.order isAsc (xs.map Prod.fst)).map fun i => (xs.map Prod.fst).getD i 0 := by
  unfold sort
  rw [map_filterMap]
  refine (filterMap_congr fun i hi => ?_).trans (congrFun (filterMap_eq_map) _)
  have hi : i < xs.length := by
    simpa using mem_range.mp ((s.perm isAsc (xs.map Prod.fst)).mem_iff.mp hi)
  simp [hi]

theorem sort_sorted (isAsc : Bool) (xs : List (Nat × α)) :
    (s.sort isAsc xs).Pairwise fun x y => if isAsc then x.1 ≤ y.1 else y.1 ≤ x.1 := by
  have h := s.sorted isAsc (xs.map Prod.fst)
  rw [← map_fst_sort, pairwise_map] at h
  exact h

/-- The entries may be changed before or after the sort. -/
theorem sort_map (f : α → β) (isAsc : Bool) (xs : List (Nat × α)) :
    s.sort isAsc (xs.map fun x => (x.1, f x.2)) = (s.sort isAsc xs).map fun x => (x.1, f x.2) := by
  have hkeys : (xs.map fun x => (x.1, f x.2)).map Prod.fst = xs.map Prod.fst := by
    simp
  unfold sort
  rw [hkeys, map_filterMap]
  refine filterMap_congr fun i _ => ?_
  rw [getElem?_map]

/-- Insertion sort. -/
def insertion : KeySort where
  order isAsc keys := (List.range keys.length).insertionSort
    fun i j => if isAsc then keys.getD i 0 ≤ keys.getD j 0 else keys.getD j 0 ≤ keys.getD i 0
  perm _ _ := perm_insertionSort _ _
  sorted isAsc keys := by
    rw [pairwise_map]
    let r : Nat → Nat → Prop := fun i j =>
      if isAsc then keys.getD i 0 ≤ keys.getD j 0 else keys.getD j 0 ≤ keys.getD i 0
    have : Std.Total r := ⟨fun i j => by
      cases isAsc
      · exact Nat.le_total _ _
      · exact Nat.le_total _ _⟩
    have : IsTrans Nat r := ⟨fun i j k hij hjk => by
      cases isAsc
      · exact Nat.le_trans hjk hij
      · exact Nat.le_trans hij hjk⟩
    exact pairwise_insertionSort r _

end KeySort

end HybridSE.Lib
