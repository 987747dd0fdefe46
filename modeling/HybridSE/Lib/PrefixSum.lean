import Mathlib.Algebra.Ring.Nat
import Mathlib.Data.List.Basic
import Mathlib.Algebra.BigOperators.Group.List.Basic

/-!
# HybridSE.Lib.PrefixSum

Offsets of consecutive fields. Where the element `x` of a list takes `f x` units,
`prefixSum f xs i` is where the `i`-th element starts. Elements that take room
start at increasing offsets (`prefixSum_add_le`), so they do not overlap.
-/

namespace HybridSE.Lib

open List

variable {α : Type*}

/-- The room taken by the first `i` elements. -/
def prefixSum (f : α → Nat) (xs : List α) (i : Nat) : Nat := ((xs.take i).map f).sum

@[simp] theorem prefixSum_zero (f : α → Nat) (xs : List α) : prefixSum f xs 0 = 0 := by
  simp [prefixSum]

variable {xs : List α} {i : Nat}

theorem prefixSum_succ (f : α → Nat) {x} (h : xs[i]? = some x) :
    prefixSum f xs (i + 1) = prefixSum f xs i + f x := by
  simp [prefixSum, take_add_one, h]

theorem prefixSum_mono (f : α → Nat) (xs : List α) {j} (h : i ≤ j) :
    prefixSum f xs i ≤ prefixSum f xs j := by
  obtain ⟨d, rfl⟩ := Nat.exists_eq_add_of_le h
  simp [prefixSum, take_add, map_append, sum_append]

/-- An element's room ends before a later element starts. -/
theorem prefixSum_add_le (f : α → Nat) {j x} (h : xs[i]? = some x) (hij : i < j) :
    prefixSum f xs i + f x ≤ prefixSum f xs j := by
  rw [← prefixSum_succ f h]
  exact prefixSum_mono f xs hij

/-- The room of the whole list. -/
theorem prefixSum_length (f : α → Nat) (xs : List α) :
    prefixSum f xs xs.length = (xs.map f).sum := by
  simp [prefixSum]

theorem prefixSum_of_length_le (f : α → Nat) (h : xs.length ≤ i) :
    prefixSum f xs i = (xs.map f).sum := by
  unfold prefixSum
  rw [take_of_length_le h]

theorem prefixSum_le_sum (f : α → Nat) (xs : List α) (i : Nat) :
    prefixSum f xs i ≤ (xs.map f).sum := by
  rcases Nat.le_total i xs.length with h | h
  · exact Nat.le_trans (prefixSum_mono f xs h) (Nat.le_of_eq (prefixSum_length f xs))
  · exact Nat.le_of_eq (prefixSum_of_length_le f h)

theorem prefixSum_map {β : Type*} (f : β → Nat) (g : α → β) (xs : List α) (i : Nat) :
    prefixSum f (xs.map g) i = prefixSum (f ∘ g) xs i := by
  simp [prefixSum]

/-- Elements further back do not matter. -/
theorem prefixSum_append (f : α → Nat) (ys : List α) (h : i ≤ xs.length) :
    prefixSum f (xs ++ ys) i = prefixSum f xs i := by
  unfold prefixSum
  rw [take_append_of_le_length h]

end HybridSE.Lib
