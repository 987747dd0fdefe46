import Mathlib.Data.List.Forall2

/-!
# HybridSE.Lib.MapOption

Loops that read something for every element of a list and give up at the first failure:
`List.mapM` in `Option`. A run that succeeds is a list of results, one per element
(`mapM_eq_some_iff`), and it succeeds if every element does (`isSome_mapM_iff`).
-/

namespace HybridSE.Lib

open List Option

variable {α β : Type*} {f : α → Option β} {xs : List α} {ys : List β}

theorem mapM_eq_some_iff : xs.mapM f = some ys ↔ List.Forall₂ (fun x y => f x = some y) xs ys := by
  induction xs generalizing ys with
  | nil =>
    simp
  | cons x xs ih =>
    rw [mapM_cons, forall₂_cons_left_iff]
    constructor
    · intro h
      obtain ⟨y, hy, h⟩ := bind_eq_some_iff.mp h
      obtain ⟨rest, hrest, h⟩ := bind_eq_some_iff.mp h
      exact ⟨y, rest, hy, ih.mp hrest, (Option.some.inj h).symm⟩
    · rintro ⟨y, rest, hy, hrest, rfl⟩
      rw [hy, ih.mpr hrest]
      rfl

theorem forall₂_of_mapM (h : xs.mapM f = some ys) : List.Forall₂ (fun x y => f x = some y) xs ys :=
  mapM_eq_some_iff.mp h

theorem isSome_mapM_iff : (xs.mapM f).isSome ↔ ∀ x ∈ xs, (f x).isSome := by
  induction xs with
  | nil => exact iff_of_true rfl (forall_mem_nil _)
  | cons x xs ih =>
    rw [mapM_cons, forall_mem_cons, ← ih]
    cases f x with
    | none => simp
    | some y => cases xs.mapM f <;> simp

/-- A loop that never fails is a map. -/
theorem mapM_eq_some_map {g} (h : ∀ x ∈ xs, f x = some (g x)) : xs.mapM f = some (xs.map g) := by
  rw [mapM_eq_some_iff, forall₂_map_right_iff, forall₂_same]
  exact h

/-- A loop over the positions of a list is a loop over the list. -/
theorem mapM_range_eq {g} (h : ∀ i x, xs[i]? = some x → g i = f x) :
    (List.range xs.length).mapM g = xs.mapM f := by
  induction xs generalizing g with
  | nil => rfl
  | cons x xs ih =>
    have hrest : (List.range xs.length).mapM (fun i => g (i + 1)) = xs.mapM f :=
      ih fun i y hy => h (i + 1) y hy
    rw [length_cons, range_succ_eq_map, mapM_cons, mapM_cons, mapM_map,
      h 0 x rfl, ← hrest]
    rfl

theorem getElem?_of_forall₂ {r} (h : List.Forall₂ r xs ys) {i : Nat} {y} (hy : ys[i]? = some y) :
    ∃ x, xs[i]? = some x ∧ r x y := by
  induction h generalizing i with
  | nil => cases hy
  | cons hxy _ ih =>
    cases i with
    | zero =>
      cases hy
      exact ⟨_, rfl, hxy⟩
    | succ i => exact ih hy

/-- Every result belongs to an element. -/
theorem exists_of_mem_mapM (h : xs.mapM f = some ys) {y} (hy : y ∈ ys) :
    ∃ x ∈ xs, f x = some y := by
  obtain ⟨i, hi, rfl⟩ := getElem_of_mem hy
  obtain ⟨x, hx, hfx⟩ := getElem?_of_forall₂ (forall₂_of_mapM h) (getElem?_eq_getElem hi)
  exact ⟨x, mem_of_getElem? hx, hfx⟩

end HybridSE.Lib
