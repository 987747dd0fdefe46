import Mathlib.Data.Finset.Card
import Mathlib.Data.List.Dedup
import Mathlib.Data.List.Nodup

/-!
# HybridSE.Lib.GroupBy

A list taken apart into the groups of equal keys. Which group comes first does not matter:
groups are compared up to permutation, each of them is a list in the order of the original.

`groups_perm` says when two lists have the same groups, under keys that need not be the
same. `groups_comp_perm_iff` is the converse for an encoding of the keys: the groups by the
encoded keys are the groups by the keys only if the encoding tells the keys apart.
-/

namespace HybridSE.Lib

open List

variable {α β γ κ ι : Type*} [DecidableEq κ] [DecidableEq ι]

/-- The elements of a list with equal keys, in order. -/
def groups (f : α → κ) (xs : List α) : List (List α) :=
  (xs.map f).dedup.map fun k => xs.filter fun x => decide (f x = k)

theorem length_groups (f : α → κ) (xs : List α) : (groups f xs).length = (xs.map f).dedup.length :=
  length_map _

theorem groups_map (f : β → κ) (h : α → β) (xs : List α) :
    groups f (xs.map h) = (groups (fun x => f (h x)) xs).map (List.map h) := by
  unfold groups
  rw [List.map_map, List.map_map]
  refine map_congr_left fun k _ => ?_
  rw [List.filter_map]
  rfl

/-- Lists have the same groups if their keys correspond to each other and so do the elements
of each key. -/
theorem groups_perm {f : α → κ} {g : β → ι} {p : α → γ} {q : β → γ} {xs : List α} {ys : List β}
    (φ : κ → ι) (hinj : ∀ x ∈ xs, ∀ x' ∈ xs, φ (f x) = φ (f x') → f x = f x')
    (hxs : ∀ x ∈ xs, ∃ y ∈ ys, g y = φ (f x)) (hys : ∀ y ∈ ys, ∃ x ∈ xs, g y = φ (f x))
    (hclass : ∀ x ∈ xs, (xs.filter fun x' => decide (f x' = f x)).map p =
      (ys.filter fun y => decide (g y = φ (f x))).map q) :
    ((groups f xs).map (List.map p)).Perm ((groups g ys).map (List.map q)) := by
  have hkeys : ((xs.map f).dedup.map φ).Perm (ys.map g).dedup := by
    refine (perm_ext_iff_of_nodup ?_ (nodup_dedup _)).mpr fun i => ?_
    · refine (nodup_dedup _).map_on fun k hk k' hk' heq => ?_
      obtain ⟨x, hx, rfl⟩ := List.mem_map.mp (mem_dedup.mp hk)
      obtain ⟨x', hx', rfl⟩ := List.mem_map.mp (mem_dedup.mp hk')
      exact hinj x hx x' hx' heq
    · rw [mem_dedup]
      constructor
      · intro hi
        obtain ⟨k, hk, rfl⟩ := List.mem_map.mp hi
        obtain ⟨x, hx, rfl⟩ := List.mem_map.mp (mem_dedup.mp hk)
        obtain ⟨y, hy, heq⟩ := hxs x hx
        exact heq ▸ List.mem_map_of_mem hy
      · intro hi
        obtain ⟨y, hy, rfl⟩ := List.mem_map.mp hi
        obtain ⟨x, hx, heq⟩ := hys y hy
        rw [heq]
        exact List.mem_map_of_mem (mem_dedup.mpr (List.mem_map_of_mem hx))
  unfold groups
  rw [List.map_map, List.map_map]
  refine List.Perm.trans (.of_eq ?_) (hkeys.map _)
  rw [List.map_map]
  refine map_congr_left fun k hk => ?_
  obtain ⟨x, hx, rfl⟩ := List.mem_map.mp (mem_dedup.mp hk)
  exact hclass x hx

/-- The groups by encoded keys are those by the keys exactly if the encoding tells the keys
in the list apart. -/
theorem groups_comp_perm_iff (f : α → κ) (φ : κ → ι) (p : α → γ) (xs : List α) :
    ((groups (fun x => φ (f x)) xs).map (List.map p)).Perm ((groups f xs).map (List.map p)) ↔
      ∀ x ∈ xs, ∀ x' ∈ xs, φ (f x) = φ (f x') → f x = f x' := by
  constructor
  · intro hperm x hx x' hx' heq
    have hlen := hperm.length_eq
    rw [length_map, length_map, length_groups, length_groups,
      ← List.card_toFinset, ← List.card_toFinset] at hlen
    have himage : (xs.map fun x => φ (f x)).toFinset = (xs.map f).toFinset.image φ := by
      ext i
      simp
    rw [himage, Finset.card_image_iff] at hlen
    exact hlen (by simpa using ⟨x, hx, rfl⟩) (by simpa using ⟨x', hx', rfl⟩) heq
  · intro hinj
    refine (groups_perm φ hinj (fun x hx => ⟨x, hx, rfl⟩) (fun x hx => ⟨x, hx, rfl⟩) ?_).symm
    intro x hx
    refine congrArg (List.map p) (filter_congr fun x' hx' => ?_)
    rw [Bool.eq_iff_iff, decide_eq_true_eq, decide_eq_true_eq]
    exact ⟨fun heq => congrArg φ heq, hinj x' hx' x hx⟩

end HybridSE.Lib
