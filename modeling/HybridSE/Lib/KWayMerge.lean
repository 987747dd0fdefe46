import HybridSE.Lib.PrefixWindow
import Mathlib.Data.List.Perm.Basic
import Mathlib.Order.Basic

/-!
# HybridSE.Lib.KWayMerge

Merging several sorted lists by repeatedly taking the head that a `pick`
function selects.

The elements are compared by a key only, so the merge is not determined by its
elements: among equal keys the order is that of the lists they come from.
`Picks` says which head a `pick` function takes and, through `arrange`, in which
order it prefers the lists (`id` for the first list among equal keys,
`List.reverse` for the last). For such a `pick` the merge is the stable merge of
the arranged lists (`isStableMerge_kwayMerge`): it is sorted and its elements of
one key are those of the lists, in that order. There is only one such list
(`IsStableMerge.unique`).
-/

namespace HybridSE.Lib

open List

variable {α κ : Type*}

/-- Take the picked heads one after the other, at most the given number. -/
def kwayMerge (pick : List (List α) → Option Nat) : Nat → List (List α) → List α
  | 0, _ => []
  | n + 1, segs =>
    match pick segs with
    | none => []
    | some i =>
      match segs[i]? with
      | some (x :: rest) => x :: kwayMerge pick n (segs.set i rest)
      | _ => []

/-- `pick` takes a `le`-least head of `segs`: none only if every list is empty,
and otherwise one that is strictly before the heads of the lists preferred to
its own (those in front of it in `arrange segs`). -/
structure PicksAt (key : α → κ) (le : κ → κ → Prop)
    (arrange : List (List α) → List (List α)) (pick : List (List α) → Option Nat)
    (segs : List (List α)) : Prop where
  of_none : pick segs = none → (arrange segs).flatten = []
  of_some : ∀ i, pick segs = some i → ∃ before x rest after,
    segs[i]? = some (x :: rest) ∧
    arrange segs = before ++ (x :: rest) :: after ∧
    arrange (segs.set i rest) = before ++ rest :: after ∧
    (∀ seg ∈ before, ∀ y ∈ seg.head?, le (key x) (key y) ∧ key x ≠ key y) ∧
    (∀ seg ∈ after, ∀ y ∈ seg.head?, le (key x) (key y))

/-- `pick` works on all lists whose elements satisfy `P`. -/
def Picks (P : α → Prop) (key : α → κ) (le : κ → κ → Prop)
    (arrange : List (List α) → List (List α)) (pick : List (List α) → Option Nat) : Prop :=
  ∀ segs, (∀ x ∈ (arrange segs).flatten, P x) → PicksAt key le arrange pick segs

/-- Sorted by key. -/
def KeySorted (key : α → κ) (le : κ → κ → Prop) (xs : List α) : Prop :=
  xs.Pairwise fun x y => le (key x) (key y)

/-- `xs` is the stable merge of `segs`: sorted, and among equal keys in the order
of the lists. -/
structure IsStableMerge [DecidableEq κ] (key : α → κ) (le : κ → κ → Prop) (segs : List (List α))
    (xs : List α) : Prop where
  sorted : KeySorted key le xs
  filter_eq : ∀ c, xs.filter (fun x => decide (key x = c)) =
    segs.flatten.filter (fun x => decide (key x = c))

section Unique

variable [DecidableEq κ] {key : α → κ} {le : κ → κ → Prop}

/-- A sorted list is determined by its elements of each key, in order. -/
theorem eq_of_pairwise_of_filter_eq (hanti : ∀ a b, le a b → le b a → a = b) :
    ∀ {xs ys : List α}, KeySorted key le xs → KeySorted key le ys →
      (∀ c, xs.filter (fun x => decide (key x = c)) = ys.filter (fun x => decide (key x = c))) →
      xs = ys
  | [], [], _, _, _ => rfl
  | [], y :: ys, _, _, h => by
      have := h (key y)
      simp at this
  | x :: xs, [], _, _, h => by
      have := h (key x)
      simp at this
  | x :: xs, y :: ys, hx, hy, h => by
      obtain ⟨hx, hxs⟩ := pairwise_cons.mp hx
      obtain ⟨hy, hys⟩ := pairwise_cons.mp hy
      have hmem : ∀ {a b : α} {as bs : List α},
          (a :: as).filter (fun z => decide (key z = key a)) =
            (b :: bs).filter (fun z => decide (key z = key a)) → a ∈ b :: bs := by
        intro a b as bs hab
        have : a ∈ (a :: as).filter (fun z => decide (key z = key a)) := by simp
        rw [hab] at this
        exact (mem_filter.mp this).1
      have hkey : key x = key y := by
        rcases mem_cons.mp (hmem (h (key x))) with rfl | hxy
        · rfl
        · rcases mem_cons.mp (hmem (h (key y)).symm) with rfl | hyx
          · rfl
          · exact hanti _ _ (hx y hyx) (hy x hxy)
      have hhead := h (key x)
      rw [filter_cons_of_pos (by simp), filter_cons_of_pos (by simp [hkey])] at hhead
      obtain rfl := (cons_eq_cons.mp hhead).1
      refine congrArg (x :: ·) (eq_of_pairwise_of_filter_eq hanti hxs hys fun c => ?_)
      have hc := h c
      by_cases hxc : key x = c
      · rw [filter_cons_of_pos (by simp [hxc]), filter_cons_of_pos (by simp [hxc])] at hc
        exact (cons_eq_cons.mp hc).2
      · rwa [filter_cons_of_neg (by simp [hxc]), filter_cons_of_neg (by simp [hxc])] at hc

/-- Selecting one key after a test on keys. -/
theorem filter_key_filter (key : α → κ) (p : κ → Bool) (c : κ) (xs : List α) :
    (xs.filter fun x => p (key x)).filter (fun x => decide (key x = c)) =
      if p c then xs.filter (fun x => decide (key x = c)) else [] := by
  rw [List.filter_filter]
  split
  · next hp =>
      refine filter_congr fun x _ => ?_
      by_cases hx : key x = c
      · simp [hx, hp]
      · simp [hx]
  · next hp =>
      refine filter_eq_nil_iff.mpr fun x _ hx => hp ?_
      simp only [Bool.and_eq_true, decide_eq_true_eq] at hx
      rw [← hx.1]
      exact hx.2

variable {segs : List (List α)} {xs : List α}

/-- There is only one stable merge. -/
theorem IsStableMerge.unique (hanti : ∀ a b, le a b → le b a → a = b) {segs' : List (List α)}
    {ys : List α} (hx : IsStableMerge key le segs xs) (hy : IsStableMerge key le segs' ys)
    (h : ∀ c, segs.flatten.filter (fun x => decide (key x = c)) = segs'.flatten.filter (fun x =>
      decide (key x = c))) : xs = ys :=
  eq_of_pairwise_of_filter_eq hanti hx.sorted hy.sorted fun c => by
    rw [hx.filter_eq, hy.filter_eq, h]

theorem IsStableMerge.mem_iff (h : IsStableMerge key le segs xs) {y} :
    y ∈ xs ↔ y ∈ segs.flatten := by
  have hmem : ∀ zs : List α, y ∈ zs ↔ y ∈ zs.filter (fun x => decide (key x = key y)) := by
    simp
  rw [hmem, h.filter_eq, ← hmem]

/-- The merge is a rearrangement of the lists. -/
theorem IsStableMerge.perm (h : IsStableMerge key le segs xs) : xs.Perm segs.flatten := by
  classical
  refine perm_iff_count.mpr fun x => ?_
  have hcount : ∀ ys : List α,
      ys.count x = (ys.filter fun y => decide (key y = key x)).count x := by
    intro ys
    exact (count_filter (by simp)).symm
  rw [hcount xs, hcount segs.flatten, h.filter_eq]

omit [DecidableEq κ] in
/-- A sorted list is cut at a key by the two tests on the key. -/
theorem KeySorted.filter_append_filter (h : KeySorted key le xs) {p : κ → Bool}
    (hp : ∀ a b, le a b → p b = true → p a = true) :
    xs.filter (fun x => p (key x)) ++ xs.filter (fun x => !p (key x)) = xs := by
  have hanti : xs.Pairwise fun x y => p (key y) = true → p (key x) = true :=
    h.imp fun {x y} hxy => hp _ _ hxy
  rw [← takeWhile_eq_filter hanti, ← dropWhile_eq_filter hanti, takeWhile_append_dropWhile]

/-- Reading everything backwards: lists, their order and the merge. -/
theorem IsStableMerge.reverse (h : IsStableMerge key le segs xs) :
    IsStableMerge key (fun a b => le b a) (segs.map List.reverse).reverse xs.reverse where
  sorted := pairwise_reverse.mpr h.sorted
  filter_eq := fun c => by
    rw [filter_reverse, h.filter_eq, ← reverse_flatten, filter_reverse]

/-- Selecting by key commutes with merging. -/
theorem IsStableMerge.filter (h : IsStableMerge key le segs xs) (p : κ → Bool) :
    IsStableMerge key le (segs.map fun seg => seg.filter fun x => p (key x))
      (xs.filter fun x => p (key x)) where
  sorted := h.sorted.sublist filter_sublist
  filter_eq := fun c => by
    rw [filter_comm, h.filter_eq, ← filter_flatten, filter_comm]

end Unique

section Merge

variable {key : α → κ} {le : κ → κ → Prop} {P : α → Prop}
  {arrange : List (List α) → List (List α)} {pick : List (List α) → Option Nat}

variable {segs : List (List α)} {n : Nat}

/-- One step of the merge. -/
theorem kwayMerge_succ (hpick : Picks P key le arrange pick)
    (hP : ∀ x ∈ (arrange segs).flatten, P x) (n : Nat) :
    ((arrange segs).flatten = [] ∧ kwayMerge pick (n + 1) segs = []) ∨
    ∃ before x rest after segs',
      kwayMerge pick (n + 1) segs = x :: kwayMerge pick n segs' ∧
      arrange segs = before ++ (x :: rest) :: after ∧
      arrange segs' = before ++ rest :: after ∧
      (∀ seg ∈ before, ∀ y ∈ seg.head?, le (key x) (key y) ∧ key x ≠ key y) ∧
      (∀ seg ∈ after, ∀ y ∈ seg.head?, le (key x) (key y)) := by
  have hat := hpick segs hP
  cases hi : pick segs with
  | none => exact Or.inl ⟨hat.of_none hi, by simp [kwayMerge, hi]⟩
  | some i =>
    obtain ⟨before, x, rest, after, hget, harr, hset, hbefore, hafter⟩ := hat.of_some i hi
    refine Or.inr ⟨before, x, rest, after, segs.set i rest, ?_, harr, hset, hbefore, hafter⟩
    simp [kwayMerge, hi, hget]

/-- In a sorted list what is after the head is after every `x` before the head. -/
theorem KeySorted.le_of_head (htrans : ∀ a b c, le a b → le b c → le a c) {c seg}
    (hseg : KeySorted key le seg) (hhead : ∀ y ∈ seg.head?, le c (key y)) {y} (hy : y ∈ seg) :
    le c (key y) := by
  cases seg with
  | nil => exact absurd hy not_mem_nil
  | cons h t =>
    rcases mem_cons.mp hy with rfl | hy
    · exact hhead y rfl
    · exact htrans _ _ _ (hhead h rfl) ((pairwise_cons.mp hseg).1 y hy)

/-- The same with the key ruled out: a list whose head is strictly after `c` has
no element of key `c`. -/
theorem KeySorted.ne_of_head (hanti : ∀ a b, le a b → le b a → a = b) {c seg}
    (hseg : KeySorted key le seg) (hhead : ∀ y ∈ seg.head?, le c (key y) ∧ c ≠ key y) {y}
    (hy : y ∈ seg) : key y ≠ c := by
  cases seg with
  | nil => exact absurd hy not_mem_nil
  | cons h t =>
    intro hyc
    obtain ⟨hle, hne⟩ := hhead h rfl
    rcases mem_cons.mp hy with rfl | hy
    · exact hne hyc.symm
    · have hhy := (pairwise_cons.mp hseg).1 y hy
      rw [hyc] at hhy
      exact hne (hanti _ _ hle hhy)

/-- Lists ready to be merged in at most `n` steps. -/
structure Ready (P : α → Prop) (key : α → κ) (le : κ → κ → Prop) (n : Nat)
    (segs : List (List α)) : Prop where
  all : ∀ x ∈ segs.flatten, P x
  sorted : ∀ seg ∈ segs, KeySorted key le seg
  fuel : segs.flatten.length ≤ n

/-- Taking a head leaves the lists ready. -/
theorem Ready.step {before after : List (List α)} {x : α} {rest : List α}
    (h : Ready P key le (n + 1) (before ++ (x :: rest) :: after)) :
    Ready P key le n (before ++ rest :: after) where
  all := by
    intro y hy
    refine h.all y ?_
    simp only [flatten_append, mem_append] at hy ⊢
    tauto
  sorted := by
    intro seg hseg
    rcases mem_append.mp hseg with hseg | hseg
    · exact h.sorted seg (mem_append_left _ hseg)
    · rcases mem_cons.mp hseg with rfl | hseg
      · exact (pairwise_cons.mp (h.sorted (x :: seg) (by simp))).2
      · exact h.sorted seg (by simp [hseg])
  fuel := by
    have hlen := h.fuel
    simp only [flatten_append, flatten_cons, length_append,
      length_cons] at hlen ⊢
    omega

variable [DecidableEq κ]

/-- Within one key the merge keeps the order of the arranged lists. -/
theorem kwayMerge_filter (hpick : Picks P key le arrange pick)
    (hanti : ∀ a b, le a b → le b a → a = b) (c : κ) (h : Ready P key le n (arrange segs)) :
    (kwayMerge pick n segs).filter (fun x => decide (key x = c)) =
      (arrange segs).flatten.filter (fun x => decide (key x = c)) := by
  induction n generalizing segs with
  | zero =>
    rw [length_eq_zero_iff.mp (Nat.le_zero.mp h.fuel)]
    rfl
  | succ n ih =>
    rcases kwayMerge_succ hpick h.all n with ⟨hnil, hmerge⟩ |
      ⟨before, x, rest, after, segs', hmerge, harr, harr', hbefore, -⟩
    · rw [hnil, hmerge]
    · rw [harr] at h
      have hih := @ih segs' (by rw [harr']; exact h.step)
      rw [hmerge, harr]
      rw [harr'] at hih
      simp only [flatten_append, flatten_cons, filter_append,
        filter_cons] at hih ⊢
      by_cases hc : key x = c
      · -- the preferred lists have no element of this key, so `x` is the first one
        have hnone : before.flatten.filter (fun y => decide (key y = c)) = [] := by
          refine filter_eq_nil_iff.mpr fun y hy => ?_
          obtain ⟨seg, hseg, hy⟩ := mem_flatten.mp hy
          have := (h.sorted seg (mem_append_left _ hseg)).ne_of_head hanti
            (hbefore seg hseg) hy
          simpa [← hc] using this
        rw [hnone] at hih ⊢
        simp only [hc, decide_true, if_true, hih, nil_append, cons_append]
      · simp only [hc, decide_false, Bool.false_eq_true, if_false, hih]

/-- The merge is the stable merge of the arranged lists. -/
theorem isStableMerge_kwayMerge (hpick : Picks P key le arrange pick)
    (htrans : ∀ a b c, le a b → le b c → le a c) (hanti : ∀ a b, le a b → le b a → a = b)
    (h : Ready P key le n (arrange segs)) :
    IsStableMerge key le (arrange segs) (kwayMerge pick n segs) := by
  refine ⟨?_, fun c => kwayMerge_filter hpick hanti c h⟩
  induction n generalizing segs with
  | zero => exact List.Pairwise.nil
  | succ n ih =>
    rcases kwayMerge_succ hpick h.all n with ⟨-, hmerge⟩ |
      ⟨before, x, rest, after, segs', hmerge, harr, harr', hbefore, hafter⟩
    · rw [hmerge]
      exact List.Pairwise.nil
    · rw [harr] at h
      have hready : Ready P key le n (arrange segs') := by
        rw [harr']
        exact h.step
      have htail : IsStableMerge key le (arrange segs') (kwayMerge pick n segs') :=
        ⟨ih hready, fun c => kwayMerge_filter hpick hanti c hready⟩
      rw [hmerge]
      refine pairwise_cons.mpr ⟨fun y hy => ?_, htail.sorted⟩
      rw [htail.mem_iff, harr'] at hy
      obtain ⟨seg, hseg, hyseg⟩ := mem_flatten.mp hy
      rcases mem_append.mp hseg with hseg | hseg
      · exact (h.sorted seg (mem_append_left _ hseg)).le_of_head htrans
          (fun z hz => (hbefore seg hseg z hz).1) hyseg
      · rcases mem_cons.mp hseg with rfl | hseg
        · exact (pairwise_cons.mp (h.sorted (x :: seg) (by simp))).1 y hyseg
        · exact (h.sorted seg (by simp [hseg])).le_of_head htrans (hafter seg hseg) hyseg

end Merge

end HybridSE.Lib
