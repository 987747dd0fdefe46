import Mathlib.Data.Finset.Card
import Mathlib.Data.Finset.Image
import Mathlib.Data.Finset.Max
import Mathlib.Data.Finset.Powerset

/-!
# HybridSE.Lib.SubsetSearch

The search for the largest set of a family that a list of elements contains, by taking out
one position after the other. `col` gives the element at a position, `F` is the family, and a
node of the search is the set `B` of positions that are left.

The search ends at a node whose elements are a set of `F`, and otherwise goes on below the
first position that can be taken out without losing the largest size (`Removable`). So it finds the
set that is `Latest`: the largest one that does without the elements whose last position comes
first. The positions of its elements that are left at the end are those `kept`: of an element
that occurs again behind it nothing is left, as long as there is something else to take out
behind it.
-/

namespace HybridSE.Lib.SubsetSearch

variable {C : Type*} [DecidableEq C]

section Defs

variable (col : Nat → C) (F : Set (Finset C)) (B : Finset Nat)

/-- A set of the family whose elements are left. -/
def Within (K : Finset C) : Prop := K ∈ F ∧ K ⊆ B.image col

/-- One of the largest such sets. -/
def Largest (K : Finset C) : Prop :=
  Within col F B K ∧ ∀ K', Within col F B K' → K'.card ≤ K.card

/-- The element at position `i` does not occur behind it. -/
def IsLast (i : Nat) : Prop := ∀ k ∈ B, i < k → col k ≠ col i

/-- The first element, in the order of last positions, that is in one of the sets and not in the
other one is not in `K`. -/
def Later (K K' : Finset C) : Prop :=
  ∃ i ∈ B, IsLast col B i ∧ col i ∉ K ∧ col i ∈ K' ∧
    ∀ j ∈ B, j < i → IsLast col B j → (col j ∈ K ↔ col j ∈ K')

/-- The latest one of the largest sets. -/
def Latest (K : Finset C) : Prop :=
  Largest col F B K ∧ ∀ K', Largest col F B K' → K' ≠ K → Later col B K K'

/-- The position can be taken out, and one of the largest sets stays. -/
def Removable (i : Nat) : Prop := i ∈ B ∧ ∃ K, Largest col F B K ∧ K ⊆ (B.erase i).image col

instance decidableIsLast (i : Nat) : Decidable (IsLast col B i) :=
  inferInstanceAs (Decidable (∀ k ∈ B, i < k → col k ≠ col i))

/-- The positions that are left when the search ends. -/
def kept (K : Finset C) : Finset Nat :=
  B.filter fun i => col i ∈ K ∧ ((∀ j ∈ B, i < j → col j ∈ K) ∨ IsLast col B i)

end Defs

variable {col : Nat → C} {F : Set (Finset C)} {B : Finset Nat} {K : Finset C} {i : Nat}

theorem image_erase_subset (B : Finset Nat) (i : Nat) : (B.erase i).image col ⊆ B.image col :=
  Finset.image_subset_image (Finset.erase_subset i B)

theorem Within.of_erase (h : Within col F (B.erase i) K) : Within col F B K :=
  ⟨h.1, h.2.trans (image_erase_subset B i)⟩

/-- A set survives without a position unless its element is nowhere else. -/
theorem subset_image_erase_iff (hK : K ⊆ B.image col) :
    K ⊆ (B.erase i).image col ↔ (col i ∈ K → ∃ k ∈ B, k ≠ i ∧ col k = col i) := by
  constructor
  · intro hsub hi
    obtain ⟨k, hk, hcol⟩ := Finset.mem_image.mp (hsub hi)
    obtain ⟨hne, hk⟩ := Finset.mem_erase.mp hk
    exact ⟨k, hk, hne, hcol⟩
  · intro h c hc
    obtain ⟨k, hk, rfl⟩ := Finset.mem_image.mp (hK hc)
    by_cases hki : k = i
    · subst hki
      obtain ⟨k', hk', hne, hcol⟩ := h hc
      exact Finset.mem_image.mpr ⟨k', Finset.mem_erase.mpr ⟨hne, hk'⟩, hcol⟩
    · exact Finset.mem_image.mpr ⟨k, Finset.mem_erase.mpr ⟨hki, hk⟩, rfl⟩

theorem exists_largest (h : Within col F B K) : ∃ K', Largest col F B K' := by
  classical
  have hne : ((B.image col).powerset.filter (Within col F B)).Nonempty :=
    ⟨K, Finset.mem_filter.mpr ⟨Finset.mem_powerset.mpr h.2, h⟩⟩
  obtain ⟨K', hK', hmax⟩ := Finset.exists_max_image _ Finset.card hne
  refine ⟨K', (Finset.mem_filter.mp hK').2, fun K'' hK'' => hmax K'' ?_⟩
  exact Finset.mem_filter.mpr ⟨Finset.mem_powerset.mpr hK''.2, hK''⟩

/-- There is one latest set. -/
theorem Latest.unique {K'} (h : Latest col F B K) (h' : Latest col F B K') : K = K' := by
  by_contra hne
  obtain ⟨i, hi, hlast, hnot, hmem, hbefore⟩ := h.2 K' h'.1 (Ne.symm hne)
  obtain ⟨i', hi', hlast', hnot', hmem', hbefore'⟩ := h'.2 K h.1 hne
  rcases Nat.lt_trichotomy i i' with hlt | rfl | hgt
  · exact hnot ((hbefore' i hi hlt hlast).mp hmem)
  · exact hnot hmem'
  · exact hnot' ((hbefore i' hi' hgt hlast').mp hmem')

/-! ### The end of the search -/

theorem latest_image (h : B.image col ∈ F) : Latest col F B (B.image col) := by
  refine ⟨⟨⟨h, subset_rfl⟩, fun K' hK' => Finset.card_le_card hK'.2⟩, fun K' hK' hne => ?_⟩
  exact absurd (Finset.eq_of_subset_of_card_le hK'.1.2 (hK'.2 _ ⟨h, subset_rfl⟩)) hne

theorem kept_image : kept col B (B.image col) = B := by
  refine Finset.filter_true_of_mem fun i hi => ?_
  exact ⟨Finset.mem_image_of_mem col hi, .inl fun j hj _ => Finset.mem_image_of_mem col hj⟩

/-! ### One position less -/

/-- A position whose element is not in a largest set. -/
theorem Largest.removable (h : Largest col F B K) (hi : i ∈ B) (hcol : col i ∉ K) :
    Removable col F B i :=
  ⟨hi, K, h, (subset_image_erase_iff h.1.2).mpr fun hmem => absurd hmem hcol⟩

/-- The search goes on until the elements are a set of the family. -/
theorem exists_removable (h : Within col F B K) (hB : B.image col ∉ F) :
    ∃ i, Removable col F B i := by
  obtain ⟨K', hK'⟩ := exists_largest h
  have hnot : ¬ B.image col ⊆ K' := fun hsub =>
    hB (subset_antisymm hsub hK'.1.2 ▸ hK'.1.1)
  obtain ⟨c, hc, hcK⟩ := Finset.not_subset.mp hnot
  obtain ⟨i, hi, rfl⟩ := Finset.mem_image.mp hc
  exact ⟨i, hK'.removable hi hcK⟩

/-- Below a removable position the largest sets are of the same size. -/
theorem Removable.largest (hi : Removable col F B i) (h : Largest col F (B.erase i) K) :
    Largest col F B K := by
  obtain ⟨-, K₀, hK₀, hsub⟩ := hi
  refine ⟨h.1.of_erase, fun K' hK' => ?_⟩
  exact (hK₀.2 K' hK').trans (h.2 K₀ ⟨hK₀.1.1, hsub⟩)

/-- A largest set that is left without the position is largest there. -/
theorem Largest.erase (h : Largest col F B K) (hsub : K ⊆ (B.erase i).image col) :
    Largest col F (B.erase i) K :=
  ⟨⟨h.1.1, hsub⟩, fun K' hK' => h.2 K' hK'.of_erase⟩

section Least

variable (hi : Removable col F B i) (hmin : ∀ j, Removable col F B j → i ≤ j)
include hi hmin

/-- Before the first removable position every element is in all largest sets, and is not
repeated. -/
theorem before_least {j} (hj : j ∈ B) (hlt : j < i) :
    IsLast col B j ∧ ∀ K', Largest col F B K' → col j ∈ K' := by
  have hnot : ¬ Removable col F B j := fun h => absurd (hmin j h) (by omega)
  refine ⟨fun k hk hjk hcol => hnot ?_, fun K' hK' => ?_⟩
  · obtain ⟨-, K₀, hK₀, -⟩ := hi
    exact ⟨hj, K₀, hK₀, (subset_image_erase_iff hK₀.1.2).mpr fun _ => ⟨k, hk, by omega, hcol⟩⟩
  · by_contra hcol
    exact hnot (hK'.removable hj hcol)

/-- What is latest below the first removable position is latest. -/
theorem latest_of_erase (h : Latest col F (B.erase i) K) : Latest col F B K := by
  have hlargest := hi.largest h.1
  refine ⟨hlargest, fun K' hK' hne => ?_⟩
  by_cases hsub : K' ⊆ (B.erase i).image col
  · obtain ⟨l, hl, hlast, hnot, hmem, hbefore⟩ := h.2 K' (hK'.erase hsub) hne
    have hlB := Finset.mem_of_mem_erase hl
    refine ⟨l, hlB, ?_, hnot, hmem, fun j hj hjl hjlast => ?_⟩
    · intro k hk hlk hcol
      by_cases hki : k = i
      · subst hki
        exact (before_least hi hmin hlB hlk).1 k hk hlk hcol
      · exact hlast k (Finset.mem_erase.mpr ⟨hki, hk⟩) hlk hcol
    · by_cases hji : j = i
      · subst hji
        -- nothing contains the element of a last position that is taken out
        have hout : ∀ K'', K'' ⊆ (B.erase j).image col → K'' ⊆ B.image col → col j ∉ K'' := by
          intro K'' hK'' hB hmem''
          obtain ⟨k, hk, hkj, hcol⟩ := (subset_image_erase_iff hB).mp hK'' hmem''
          rcases Nat.lt_or_gt_of_ne hkj with hlt | hgt
          · exact (before_least hi hmin hk hlt).1 j hj hlt hcol.symm
          · exact hjlast k hk hgt hcol
        exact iff_of_false (hout K h.1.1.2 hlargest.1.2) (hout K' hsub hK'.1.2)
      · exact hbefore j (Finset.mem_erase.mpr ⟨hji, hj⟩) hjl
          fun k hk hjk => hjlast k (Finset.mem_of_mem_erase hk) hjk
  · -- the other set needs the position
    have hneed := mt (subset_image_erase_iff hK'.1.2).mpr hsub
    push Not at hneed
    obtain ⟨hmem, honly⟩ := hneed
    refine ⟨i, hi.1, fun k hk hik => honly k hk (by omega), fun hK => ?_, hmem, ?_⟩
    · obtain ⟨k, hk, hne, hcol⟩ := (subset_image_erase_iff hlargest.1.2).mp h.1.1.2 hK
      exact honly k hk hne hcol
    · intro j hj hlt _
      have hall := (before_least hi hmin hj hlt).2
      exact iff_of_true (hall K hlargest) (hall K' hK')

/-- The first removable position is not among those that are left at the end. -/
theorem kept_erase (hB : B.image col ∉ F) (h : Largest col F (B.erase i) K) :
    kept col (B.erase i) K = kept col B K := by
  have hlargest := hi.largest h
  have hout : i ∉ kept col B K := by
    intro hmem
    obtain ⟨-, hK, hor⟩ := Finset.mem_filter.mp hmem
    rcases hor with hall | hlast
    · -- some element is in no set found below, and it is behind
      have hnot : ¬ B.image col ⊆ K := fun hsub =>
        hB (subset_antisymm hsub hlargest.1.2 ▸ hlargest.1.1)
      obtain ⟨c, hc, hcK⟩ := Finset.not_subset.mp hnot
      obtain ⟨j, hj, rfl⟩ := Finset.mem_image.mp hc
      have hij := hmin j (hlargest.removable hj hcK)
      have hne : i ≠ j := by
        rintro rfl
        exact hcK hK
      exact hcK (hall j hj (by omega))
    · obtain ⟨k, hk, hki, hcol⟩ := (subset_image_erase_iff hlargest.1.2).mp h.1.2 hK
      rcases Nat.lt_or_gt_of_ne hki with hlt | hgt
      · exact (before_least hi hmin hk hlt).1 i hi.1 hlt hcol.symm
      · exact hlast k hk hgt hcol
  ext j
  by_cases hji : j = i
  · subst hji
    exact iff_of_false (fun hmem => (Finset.mem_erase.mp (Finset.mem_filter.mp hmem).1).1 rfl) hout
  · unfold kept
    rw [Finset.mem_filter, Finset.mem_filter, Finset.mem_erase]
    rcases Nat.lt_or_gt_of_ne hji with hlt | hgt
    · -- before it nothing is repeated
      constructor
      · intro ⟨⟨_, hj⟩, hK, _⟩
        exact ⟨hj, hK, .inr (before_least hi hmin hj hlt).1⟩
      · intro ⟨hj, hK, _⟩
        exact ⟨⟨hji, hj⟩, hK, .inr fun k hk hjk =>
          (before_least hi hmin hj hlt).1 k (Finset.mem_of_mem_erase hk) hjk⟩
    · have hbehind : ∀ P : Nat → Prop,
          (∀ k ∈ B.erase i, j < k → P k) ↔ ∀ k ∈ B, j < k → P k := by
        intro P
        constructor
        · intro hall k hk hjk
          exact hall k (Finset.mem_erase.mpr ⟨by omega, hk⟩) hjk
        · intro hall k hk hjk
          exact hall k (Finset.mem_of_mem_erase hk) hjk
      unfold IsLast
      rw [hbehind, hbehind]
      simp [hji]

end Least

/-- The end of the search marks the positions of the set exactly when no element of the set that
stands before another element is repeated. -/
theorem kept_eq_filter_iff :
    kept col B K = B.filter (fun i => col i ∈ K) ↔
      ∀ i ∈ B, col i ∈ K → (∀ j ∈ B, i < j → col j ∈ K) ∨ IsLast col B i := by
  unfold kept
  rw [Finset.filter_inj']
  constructor
  · intro h i hi hK
    exact ((h hi).mpr hK).2
  · intro h i hi
    exact ⟨And.left, fun hK => ⟨hK, h i hi hK⟩⟩

end HybridSE.Lib.SubsetSearch
