import Mathlib.Data.List.ReduceOption
import Mathlib.Order.Lattice
import Mathlib.Order.MinMax

/-!
# HybridSE.Lib.FoldFusion

Folds that run side by side, folds that skip missing values, and sequences of
writes.
-/

namespace HybridSE.Lib

open List

universe u v w

variable {α : Type u}

/-- One pass that steps a list of accumulators is a list of passes. -/
theorem foldl_zipWith_eq_map {σ : Type v} {ρ : Type w} (step : α → σ → ρ → σ) (init : α → σ)
    (xs : List α) (rows : List ρ) :
    rows.foldl (fun states row => xs.zipWith (fun x state => step x state row) states)
        (xs.map init) =
      xs.map fun x => rows.foldl (step x) (init x) := by
  induction rows generalizing init with
  | nil => rfl
  | cons row rows ih =>
    have hstep : xs.zipWith (fun x state => step x state row) (xs.map init) =
        xs.map fun x => step x (init x) row := by
      rw [zipWith_map_right, zipWith_self]
    rw [foldl_cons, hstep]
    exact ih fun x => step x (init x) row

/-- A step on values, lifted to values that may be missing. -/
def skipNone {σ : Type v} {α : Type u} (f : σ → α → σ) (state : σ) : Option α → σ
  | none => state
  | some x => f state x

theorem foldl_skipNone {σ : Type v} (f : σ → α → σ) (init : σ) (xs : List (Option α)) :
    xs.foldl (skipNone f) init = xs.reduceOption.foldl f init := by
  induction xs generalizing init with
  | nil => rfl
  | cons x xs ih =>
    cases x with
    | none => exact ih init
    | some x => exact ih (f init x)

theorem foldl_add_one (xs : List α) (n : Nat) :
    xs.foldl (fun count _ => count + 1) n = n + xs.length := by
  induction xs generalizing n with
  | nil => rfl
  | cons x xs ih =>
    rw [foldl_cons, ih, length_cons]
    omega

/-- A running minimum from above all values is the minimum. -/
theorem foldl_min_of_le [LinearOrder α] {xs} {top : α} (h : ∀ x ∈ xs, x ≤ top) (hne : xs ≠ []) :
    some (xs.foldl min top) = xs.min? := by
  cases xs with
  | nil => exact absurd rfl hne
  | cons x xs =>
    rw [foldl_cons, min_eq_right (h x mem_cons_self)]
    rfl

theorem foldl_max_of_le [LinearOrder α] {xs} {bot : α} (h : ∀ x ∈ xs, bot ≤ x) (hne : xs ≠ []) :
    some (xs.foldl max bot) = xs.max? := by
  cases xs with
  | nil => exact absurd rfl hne
  | cons x xs =>
    rw [foldl_cons, max_eq_right (h x mem_cons_self)]
    rfl

/-! ### Writes -/

/-- What stands at `key` after some writes: the last one counts. -/
def lastWrite {κ : Type u} [DecidableEq κ] {α : Type v} (writes : List (κ × α)) (key : κ) :
    Option α :=
  (writes.reverse.find? fun write => decide (write.1 = key)).map Prod.snd

/-- If all writes to a key write the same, that is what stands there. -/
theorem lastWrite_eq_some {κ : Type u} [DecidableEq κ] {α : Type v} {writes : List (κ × α)}
    {key val} (hmem : (key, val) ∈ writes) (hall : ∀ val', (key, val') ∈ writes → val' = val) :
    lastWrite writes key = some val := by
  unfold lastWrite
  cases hfind : writes.reverse.find? fun write => decide (write.1 = key) with
  | none =>
    have := find?_eq_none.mp hfind (key, val) (mem_reverse.mpr hmem)
    exact absurd (decide_eq_true rfl) this
  | some write =>
    obtain ⟨key', val'⟩ := write
    have hkey : key' = key := of_decide_eq_true (find?_some hfind :)
    subst hkey
    have hin := mem_reverse.mp (mem_of_find?_eq_some hfind)
    exact congrArg some (hall val' hin)

end HybridSE.Lib
