import Mathlib.Data.List.Basic

/-!
# HybridSE.Lib.AndTree

Conjunctions as trees, over three truth values.

A truth value is an `Option Bool`, `none` for unknown. Only its conjuncts matter for
whether a tree is true (`AndTree.eval_eq_true_iff`), so a tree may be taken apart
(`AndTree.conjuncts`) and some of the conjuncts put together again (`AndTree.ofList`).
-/

namespace HybridSE.Lib

/-- Conjunction of three truth values. -/
def and3 : Option Bool → Option Bool → Option Bool
  | some true, b => b
  | a, some true => a
  | some false, _ => some false
  | _, some false => some false
  | none, none => none

theorem and3_eq_true_iff {a b} : and3 a b = some true ↔ a = some true ∧ b = some true := by
  rcases a with _ | _ | _ <;> rcases b with _ | _ | _ <;> decide

/-- A tree of conjunctions, with the brackets of the source text. -/
inductive AndTree (α : Type*)
  | leaf (a : α)
  | bracket (t : AndTree α)
  | and (left right : AndTree α)

namespace AndTree

variable {α : Type*} {v : α → Option Bool}

/-- The conjuncts from left to right. -/
def conjuncts : AndTree α → List α
  | leaf a => [a]
  | bracket t => conjuncts t
  | and left right => conjuncts left ++ conjuncts right

/-- The truth value of a tree, given those of its leaves. -/
def eval (v : α → Option Bool) : AndTree α → Option Bool
  | leaf a => v a
  | bracket t => eval v t
  | and left right => and3 (eval v left) (eval v right)

theorem eval_eq_true_iff (t : AndTree α) :
    t.eval v = some true ↔ ∀ a ∈ t.conjuncts, v a = some true := by
  induction t with
  | leaf a => simp [eval, conjuncts]
  | bracket t ih => exact ih
  | and left right ihl ihr =>
    rw [eval, and3_eq_true_iff, ihl, ihr, conjuncts, List.forall_mem_append]

/-- A tree with more conjuncts on its right. -/
def andAll (t : AndTree α) (as : List α) : AndTree α := as.foldl (fun t a => and t (leaf a)) t

/-- The conjunction of a list, from the left; an empty one is missing. -/
def ofList : List α → Option (AndTree α)
  | [] => none
  | a :: as => some ((leaf a).andAll as)

theorem conjuncts_andAll (t : AndTree α) (as : List α) :
    (t.andAll as).conjuncts = t.conjuncts ++ as := by
  induction as generalizing t with
  | nil => simp [andAll]
  | cons a as ih => exact (ih _).trans (by simp [conjuncts])

/-- A missing conjunction counts as true. -/
theorem ofList_eval_iff (as : List α) :
    (∀ t ∈ ofList as, t.eval v = some true) ↔ ∀ a ∈ as, v a = some true := by
  cases as with
  | nil => simp [ofList]
  | cons a as =>
    have hconj : ((leaf a).andAll as).conjuncts = a :: as := conjuncts_andAll _ _
    have htrue := eval_eq_true_iff (v := v) ((leaf a).andAll as)
    rw [hconj] at htrue
    rw [← htrue]
    simp [ofList]

end AndTree

end HybridSE.Lib
