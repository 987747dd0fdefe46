import Mathlib.Data.List.Basic

/-!
# HybridSE.Lib.Term

Terms over variables and operators: evaluation, substitution, and how they compose.

A constant is an operator without arguments. The terms themselves are the freest meaning that
the operators can have (`eval_op`), so two substitutions that agree under every meaning agree
on the variables of the term (`subst_eq_iff`).
-/

namespace HybridSE.Lib

/-- Terms over variables and operators. -/
inductive Term (Var Op : Type*)
  | var (x : Var)
  | op (o : Op) (args : List (Term Var Op))

namespace Term

variable {Var Var' Op V : Type*}

/-- Induction with the hypothesis for every argument. -/
@[elab_as_elim]
theorem induct {P : Term Var Op → Prop} (var : ∀ x, P (.var x))
    (op : ∀ o args, (∀ t ∈ args, P t) → P (.op o args)) : ∀ t, P t
  | .var x => var x
  | .op o args => op o args (all args)
where
  all : ∀ args : List (Term Var Op), ∀ t ∈ args, P t
    | [], _, h => nomatch h
    | t :: _, _, .head _ => induct var op t
    | _ :: rest, _, .tail _ h => all rest _ h

mutual

/-- The value of a term. -/
def eval (ρ : Var → V) (meaning : Op → List V → V) : Term Var Op → V
  | .var x => ρ x
  | .op o args => meaning o (evalArgs ρ meaning args)

def evalArgs (ρ : Var → V) (meaning : Op → List V → V) : List (Term Var Op) → List V
  | [] => []
  | t :: rest => eval ρ meaning t :: evalArgs ρ meaning rest

end

mutual

/-- The variables, from left to right. -/
def vars : Term Var Op → List Var
  | .var x => [x]
  | .op _ args => varsArgs args

def varsArgs : List (Term Var Op) → List Var
  | [] => []
  | t :: rest => vars t ++ varsArgs rest

end

theorem evalArgs_eq (ρ : Var → V) (meaning : Op → List V → V) (args : List (Term Var Op)) :
    evalArgs ρ meaning args = args.map (eval ρ meaning) := by
  induction args with
  | nil => rfl
  | cons t rest ih => rw [evalArgs, ih, List.map_cons]

theorem varsArgs_eq (args : List (Term Var Op)) : varsArgs args = args.flatMap vars := by
  induction args with
  | nil => rfl
  | cons t rest ih => rw [varsArgs, ih, List.flatMap_cons]

/-- A term for every variable, all at once. -/
def subst (σ : Var → Term Var' Op) (t : Term Var Op) : Term Var' Op := t.eval σ .op

theorem eval_subst (σ : Var → Term Var' Op) (ρ : Var' → V) (meaning : Op → List V → V)
    (t : Term Var Op) :
    (t.subst σ).eval ρ meaning = t.eval (fun x => (σ x).eval ρ meaning) meaning := by
  induction t using induct with
  | var x => rfl
  | op o args ih =>
    have hargs : (args.map (eval σ .op)).map (eval ρ meaning) =
        args.map (eval (fun x => (σ x).eval ρ meaning) meaning) := by
      rw [List.map_map]
      exact List.map_congr_left ih
    rw [subst, eval, eval, eval, evalArgs_eq, evalArgs_eq, evalArgs_eq, hargs]

theorem eval_congr {ρ ρ'} {meaning : Op → List V → V} {t : Term Var Op}
    (h : ∀ x ∈ t.vars, ρ x = ρ' x) : t.eval ρ meaning = t.eval ρ' meaning := by
  induction t using induct with
  | var x => exact h x (List.mem_singleton.mpr rfl)
  | op o args ih =>
    rw [vars, varsArgs_eq] at h
    rw [eval, eval, evalArgs_eq, evalArgs_eq]
    exact congrArg _ (List.map_congr_left fun t ht =>
      ih t ht fun x hx => h x (List.mem_flatMap.mpr ⟨t, ht, hx⟩))

theorem subst_eq_iff {σ τ : Var → Term Var' Op} {t : Term Var Op} :
    t.subst σ = t.subst τ ↔ ∀ x ∈ t.vars, σ x = τ x := by
  refine ⟨fun h => ?_, eval_congr⟩
  induction t using induct with
  | var x => exact List.forall_mem_singleton.mpr h
  | op o args ih =>
    rw [subst, subst, eval, eval, evalArgs_eq, evalArgs_eq] at h
    obtain ⟨-, hargs⟩ := Term.op.inj h
    rw [vars, varsArgs_eq]
    intro x hx
    obtain ⟨t, ht, hxt⟩ := List.mem_flatMap.mp hx
    exact ih t ht (List.map_inj_left.mp hargs t ht) x hxt

end Term

end HybridSE.Lib
