import Mathlib.Data.List.Basic

/-!
# HybridSE.Lib.StepRun

Runs of a machine whose steps may be disabled: `step s a` is the state after the action `a`, or
`none` where `a` is not possible. What every step keeps, every run keeps (`runSteps_induction`).

For a machine whose steps are always possible, `Throughout` says that a property holds in
every state of a run, and `EachStep` that every step is of a given kind. If the property
survives a step exactly when the step is of that kind, the two are the same
(`throughout_iff_eachStep`).
-/

namespace HybridSE.Lib

variable {σ α : Type*} {step : σ → α → Option σ} {s s' : σ}

/-- The state after a sequence of actions. -/
def runSteps (step : σ → α → Option σ) (s : σ) (actions : List α) : Option σ := actions.foldlM step s

theorem runSteps_cons (a : α) (actions : List α) :
    runSteps step s (a :: actions) = (step s a).bind fun s' => runSteps step s' actions := rfl

theorem runSteps_induction {P : σ → Prop} (hstep : ∀ s a s', P s → step s a = some s' → P s')
    (h : P s) {actions} (hrun : runSteps step s actions = some s') : P s' := by
  induction actions generalizing s with
  | nil =>
    cases hrun
    exact h
  | cons a actions ih =>
    obtain ⟨s₁, hs₁, hrun⟩ := Option.bind_eq_some_iff.mp hrun
    exact ih (hstep s a s₁ h hs₁) hrun

/-! ### Steps that are always possible -/

section Total

variable {step : σ → α → σ} {P : σ → Prop} {Q : σ → α → Prop}

/-- A property holds in every state of a run. -/
def Throughout (P : σ → Prop) (step : σ → α → σ) : σ → List α → Prop
  | s, [] => P s
  | s, a :: actions => P s ∧ Throughout P step (step s a) actions

/-- Every step of a run has a property, in the state in which it is taken. -/
def EachStep (Q : σ → α → Prop) (step : σ → α → σ) : σ → List α → Prop
  | _, [] => True
  | s, a :: actions => Q s a ∧ EachStep Q step (step s a) actions

theorem Throughout.start {s actions} (h : Throughout P step s actions) : P s := by
  cases actions with
  | nil => exact h
  | cons a actions => exact h.1

theorem throughout_iff_eachStep (hstep : ∀ s a, P s → (P (step s a) ↔ Q s a)) {s} (h : P s)
    (actions : List α) : Throughout P step s actions ↔ EachStep Q step s actions := by
  induction actions generalizing s with
  | nil => exact iff_of_true h trivial
  | cons a actions ih =>
    constructor
    · rintro ⟨-, hrest⟩
      exact ⟨(hstep s a h).mp hrest.start, (ih hrest.start).mp hrest⟩
    · rintro ⟨ha, hrest⟩
      exact ⟨h, (ih ((hstep s a h).mpr ha)).mpr hrest⟩

end Total

end HybridSE.Lib
