import HybridSE.Udf.Aggregates

/-!
# HybridSE.Udf.ConditionalAggregates

Model of `SumWhereDef`, `CountWhereDef`, `AvgWhereDef`, `MinWhereDef` and `MaxWhereDef` of
`src/udf/default_udf_library.cc`, as `UdfIRBuilder::BuildUdafCall` folds them over a window.

A generated value has a raw value beside its flag, and a NULL has some raw value too: that of
`a + b` is the sum of the raw values. The fold stores only the raw value of the updated state.
`count_where` and `avg_where` ask whether the element is NULL, `min_where` and `max_where` compare
it, and a NULL comparison is not true. `sum_where` does neither, so the raw values of NULL elements
are added (`conditional_iff`).
-/

namespace HybridSE.Udf

open HybridSE.Lib List

/-- `NativeValue`: the raw value and the flag. -/
structure NativeValue (α : Type) where
  raw : α
  isNull : Bool

namespace NativeValue

variable {α β γ : Type}

/-- `NativeValue::Create`. -/
def create (raw : α) : NativeValue α := ⟨raw, false⟩

/-- `NullIRBuilder::SafeNullBinaryExpr`. -/
def safeNullBinaryExpr (op : α → β → γ) (left : NativeValue α) (right : NativeValue β) :
    NativeValue γ :=
  ⟨op left.raw right.raw, left.isNull || right.isNull⟩

/-- `PredicateIRBuilder::BuildIsNullExpr`. -/
def buildIsNullExpr (val : NativeValue α) : NativeValue Bool := create val.isNull

/-- The condition of `CondSelectIRBuilder::Select`. -/
def holds (cond : NativeValue Bool) : Bool := cond.raw && !cond.isNull

/-- `CondSelectIRBuilder::Select`: the raw value and the flag of one side. -/
def select (cond : NativeValue Bool) (left right : NativeValue α) : NativeValue α :=
  if cond.holds then left else right

/-- `CondSelectIRBuilder::Select` for tuples. -/
def selectTuple (cond : NativeValue Bool) (left right : NativeValue α × NativeValue β) :
    NativeValue α × NativeValue β :=
  (cond.select left.1 right.1, cond.select left.2 right.2)

/-- The value that is meant. -/
def toOption (val : NativeValue α) : Option α := if val.isNull then none else some val.raw

@[simp] theorem holds_buildIsNullExpr (val : NativeValue α) :
    val.buildIsNullExpr.holds = val.isNull := by
  simp [buildIsNullExpr, create, holds]

@[simp] theorem raw_create (raw : α) : (create raw).raw = raw := rfl

@[simp] theorem raw_safeNullBinaryExpr (op : α → β → γ) (left : NativeValue α)
    (right : NativeValue β) : (left.safeNullBinaryExpr op right).raw = op left.raw right.raw := rfl

@[simp] theorem holds_safeNullBinaryExpr (op : α → β → Bool) (raw : α) (right : NativeValue β) :
    ((create raw).safeNullBinaryExpr op right).holds = (op raw right.raw && !right.isNull) := rfl

end NativeValue

open NativeValue

variable {ρ : Type}

/-- `BuildUdafCall` for a state that is not a tuple. -/
def buildUdafCall {σ : Type} (init : σ) (update : NativeValue σ → ρ → NativeValue σ)
    (rows : List ρ) : σ :=
  rows.foldl (fun state row => (update (create state) row).raw) init

/-- `BuildUdafCall` for a pair: its components are stored one by one. -/
def buildTupleUdafCall {σ τ : Type} (init : σ × τ)
    (update : NativeValue σ × NativeValue τ → ρ → NativeValue σ × NativeValue τ) (rows : List ρ) :
    σ × τ :=
  rows.foldl
    (fun state row =>
      let value := update (create state.1, create state.2) row
      (value.1.raw, value.2.raw)) init

section Model

variable (t : IntType) (x : ρ → NativeValue Int) (c : ρ → NativeValue Bool) (rows : List ρ)

/-- `SumWhereDef`. -/
def sumWhere : Int :=
  buildUdafCall 0
    (fun sum row =>
      (c row).select (sum.safeNullBinaryExpr (fun a b => t.wrap (a + b)) (x row)) sum) rows

/-- `CountWhereDef`. -/
def countWhere : Nat :=
  buildUdafCall 0
    (fun cnt row =>
      let newCnt := cnt.safeNullBinaryExpr (· + ·) (create 1)
      (c row).select ((x row).buildIsNullExpr.select cnt newCnt) cnt) rows

/-- `AvgWhereDef`. -/
def avgWhere : Nat × Int :=
  buildTupleUdafCall (0, 0)
    (fun (cnt, sum) row =>
      let isNull := (x row).buildIsNullExpr
      let newCnt := isNull.select cnt (cnt.safeNullBinaryExpr (· + ·) (create 1))
      let newSum := isNull.select sum (sum.safeNullBinaryExpr (· + ·) (x row))
      (c row).selectTuple (newCnt, newSum) (cnt, sum)) rows

/-- `MinWhereDef`. -/
def minWhere : Int :=
  buildUdafCall t.maximumValue
    (fun min row =>
      let condition := min.safeNullBinaryExpr (fun a b => decide (a > b)) (x row)
      (c row).select (condition.select (x row) min) min) rows

/-- `MaxWhereDef`. -/
def maxWhere : Int :=
  buildUdafCall t.minimumValue
    (fun max row =>
      let condition := max.safeNullBinaryExpr (fun a b => decide (a < b)) (x row)
      (c row).select (condition.select (x row) max) max) rows

/-! ### What is meant -/

/-- The column of the rows where the condition is true. -/
def selected : List (Option Int) :=
  (rows.filter fun row => (c row).holds).map fun row => (x row).toOption

/-- The raw values of the NULL elements in those rows. -/
def nullRaws : List Int :=
  ((rows.filter fun row => (c row).holds).filter fun row => (x row).isNull).map fun row => (x row).raw

/-- The conditional aggregates are the aggregates of the selected rows. -/
structure Conditional : Prop where
  sum_eq : sumWhere t x c rows = (selected x c rows).foldl (sumUdafDef t).update (sumUdafDef t).init
  count_eq : countWhere x c rows =
    (selected x c rows).foldl countUdafDef.update countUdafDef.init
  avg_eq : avgWhere x c rows = (selected x c rows).foldl avgUdafDef.update avgUdafDef.init
  min_eq : if (selected x c rows).reduceOption = [] then minWhere t x c rows = t.maximumValue
    else (minUdafDef t).run (selected x c rows) = .int (some (minWhere t x c rows))
  max_eq : if (selected x c rows).reduceOption = [] then maxWhere t x c rows = t.minimumValue
    else (maxUdafDef t).run (selected x c rows) = .int (some (maxWhere t x c rows))

end Model

section Folds

variable {t : IntType} {x : ρ → NativeValue Int} {c : ρ → NativeValue Bool} {rows : List ρ}

/-- A fold that skips the rows where the condition is not true. -/
theorem foldl_selected {σ : Type} {step : σ → ρ → σ} {update : σ → Option Int → σ}
    (hstep : ∀ state row,
      step state row = if (c row).holds then update state (x row).toOption else state) (init : σ) :
    rows.foldl step init = (selected x c rows).foldl update init := by
  rw [selected, foldl_map, foldl_filter, funext₂ hstep]

theorem countWhere_eq :
    countWhere x c rows = (selected x c rows).foldl countUdafDef.update countUdafDef.init := by
  refine foldl_selected (fun cnt row => ?_) 0
  unfold select toOption
  cases hc : (c row).holds <;> cases h : (x row).isNull <;> simp [hc, h, countUdafDef]

theorem avgWhere_eq :
    avgWhere x c rows = (selected x c rows).foldl avgUdafDef.update avgUdafDef.init := by
  refine foldl_selected (fun state row => ?_) (0, 0)
  unfold selectTuple select toOption
  cases hc : (c row).holds <;> cases h : (x row).isNull <;> simp [hc, h, avgUdafDef]

theorem minWhere_eq :
    minWhere t x c rows = (selected x c rows).reduceOption.foldl min t.maximumValue := by
  rw [← foldl_skipNone]
  refine foldl_selected (fun cur row => ?_) t.maximumValue
  unfold select toOption
  cases hc : (c row).holds <;> cases h : (x row).isNull <;> simp [hc, h, skipNone]
  rw [min_comm, min_def_lt]
  split <;> rfl

theorem maxWhere_eq :
    maxWhere t x c rows = (selected x c rows).reduceOption.foldl max t.minimumValue := by
  rw [← foldl_skipNone]
  refine foldl_selected (fun cur row => ?_) t.minimumValue
  unfold select toOption
  cases hc : (c row).holds <;> cases h : (x row).isNull <;> simp [hc, h, skipNone]
  rw [max_def_lt]
  split <;> rfl

/-- The raw values of all selected rows are added, NULL or not. -/
theorem sumWhere_eq :
    sumWhere t x c rows =
      t.wrap ((selected x c rows).reduceOption.sum + (nullRaws x c rows).sum) := by
  have hstep : (fun sum row => ((c row).select ((create sum).safeNullBinaryExpr
      (fun a b => t.wrap (a + b)) (x row)) (create sum)).raw) =
      fun sum row => if (c row).holds then t.wrap (sum + (x row).raw) else sum := by
    funext sum row
    unfold select
    cases (c row).holds <;> rfl
  have hsplit : ∀ rows : List ρ, (rows.map fun row => (x row).raw).sum =
      (rows.map fun row => (x row).toOption).reduceOption.sum +
        ((rows.filter fun row => (x row).isNull).map fun row => (x row).raw).sum := by
    intro rows
    induction rows with
    | nil => rfl
    | cons row rows ih =>
      cases h : (x row).isNull <;> simp [toOption, h, ih] <;> omega
  have hzero : t.wrap 0 = 0 := by cases t <;> rfl
  have hfold := @foldl_wrap_add t ((rows.filter fun row => (c row).holds).map fun row => (x row).raw) 0
  rw [foldl_map, foldl_filter, hzero, Int.zero_add, hsplit] at hfold
  unfold sumWhere buildUdafCall
  rw [hstep]
  exact hfold

end Folds

/-- **Conditional aggregates** are aggregates of the selected rows exactly if the raw values of the
NULL elements in those rows add up to zero in the type. -/
theorem conditional_iff (t : IntType) (x : ρ → NativeValue Int) (c : ρ → NativeValue Bool)
    (rows : List ρ) : Conditional t x c rows ↔ t.wrap (nullRaws x c rows).sum = 0 := by
  have hsum : sumWhere t x c rows =
      (selected x c rows).foldl (sumUdafDef t).update (sumUdafDef t).init ↔
        t.wrap (nullRaws x c rows).sum = 0 := by
    rw [sumWhere_eq]
    change _ = (selected x c rows).foldl (sumUdafDef t).update 0 ↔ _
    rw [foldl_sum]
    unfold IntType.wrap
    rw [Int.bmod_eq_bmod_iff_bmod_sub_eq_zero, add_sub_cancel_left]
  refine ⟨fun h => hsum.mp h.sum_eq, fun h => ⟨hsum.mpr h, countWhere_eq, avgWhere_eq, ?_, ?_⟩⟩
  · split
    · rename_i hnil
      rw [minWhere_eq, hnil]
      rfl
    · rename_i hne
      rw [minWhere_eq]
      exact udaf_min.trans (by rw [if_neg hne])
  · split
    · rename_i hnil
      rw [maxWhere_eq, hnil]
      rfl
    · rename_i hne
      rw [maxWhere_eq]
      exact udaf_max.trans (by rw [if_neg hne])

/-- `sum_where(a + b, true)` of one row with `a` NULL and `b = 5` is five. -/
theorem not_conditional_null :
    ¬ Conditional .kInt32
      (fun row : NativeValue Int × NativeValue Int =>
        row.1.safeNullBinaryExpr (fun a b => IntType.kInt32.wrap (a + b)) row.2)
      (fun _ => create true) [(⟨0, true⟩, create 5)] := by
  intro h
  exact absurd h.sum_eq (by decide)

end HybridSE.Udf
