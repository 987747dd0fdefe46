import HybridSE.Lib.AndTree
import HybridSE.Vm.JoinGenerator

/-!
# HybridSE.Passes.JoinCondition

`ConditionOptimized::JoinConditionOptimized` of
`src/passes/physical/condition_optimized.cc`: the equalities of a join condition become
pairs of key expressions, the other conjuncts stay.

A condition is a tree of conjunctions over equalities and other boolean expressions. A
row is given by its column names, those of the two inputs are distinct. A value
expression is given by its meaning and the columns it reads, which is all that the pass
asks about it.
-/

namespace HybridSE.Passes

open HybridSE.Lib HybridSE.Codec HybridSE.Vm

/-! ### Expressions and conditions -/

/-- A row of typed values, by column name. -/
abbrev NamedRow : Type := String → Value

/-- The values of the query's parameters. -/
abbrev ParamRow : Type := Nat → Value

/-- A value expression: the columns it reads and its value. -/
structure ValueExpr where
  columns : List String
  eval : ParamRow → NamedRow → Value
  reads : ∀ (params : ParamRow) (row row' : NamedRow), (∀ name ∈ columns, row name = row' name) →
    eval params row = eval params row'

namespace ValueExpr

/-- A column. -/
def columnRef (name : String) : ValueExpr where
  columns := [name]
  eval _ row := row name
  reads _ _ _ h := h name List.mem_cons_self

/-- A constant of the query text. -/
def primary (val : Value) : ValueExpr where
  columns := []
  eval _ _ := val
  reads _ _ _ _ := rfl

/-- A parameter of the query. -/
def parameter (pos : Nat) : ValueExpr where
  columns := []
  eval params _ := params pos
  reads _ _ _ _ := rfl

/-- `node::ExprIsConst`: no column is read. -/
def isConst (e : ValueExpr) : Bool := e.columns.isEmpty

/-- `CheckExprDependOnChildOnly`: every column is one of the child. -/
def dependsOnly (e : ValueExpr) (child : List String) : Bool :=
  e.columns.all fun name => child.contains name

end ValueExpr

/-- A conjunct: an equality, or another boolean expression. -/
inductive Conjunct
  | eq (left right : ValueExpr)
  | other (meaning : ParamRow → NamedRow → Option Bool)

/-- A join condition. -/
abbrev JoinCondition : Type := AndTree Conjunct

/-- The integer value of a value. -/
def intValue? : Value → Option Int
  | .int16 v => some v.toInt
  | .int32 v => some v.toInt
  | .int64 v => some v.toInt
  | _ => none

/-- Ordered equality of two floating point numbers: neither is a NaN, and the bits are
equal or both numbers are zero. -/
def floatEq (expBits manBits x y : Nat) : Bool :=
  let isNaN := fun bits : Nat =>
    decide (bits / 2 ^ manBits % 2 ^ expBits = 2 ^ expBits - 1 ∧ bits % 2 ^ manBits ≠ 0)
  let isZero := fun bits : Nat => decide (bits % 2 ^ (expBits + manBits) = 0)
  !isNaN x && !isNaN y && (x == y || isZero x && isZero y)

/-- `PredicateIRBuilder::BuildEqExpr` on values that are not NULL. Values of one type, and
integers of any width, are compared as they are; `mixed` is the comparison of values of
different kinds after the implicit cast of one of them. -/
def sqlEq (mixed : Value → Value → Bool) : Value → Value → Bool
  | .bool x, .bool y => x == y
  | .varchar x, .varchar y => x == y
  | .date x, .date y => x == y
  | .timestamp x, .timestamp y => x == y
  | .float x, .float y => floatEq 8 23 x.toNat y.toNat
  | .double x, .double y => floatEq 11 52 x.toNat y.toNat
  | x, y =>
    match intValue? x, intValue? y with
    | some v, some w => v == w
    | _, _ => mixed x y

/-- An equality of SQL: unknown if a side is NULL. -/
def evalEq3 (mixed : Value → Value → Bool) (x y : Value) : Option Bool :=
  if x = .null ∨ y = .null then none else some (sqlEq mixed x y)

/-- The truth value of a conjunct. -/
def Conjunct.eval (mixed : Value → Value → Bool) (params : ParamRow) (row : NamedRow) :
    Conjunct → Option Bool
  | eq left right => evalEq3 mixed (left.eval params row) (right.eval params row)
  | other meaning => meaning params row

/-! ### The pass -/

/-- The columns of the two inputs of a join. -/
structure JoinSchemas where
  left : List String
  right : List String
  disjoint : ∀ name ∈ left, name ∉ right

/-- `ConditionOptimized::MakeConstEqualExprPair`. -/
def makeConstEqualExprPair (schemas : JoinSchemas) (first second : ValueExpr) :
    Option (ValueExpr × ValueExpr) :=
  if first.isConst && second.isConst then none
  else if first.isConst then
    if second.dependsOnly schemas.right then some (first, second) else none
  else if second.isConst then
    if first.dependsOnly schemas.right then some (second, first) else none
  else none

/-- What `ConditionOptimized::TransformJoinEqualExprPair` makes of a conjunct: a pair of
keys, left before right, or `none` if it stays. -/
def joinEqualPair (schemas : JoinSchemas) : Conjunct → Option (ValueExpr × ValueExpr)
  | .other _ => none
  | .eq first second =>
    match makeConstEqualExprPair schemas first second with
    | some pair => some pair
    | none =>
      if first.dependsOnly schemas.left && second.dependsOnly schemas.right then
        some (first, second)
      else if second.dependsOnly schemas.left && first.dependsOnly schemas.right then
        some (second, first)
      else none

/-- The part of `Join` that the pass writes. -/
structure JoinSplit where
  keys : List (ValueExpr × ValueExpr)
  condition : Option JoinCondition

/-- The pairs of keys of a condition. -/
def joinPairs (schemas : JoinSchemas) (condition : JoinCondition) : List (ValueExpr × ValueExpr) :=
  condition.conjuncts.filterMap (joinEqualPair schemas)

/-- The conjuncts that stay. -/
def joinRest (schemas : JoinSchemas) (condition : JoinCondition) : List Conjunct :=
  condition.conjuncts.filter fun conjunct => (joinEqualPair schemas conjunct).isNone

/-- `ConditionOptimized::JoinConditionOptimized`; without a pair nothing changes. -/
def joinConditionOptimized (schemas : JoinSchemas) (condition : JoinCondition) : JoinSplit :=
  if joinPairs schemas condition = [] then { keys := [], condition := some condition }
  else
    { keys := joinPairs schemas condition
      condition := AndTree.ofList (joinRest schemas condition) }

/-! ### Execution -/

/-- The row of the join. -/
def joinedRow (schemas : JoinSchemas) (left right : NamedRow) : NamedRow := fun name =>
  if name ∈ schemas.left then left name else right name

section Run

variable (mixed : Value → Value → Bool) (schemas : JoinSchemas) (params : ParamRow)
  (sort : SortGenerator NamedRow)

/-- Is a condition true on two rows? -/
def conditionTrue (condition : JoinCondition) (left right : NamedRow) : Bool :=
  condition.eval (Conjunct.eval mixed params (joinedRow schemas left right)) == some true

/-- The generator of a join with the keys and the condition of a split. -/
def JoinSplit.generator (split : JoinSplit) : JoinGenerator NamedRow NamedRow where
  conditionGen := split.condition.map (conditionTrue mixed schemas params)
  leftKeyGen :=
    if split.keys = [] then none
    else some fun row => some (split.keys.map fun key => key.1.eval params row)
  rightGroupGen :=
    if split.keys = [] then none
    else some fun row => some (split.keys.map fun key => key.2.eval params row)
  indexKeyGen := none
  rightSortGen := sort

end Run

end HybridSE.Passes
