import Mathlib.Data.List.Basic

/-!
# HybridSE.Passes.ConditionOptimized

Model of the rewriting of a WHERE condition over a table, and of its execution:

* `ConditionOptimized::FilterConditionOptimized` of
  `src/passes/physical/condition_optimized.cc`, which moves equalities with a constant
  into the filter's keys;
* the filter case of `GroupAndSortOptimized` (`KeysOptimized`, `MatchBestIndex`), which
  turns some of the keys into an index seek;
* `FilterGenerator` and `IndexSeekGenerator` of `src/vm/runner.cc`.

Values are compared as values: the two sides of an equality have one type. Expressions
other than those the passes look into are given by their meaning.
-/

namespace HybridSE.Passes

/-! ### Expressions -/

/-- The values of a column; NULL is `none` of `Option SqlValue`. -/
inductive SqlValue
  | bool (val : Bool)
  | int (val : Int)
  | varchar (val : String)
  deriving DecidableEq, Repr

/-- A row, by column name. -/
abbrev Row : Type := String → Option SqlValue

/-- The parameters of a query. -/
abbrev Params : Type := Nat → Option SqlValue

/-- Expressions. An expression of another kind (`other`) has a meaning, and one without
columns does not depend on the row. -/
inductive Expr
  | columnRef (name : String)
  | primary (val : Option SqlValue)
  | parameter (pos : Nat)
  | bracket (expr : Expr)
  | and (left right : Expr)
  | eq (left right : Expr)
  | other (isConst : Bool) (meaning : Params → Row → Option SqlValue)
      (const : isConst = true → ∀ params row row', meaning params row = meaning params row')

/-- The cast to bool. -/
def SqlValue.isTrue : SqlValue → Bool
  | bool val => val
  | int val => val != 0
  | varchar _ => false

/-- `ConditionGenerator::Gen` on the value of a condition: NULL is not true. -/
def isTrue : Option SqlValue → Bool
  | none => false
  | some val => val.isTrue

/-- `PredicateIRBuilder::BuildAndExpr`, with NULL as the unknown truth value. -/
def evalAnd : Option SqlValue → Option SqlValue → Option SqlValue
  | some left, some right => some (.bool (left.isTrue && right.isTrue))
  | none, some right => if right.isTrue then none else some (.bool false)
  | some left, none => if left.isTrue then none else some (.bool false)
  | none, none => none

/-- `PredicateIRBuilder::BuildEqExpr`. -/
def evalEq : Option SqlValue → Option SqlValue → Option SqlValue
  | some left, some right => some (.bool (decide (left = right)))
  | _, _ => none

/-- The value of an expression. -/
def eval (params : Params) (row : Row) : Expr → Option SqlValue
  | .columnRef name => row name
  | .primary val => val
  | .parameter pos => params pos
  | .bracket expr => eval params row expr
  | .and left right => evalAnd (eval params row left) (eval params row right)
  | .eq left right => evalEq (eval params row left) (eval params row right)
  | .other _ meaning _ => meaning params row

/-- `node::ExprIsConst`. -/
def exprIsConst : Expr → Bool
  | .columnRef _ => false
  | .primary _ => true
  | .parameter _ => true
  | .bracket expr => exprIsConst expr
  | .and left right => exprIsConst left && exprIsConst right
  | .eq left right => exprIsConst left && exprIsConst right
  | .other isConst _ _ => isConst

/-! ### `ConditionOptimized` -/

/-- `ConditionOptimized::TransfromAndConditionList`. -/
def transformAndConditionList : Expr → List Expr
  | .bracket expr => transformAndConditionList expr
  | .and left right => transformAndConditionList left ++ transformAndConditionList right
  | expr => [expr]

/-- `ConditionOptimized::ExtractEqualExprPair`. -/
def extractEqualExprPair : Expr → Option (Expr × Expr)
  | .bracket expr => extractEqualExprPair expr
  | .eq left right => some (left, right)
  | _ => none

/-- What `TransformConstEqualExprPair` does with one condition: a pair with its constant
first, or `none` for a condition that stays. -/
def constEqualPair (expr : Expr) : Option (Expr × Expr) :=
  match extractEqualExprPair expr with
  | none => none
  | some (first, second) =>
    if exprIsConst first then some (first, second)
    else if exprIsConst second then some (second, first)
    else none

/-- `NodeManager::MakeAndExpr`. -/
def makeAndExpr : List Expr → Option Expr
  | [] => none
  | expr :: exprs => some (exprs.foldl .and expr)

/-- `Filter`: the condition and the keys; a missing key list is empty. -/
structure Filter where
  condition : Option Expr
  leftKey : List Expr
  rightKey : List Expr
  indexKey : List Expr

/-- The filter of a WHERE condition. -/
def Filter.ofCondition (condition : Expr) : Filter :=
  { condition := some condition, leftKey := [], rightKey := [], indexKey := [] }

/-- The pairs of constant and expression that leave the condition. -/
def constPairs (condition : Expr) : List (Expr × Expr) :=
  (transformAndConditionList condition).filterMap constEqualPair

/-- The conditions that stay. -/
def restConditions (condition : Expr) : List Expr :=
  (transformAndConditionList condition).filter fun expr => (constEqualPair expr).isNone

/-- `ConditionOptimized::FilterConditionOptimized` on the filter of a condition; without
pairs nothing changes. -/
def filterConditionOptimized (condition : Expr) : Filter :=
  if constPairs condition = [] then Filter.ofCondition condition
  else
    { condition := makeAndExpr (restConditions condition)
      leftKey := (constPairs condition).map Prod.fst
      rightKey := (constPairs condition).map Prod.snd
      indexKey := [] }

/-! ### `GroupAndSortOptimized` -/

/-- `IndexSt`: an index has at least one key column. -/
structure IndexSt where
  name : String
  keys : List String
  keys_ne : keys ≠ []

/-- The columns whose bit is set. -/
def selected (columns : List String) (bitmap : List Bool) : List String :=
  (columns.zip bitmap).filterMap fun entry => if entry.2 then some entry.1 else none

/-- `column_set == keys`, as sets of names. -/
def sameSet (columns keys : List String) : Bool :=
  columns.all (fun name => keys.contains name) && keys.all fun name => columns.contains name

/-- The better of two matches: the new one if there was none (with a name), or if its
index has more keys. -/
def betterIndex (best : Option (IndexSt × List Bool)) (new : IndexSt × List Bool) :
    Option (IndexSt × List Bool) :=
  match best with
  | none => some new
  | some org =>
    if org.1.name = "" ∨ org.1.keys.length < new.1.keys.length then some new else some org

/-- `GroupAndSortOptimized::MatchBestIndex` without order columns, over the indexes in the
order of the map. Every recursive call clears one bit, so `fuel` is the number of
columns. -/
def matchBestIndex (columns : List String) (indexes : List IndexSt) :
    Nat → List Bool → Option (IndexSt × List Bool)
  | fuel, bitmap =>
    match indexes.find? fun index => sameSet (selected columns bitmap) index.keys with
    | some index => some (index, bitmap)
    | none =>
      match fuel with
      | 0 => none
      | fuel + 1 =>
        (List.range bitmap.length).foldl
          (fun best i =>
            if bitmap[i]? = some true then
              match matchBestIndex columns indexes fuel (bitmap.set i false) with
              | some new => betterIndex best new
              | none => best
            else best)
          none

/-- The key expressions that are columns. -/
def columnNames (keys : List Expr) : List String :=
  keys.filterMap fun
    | .columnRef name => some name
    | _ => none

/-- `output_bitmap`: the bits of the columns, spread over all keys. -/
def spreadBitmap : List Expr → List Bool → List Bool
  | .columnRef _ :: keys, bit :: bits => bit :: spreadBitmap keys bits
  | _ :: keys, bits => false :: spreadBitmap keys bits
  | [], _ => []

/-- `GroupAndSortOptimized::TransformKeysAndOrderExpr` without order: the index and the
bitmap of the keys it serves. -/
def transformKeysAndOrderExpr (keys : List Expr) (indexes : List IndexSt) :
    Option (IndexSt × List Bool) := do
  let columns := columnNames keys
  if columns = [] then none
  else
    let (index, bits) ← matchBestIndex columns indexes columns.length
      (List.replicate columns.length true)
    some (index, spreadBitmap keys bits)

/-- The keys whose bit is `value`. -/
def keysWith (value : Bool) (keys : List Expr) (bitmap : List Bool) : List Expr :=
  (keys.zip bitmap).filterMap fun entry => if entry.2 = value then some entry.1 else none

/-- `GroupAndSortOptimized::KeysOptimized` for the filter of a table: the filter and the
index of the new partition provider, or nothing. -/
def filterOptimized (filter : Filter) (indexes : List IndexSt) : Option (IndexSt × Filter) :=
  if filter.leftKey = [] ∨ filter.rightKey = [] then none
  else do
    let (index, bitmap) ← transformKeysAndOrderExpr filter.rightKey indexes
    some (index, { filter with
      leftKey := keysWith false filter.leftKey bitmap
      rightKey := keysWith false filter.rightKey bitmap
      indexKey := keysWith true filter.leftKey bitmap })

/-! ### Execution -/

/-- The segment of a key: the rows whose index columns equal it. -/
def getSegment (index : IndexSt) (rows : List Row) (key : List (Option SqlValue)) : List Row :=
  rows.filter fun row => decide (index.keys.map row = key)

/-- `KeyGenerator::GenConst`: the key expressions on no row. -/
def genConst (params : Params) (keys : List Expr) : List (Option SqlValue) :=
  keys.map fun key => eval params (fun _ => none) key

/-- `FilterGenerator::Filter` on a table. -/
def Filter.filterTable (filter : Filter) (params : Params) (rows : List Row) : List Row :=
  match filter.condition with
  | none => rows
  | some condition => rows.filter fun row => isTrue (eval params row condition)

/-- `FilterRunner::Run` on the table, or on the partition of an index; `none` is the
failure to seek without an index key. -/
def Filter.run (filter : Filter) (params : Params) (index : Option IndexSt) (rows : List Row) :
    Option (List Row) :=
  match index with
  | none => if filter.indexKey = [] then some (filter.filterTable params rows) else none
  | some index =>
    if filter.indexKey = [] then none
    else some (filter.filterTable params
      (getSegment index rows (genConst params filter.indexKey)))

/-- The rows that a WHERE condition lets through after the two passes. -/
def whereRows (condition : Expr) (indexes : List IndexSt) (params : Params) (rows : List Row) :
    Option (List Row) :=
  let filter := filterConditionOptimized condition
  match filterOptimized filter indexes with
  | none => filter.run params none rows
  | some (index, filter) => filter.run params (some index) rows

end HybridSE.Passes
