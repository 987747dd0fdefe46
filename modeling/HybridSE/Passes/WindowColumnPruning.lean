import HybridSE.Vm.WindowAggNode

/-!
# HybridSE.Passes.WindowColumnPruning

`WindowColumnPruning` of `src/passes/physical/window_column_pruning.cc`: every window
aggregation without window joins and appended input is built anew on a simple projection
of the columns it depends on.

The new node is made of the projections, the window and the flags of the old one. Its
limit is that of a new node, and `AddWindowUnion` gives every union the window of the
aggregation and leaves out a union whose columns are not those of the input. A window
aggregation cannot get a new child (`WithNewChildren` is not supported), so the pass
fails on a plan in which one is below another; the caller then keeps the plan.

An operator other than these aggregations is a function of what its producers yield,
and is built anew with the same function over its new producers.
-/

namespace HybridSE.Passes

open HybridSE.Codec HybridSE.Vm HybridSE.Lib

/-- A window union of an aggregation: its window, the columns of its table and what the
plan of the table yields. -/
structure WindowUnion where
  window : WindowOp
  ctx : SchemasContext
  data : DataHandler Codec.Row

/-! ### The columns to keep -/

/-- `ColIndexInfo`. -/
structure ColIndexInfo where
  cid : Nat
  pos : ColumnPos
  deriving DecidableEq

/-- The index and the id of a column. -/
def colIndexInfo (ctx : SchemasContext) (ref : ColumnRef) : Option ColIndexInfo :=
  match ctx.resolve ref with
  | none => none
  | some pos => (ctx.columnAt pos).map fun column => ⟨column.id, pos⟩

/-- The loop over the columns to depend on; an id is kept once. -/
def collectColumns (ctx : SchemasContext) :
    List ColumnRef → List ColIndexInfo → Option (List ColIndexInfo)
  | [], infos => some infos
  | ref :: refs, infos =>
    match colIndexInfo ctx ref with
    | none => none
    | some info =>
      if info.cid ∈ infos.map ColIndexInfo.cid then collectColumns ctx refs infos
      else collectColumns ctx refs (infos ++ [info])

/-- The columns to keep, sorted by column index. -/
def columnIndexes (ctx : SchemasContext) (refs : List ColumnRef) : Option (List ColIndexInfo) :=
  let colNum := (ctx.sources.map List.length).sum
  (collectColumns ctx refs []).map
    (List.insertionSort fun l r => l.pos.1 * colNum + l.pos.2 ≤ r.pos.1 * colNum + r.pos.2)

/-- The columns of the pruned input or union; a union may lack one. -/
def prunedColumns (ctx : SchemasContext) (infos : List ColIndexInfo) :
    Option (List SourceColumn) :=
  infos.mapM fun info => ctx.columnAt info.pos

/-- Where `ColumnId` nodes of these columns are read from. -/
def prunedPositions (ctx : SchemasContext) (columns : List SourceColumn) :
    Option (List ColumnPos) :=
  columns.mapM fun column => ctx.resolveColumnIndexByID column.id

/-- `IsSameSchema`. -/
def isSameSchema (columns exp : List SourceColumn) : Bool :=
  columns.map (fun c => (c.name, c.type)) = exp.map (fun c => (c.name, c.type))

/-! ### The new node -/

/-- A simple projection of the kept columns: its columns, and where it reads them. -/
structure PrunedInput where
  columns : List SourceColumn
  positions : List ColumnPos

/-- The simple projection on an input or a union with the columns `ctx`. -/
def prunedInput (ctx : SchemasContext) (infos : List ColIndexInfo) : Option PrunedInput :=
  match prunedColumns ctx infos with
  | none => none
  | some columns => (prunedPositions ctx columns).map fun positions => ⟨columns, positions⟩

/-- The union on the simple projection. -/
def prunedUnion (window : WindowOp) (u : WindowUnion) (pruned : PrunedInput) : WindowUnion where
  window := window
  ctx := ⟨[pruned.columns]⟩
  data := u.data.map (simpleProject u.ctx pruned.positions)

/-- The new aggregation: its input is `input`, projected. -/
structure PrunedAgg where
  input : PrunedInput
  agg : WindowAggNode
  unions : List WindowUnion

/-- `WindowColumnPruning::ProcessWindow`. -/
def processWindow (agg : WindowAggNode) (ctx : SchemasContext) (unions : List WindowUnion) :
    Option PrunedAgg := do
  let infos ← columnIndexes ctx agg.dependColumns
  let input ← prunedInput ctx infos
  let prunedUnions ← unions.mapM fun u => (prunedInput u.ctx infos).map (prunedUnion agg.window u)
  -- the expressions of the new node are compiled
  if agg.dependColumns.all fun ref =>
      ((⟨[input.columns]⟩ : SchemasContext).resolve ref).isSome then
    some
      { input := input
        agg := { agg with limitCnt := 0 }
        unions := prunedUnions.filter fun u => isSameSchema u.ctx.sources.flatten input.columns }
  else none

/-! ### Plans -/

/-- A physical plan. -/
inductive Plan
  | provider (data : Option (DataHandler Codec.Row))
  | unary (run : Option (DataHandler Codec.Row) → Option (DataHandler Codec.Row)) (input : Plan)
  | binary
      (run : Option (DataHandler Codec.Row) → Option (DataHandler Codec.Row) →
        Option (DataHandler Codec.Row))
      (left right : Plan)
  -- a window aggregation with window joins or appended input
  | joinedAgg (run : Option (DataHandler Codec.Row) → Option (DataHandler Codec.Row))
      (input : Plan)
  | windowAgg (agg : WindowAggNode) (ctx : SchemasContext) (input : Plan)
      (unions : List WindowUnion)

/-- The output of a window aggregation as a `MemTableHandler`. -/
def aggTable (rows : List (Option (List Value))) : DataHandler Codec.Row :=
  .table
    { iterator := some (rows.zipIdx.map fun row =>
        (row.2, match row.1 with
          | none => Row.new
          | some values => Row.ofSlice (some values)))
      orderType := .kNoneOrder }

/-- A window aggregation on its input and its unions. -/
def runAgg (std : KeySort) (agg : WindowAggNode) (ctx : SchemasContext)
    (unions : List WindowUnion) (input : Option (DataHandler Codec.Row)) :
    Option (DataHandler Codec.Row) :=
  input.bind fun data =>
    ((agg.runner ctx (unions.map (·.window))).run std data (unions.map (·.data))).map aggTable

namespace Plan

/-- What a plan yields. -/
def run (std : KeySort) : Plan → Option (DataHandler Codec.Row)
  | provider data => data
  | unary f input => f (run std input)
  | binary f left right => f (run std left) (run std right)
  | joinedAgg f input => f (run std input)
  | windowAgg agg ctx input unions => runAgg std agg ctx unions (run std input)

/-- The projected input of a new aggregation. -/
def simpleProjected (ctx : SchemasContext) (pruned : PrunedInput) (input : Plan) : Plan :=
  unary (Option.map (DataHandler.map (simpleProject ctx pruned.positions))) input

/-- `WindowColumnPruning::DoApply`; the flag says whether the node is a new one. -/
def doApply : Plan → Option (Plan × Bool)
  | provider data => some (provider data, false)
  | unary f input => do
      let (input', changed) ← doApply input
      return (unary f input', changed)
  | binary f left right => do
      let (left', leftChanged) ← doApply left
      let (right', rightChanged) ← doApply right
      return (binary f left' right', leftChanged || rightChanged)
  | joinedAgg f input => do
      let (_, changed) ← doApply input
      if changed then none else some (joinedAgg f input, false)
  | windowAgg agg ctx input unions => do
      let (_, changed) ← doApply input
      if changed then none
      else
        let new ← processWindow agg ctx unions
        return (windowAgg new.agg ⟨[new.input.columns]⟩
          (simpleProjected ctx new.input input) new.unions, true)

end Plan

end HybridSE.Passes
