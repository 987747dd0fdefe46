import HybridSE.Udf.Aggregates

/-!
# HybridSE.Codegen.AggregateBuilder

Model of `src/codegen/aggregate_ir_builder.cc` for the integer types: collecting the
aggregates of a window's columns, `ScheduleAggGenerators`, the code of
`StatisticalAggGenerator`, and the loop of `AggregateIRBuilder::BuildMulti`.

The emitted instructions are modelled by what they compute. A row of the window is
read by the index of its slice and the index of the column there.
-/

namespace HybridSE.Codegen

open HybridSE.Lib HybridSE.Udf

/-! ### Collecting the columns -/

/-- A resolved column: `key` is its relation and column name in the query. -/
structure Column where
  key : String
  type : IntType
  schemaIdx : Nat
  colIdx : Nat
  offset : Nat
  deriving DecidableEq, Repr

/-- A select item: an aggregate of a column, and its position in the output. -/
structure AggItem where
  fn : AggFn
  col : Column
  outputIdx : Nat
  deriving DecidableEq, Repr

/-- `AggColumnInfo`: a column with its functions and their output positions. -/
structure AggColumnInfo where
  col : Column
  aggs : List (AggFn × Nat)
  deriving DecidableEq, Repr

/-- `AggregateIRBuilder::CollectAggColumn`: the item joins the entry of its column, or
makes a new one. -/
def collectAggColumn : List AggColumnInfo → AggItem → List AggColumnInfo
  | [], item => [⟨item.col, [(item.fn, item.outputIdx)]⟩]
  | info :: infos, item =>
    if info.col.key = item.col.key then
      { info with aggs := info.aggs ++ [(item.fn, item.outputIdx)] } :: infos
    else info :: collectAggColumn infos item

/-- The entries for all items. -/
def collect (items : List AggItem) : List AggColumnInfo := items.foldl collectAggColumn []

/-! ### Scheduling -/

/-- `GetTypeByteSize`. -/
def getTypeByteSize : IntType → Nat
  | .kInt16 => 2
  | .kInt32 => 4
  | .kInt64 => 8

/-- `StatisticalAggGenerator`: the type and the columns of a generator. The output
positions registered for a function are those of the columns' entries. -/
structure StatisticalAggGenerator where
  colType : IntType
  infos : List AggColumnInfo

/-- The loop of `ScheduleAggGenerators` over the sorted columns. `cur` holds
`cur_offset` and `cur_col_type` once there has been a column, `seq` is
`agg_gen_col_seq`. -/
def scheduleLoop : List AggColumnInfo → Option (Nat × IntType) → List AggColumnInfo →
    List StatisticalAggGenerator
  | [], none, _ => []
  | [], some (_, curColType), seq => if seq = [] then [] else [⟨curColType, seq⟩]
  | info :: infos, none, seq =>
    scheduleLoop infos (some (info.col.offset, info.col.type)) (seq ++ [info])
  | info :: infos, some (curOffset, curColType), seq =>
    if 4 ≤ seq.length ∨ info.col.type ≠ curColType ∨
        (info.col.offset : Int) - curOffset ≠ getTypeByteSize curColType then
      ⟨curColType, seq⟩ ::
        scheduleLoop infos (some (info.col.offset, info.col.type)) [info]
    else scheduleLoop infos (some (info.col.offset, info.col.type)) (seq ++ [info])

/-- `ScheduleAggGenerators`, on the columns sorted by offset. -/
def scheduleAggGenerators (infos : List AggColumnInfo) : List StatisticalAggGenerator :=
  scheduleLoop infos none []

/-! ### The code of a generator -/

/-- A row: its field by slice and column index, `none` for NULL. -/
def Row : Type := Nat → Nat → Option Int

/-- The field that `BuildGetField` reads. -/
def fetch (row : Row) (col : Column) : Option Int := row col.schemaIdx col.colIdx

/-- The output positions registered for a function. -/
def AggColumnInfo.idxs (info : AggColumnInfo) (fn : AggFn) : List Nat :=
  (info.aggs.filter fun agg => agg.1 = fn).map Prod.snd

/-- The accumulators of a column. An accumulator without output position is not
allocated in the source; here it keeps its initial value. -/
structure ColumnState where
  sum : Int
  avg : Int
  min : Int
  max : Int
  deriving DecidableEq, Repr

/-- The accumulators of a generator; the columns share one counter. -/
structure GeneratorState where
  columns : List ColumnState
  count : Nat

/-- `StatisticalAggGenerator::GenInitState`. -/
def StatisticalAggGenerator.genInitState (gen : StatisticalAggGenerator) : GeneratorState where
  columns := gen.infos.map fun _ => ⟨0, 0, gen.colType.maximumValue, gen.colType.minimumValue⟩
  count := 0

def genSumUpdate (t : IntType) (accum : Int) (input : Option Int) : Int :=
  match input with
  | none => accum
  | some input => t.wrap (accum + input)

def genAvgUpdate (accum : Int) (input : Option Int) : Int :=
  match input with
  | none => accum
  | some input => accum + input

def genCountUpdate (cnt : Nat) (input : Option Int) : Nat :=
  match input with
  | none => cnt
  | some _ => cnt + 1

def genMinUpdate (accum : Int) (input : Option Int) : Int :=
  match input with
  | none => accum
  | some input => if accum < input then accum else input

def genMaxUpdate (accum : Int) (input : Option Int) : Int :=
  match input with
  | none => accum
  | some input => if accum < input then input else accum

/-- Does the column have a function that reads the counter? -/
def AggColumnInfo.counts (info : AggColumnInfo) : Bool :=
  !(info.idxs .avg).isEmpty || !(info.idxs .count).isEmpty || !(info.idxs .min).isEmpty ||
    !(info.idxs .max).isEmpty

/-- The updates of a column's own accumulators in `GenUpdate`. -/
def updateColumn (t : IntType) (info : AggColumnInfo) (state : ColumnState) (row : Row) :
    ColumnState where
  sum := if info.idxs .sum ≠ [] then genSumUpdate t state.sum (fetch row info.col) else state.sum
  avg := if info.idxs .avg ≠ [] then genAvgUpdate state.avg (fetch row info.col) else state.avg
  min := if info.idxs .min ≠ [] then genMinUpdate state.min (fetch row info.col) else state.min
  max := if info.idxs .max ≠ [] then genMaxUpdate state.max (fetch row info.col) else state.max

/-- The loop of `StatisticalAggGenerator::GenUpdate` over the columns: the counter is
updated once, for the first column that needs it. -/
def updateLoop (t : IntType) (row : Row) : List AggColumnInfo → List ColumnState → Bool → Nat →
    List ColumnState × Nat
  | info :: infos, state :: states, countUpdated, count =>
    let count' := if info.counts && !countUpdated then genCountUpdate count (fetch row info.col)
      else count
    let (states', count'') := updateLoop t row infos states (countUpdated || info.counts) count'
    (updateColumn t info state row :: states', count'')
  | _, _, _, count => ([], count)

/-- `StatisticalAggGenerator::GenUpdate`. -/
def StatisticalAggGenerator.genUpdate (gen : StatisticalAggGenerator) (state : GeneratorState)
    (row : Row) : GeneratorState :=
  let (columns, count) := updateLoop gen.colType row gen.infos state.columns false state.count
  { columns := columns, count := count }

/-- The value that `GenOutputs` gives the outputs of a function. -/
def columnOutput (state : ColumnState) (cnt : Nat) : AggFn → AggValue
  | .sum => .int (some state.sum)
  | .avg => .ratio state.avg cnt
  | .count => .int (some cnt)
  | .min => .int (if cnt = 0 then none else some state.min)
  | .max => .int (if cnt = 0 then none else some state.max)

/-- The outputs of a column in `GenOutputs`, in the source's order. -/
def columnOutputs (info : AggColumnInfo) (state : ColumnState) (cnt : Nat) :
    List (Nat × AggValue) :=
  [AggFn.sum, .avg, .count, .min, .max].flatMap fun fn =>
    (info.idxs fn).map fun idx => (idx, columnOutput state cnt fn)

/-- `StatisticalAggGenerator::GenOutputs`. -/
def StatisticalAggGenerator.genOutputs (gen : StatisticalAggGenerator) (state : GeneratorState) :
    List (Nat × AggValue) :=
  (gen.infos.zipWith (fun info column => columnOutputs info column state.count)
    state.columns).flatten

/-- The fields of the output row that the function of `AggregateIRBuilder::BuildMulti`
writes, on the columns sorted by offset: one loop over the window updates all
generators, and then all of them store their outputs. -/
def buildMulti (infos : List AggColumnInfo) (rows : List Row) (idx : Nat) : Option AggValue :=
  let generators := scheduleAggGenerators infos
  let states := rows.foldl
    (fun states row => generators.zipWith (fun gen state => gen.genUpdate state row) states)
    (generators.map fun gen => gen.genInitState)
  lastWrite (generators.zipWith (fun gen state => gen.genOutputs state) states).flatten idx

end HybridSE.Codegen
