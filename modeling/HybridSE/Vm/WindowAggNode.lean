import HybridSE.Vm.SchemasContext
import HybridSE.Vm.WindowAggMap

/-!
# HybridSE.Vm.WindowAggNode

`PhysicalWindowAggrerationNode` without window joins: its expressions, compiled against
the schemas context of the first producer, give the `WindowAggRunner` that runs it. The
union windows are compiled against the same context (`GenWindowUnionList`).

What compiled code can tell of a row is whether it is empty, whether its size is zero
and the values of the columns that occur in the expressions: its `RowSeen`. A node
projects what its projections see (`run_eq_saw`), and that depends on the input only
through what can be told of its rows (`saw_eq`).
-/

namespace HybridSE.Vm

open HybridSE.Codec HybridSE.Lib List Option

variable {Out : Type*}

/-! ### The node -/

/-- A compiled expression and the columns that occur in it. -/
structure ColumnExpr (Out : Type*) where
  columns : List ColumnRef
  eval : List Value → Out

/-- The value of an expression on a row. -/
def ColumnExpr.read (e : ColumnExpr Out) (ctx : SchemasContext) (row : Row) : Out :=
  e.eval (e.columns.map (ctx.read row))

/-- `WindowOp`. A sort without an expression relies on the order of an index. -/
structure WindowOp where
  partition : Option (ColumnExpr (List Value))
  sortValid : Bool
  isAsc : Bool
  order : Option (ColumnExpr (BitVec 64))
  rangeColumns : List ColumnRef
  range : WindowRange

/-- The columns of the partition and the order. -/
def WindowOp.keyColumns (w : WindowOp) : List ColumnRef :=
  (w.partition.map ColumnExpr.columns).getD [] ++ (w.order.map ColumnExpr.columns).getD []

/-- `WindowOp::ResolvedRelatedColumns`. -/
def WindowOp.resolvedRelatedColumns (w : WindowOp) : List ColumnRef :=
  w.keyColumns ++ w.rangeColumns

/-- `PhysicalWindowAggrerationNode`. The columns of the projections are those that
`ResolveExprDependentColumns` finds, the columns of their windows included. -/
structure WindowAggNode where
  limitCnt : Nat
  projectColumns : List ColumnRef
  project : Nat × List Value × List (Entry (List Value)) → List Value
  window : WindowOp
  instanceNotInWindow : Bool
  excludeCurrentTime : Bool

/-- The columns that the window and the projections depend on. -/
def WindowAggNode.dependColumns (agg : WindowAggNode) : List ColumnRef :=
  agg.window.resolvedRelatedColumns ++ agg.projectColumns

/-- The generators of a window. `KeyGenerator::Gen` tests the size of the row;
`OrderGenerator::Gen` reads no value from an empty one. -/
def WindowOp.generator (w : WindowOp) (ctx : SchemasContext) : WindowGenerator Row where
  partitionGen := w.partition.map fun e row =>
    if row.sizeZero then none else some (e.read ctx row)
  sortGen :=
    { isValid := w.sortValid
      isAsc := w.isAsc
      orderGen := w.order.map fun e row => if row.isEmpty then -1 else e.read ctx row }
  range := w.range

/-- The runner of a node whose input has the columns `ctx`. -/
def WindowAggNode.runner (agg : WindowAggNode) (ctx : SchemasContext)
    (unionWindows : List WindowOp) : WindowAggRunner Row Row (List Value) where
  limitCnt := agg.limitCnt
  instanceNotInWindow := agg.instanceNotInWindow
  excludeCurrentTime := agg.excludeCurrentTime
  instanceWindow := agg.window.generator ctx
  unionWindows := unionWindows.map (·.generator ctx)
  join row := row
  isEmpty := Row.isEmpty
  project key row window :=
    let values row := agg.projectColumns.map (ctx.read row)
    some (agg.project (key, values row, window.map (mapEntry values)))

/-! ### What compiled code can tell of a row -/

/-- What compiled code can tell of a row. -/
structure RowSeen where
  isEmpty : Bool
  sizeZero : Bool
  value : ColumnRef → Value

/-- A row through the context that the code was compiled against. -/
def SchemasContext.seen (ctx : SchemasContext) (row : Row) : RowSeen where
  isEmpty := row.isEmpty
  sizeZero := row.sizeZero
  value := ctx.read row

/-- Only these columns of a row. -/
def RowSeen.only (columns : List ColumnRef) (row : RowSeen) : RowSeen where
  isEmpty := row.isEmpty
  sizeZero := row.sizeZero
  value ref := if ref ∈ columns then row.value ref else .null

/-- The value of an expression. -/
def ColumnExpr.readSeen (e : ColumnExpr Out) (row : RowSeen) : Out :=
  e.eval (e.columns.map row.value)

/-- The generators of a window, on what they can tell of the rows. -/
def WindowOp.seenGenerator (w : WindowOp) : WindowGenerator RowSeen where
  partitionGen := w.partition.map fun e row =>
    if row.sizeZero then none else some (e.readSeen row)
  sortGen :=
    { isValid := w.sortValid
      isAsc := w.isAsc
      orderGen := w.order.map fun e row => if row.isEmpty then -1 else e.readSeen row }
  range := w.range

theorem WindowOp.generator_eq_comap (w : WindowOp) (ctx : SchemasContext) :
    w.generator ctx = w.seenGenerator.comap ctx.seen := by
  unfold generator seenGenerator WindowGenerator.comap SortGenerator.comap
  simp only [Option.map_map]
  rfl

variable {columns : List ColumnRef}

theorem ColumnExpr.readSeen_only (e : ColumnExpr Out) (h : e.columns ⊆ columns) (row : RowSeen) :
    e.readSeen (row.only columns) = e.readSeen row := by
  refine congrArg e.eval (map_congr_left fun ref href => ?_)
  exact if_pos (h href)

theorem WindowOp.seenGenerator_only (w : WindowOp) (h : w.resolvedRelatedColumns ⊆ columns) :
    w.seenGenerator.comap (RowSeen.only columns) = w.seenGenerator := by
  obtain ⟨partition, sortValid, isAsc, order, rangeColumns, range⟩ := w
  unfold resolvedRelatedColumns keyColumns at h
  rw [append_subset, append_subset] at h
  unfold seenGenerator WindowGenerator.comap SortGenerator.comap
  congr 1
  · cases partition with
    | none => rfl
    | some e =>
      refine congrArg some (funext fun row => ?_)
      simp only [comapKeyGen, e.readSeen_only h.1.1]
      rfl
  · congr 1
    cases order with
    | none => rfl
    | some e =>
      refine congrArg some (funext fun row => ?_)
      simp only [e.readSeen_only h.1.2]
      rfl

/-- On the columns a window depends on, its generators are those of what they see. -/
theorem WindowOp.generator_eq_comap_only (w : WindowOp) (ctx : SchemasContext)
    (h : w.resolvedRelatedColumns ⊆ columns) :
    w.generator ctx = w.seenGenerator.comap fun row => (ctx.seen row).only columns := by
  calc w.generator ctx = w.seenGenerator.comap ctx.seen := w.generator_eq_comap ctx
    _ = (w.seenGenerator.comap (RowSeen.only columns)).comap ctx.seen := by
        rw [w.seenGenerator_only h]
    _ = w.seenGenerator.comap fun row => (ctx.seen row).only columns :=
        WindowGenerator.comap_comap _ _ _

/-! ### What the projections of a node see -/

/-- The rows of a table in the partition of a key, sorted. -/
def WindowOp.rowsOfKey (w : WindowOp) (std : KeySort) (ctx : SchemasContext)
    (data : DataHandler Row) (key : List Byte) : List (Entry Row) :=
  ((partitionOf (w.generator ctx).partitionGen data).bind fun q =>
    (w.generator ctx).segment std q key).getD []

/-- The same of what can be told of the rows. -/
def WindowOp.seenOfKey (w : WindowOp) (std : KeySort) (data : DataHandler RowSeen)
    (key : List Byte) : List (Entry RowSeen) :=
  ((partitionOf w.seenGenerator.partitionGen data).bind fun q =>
    w.seenGenerator.segment std q key).getD []

theorem WindowOp.seenOfKey_eq (w : WindowOp) (std : KeySort) (ctx : SchemasContext)
    (h : w.resolvedRelatedColumns ⊆ columns) (data : DataHandler Row) (key : List Byte) :
    w.seenOfKey std (data.map fun row => (ctx.seen row).only columns) key =
      (w.rowsOfKey std ctx data key).map (mapEntry fun row => (ctx.seen row).only columns) := by
  unfold seenOfKey rowsOfKey
  rw [w.generator_eq_comap_only ctx h, partitionOf_map]
  have hpartition : (w.seenGenerator.comap fun row => (ctx.seen row).only columns).partitionGen =
      w.seenGenerator.partitionGen.map (comapKeyGen fun row => (ctx.seen row).only columns) := rfl
  rw [hpartition]
  cases partitionOf (w.seenGenerator.partitionGen.map
      (comapKeyGen fun row => (ctx.seen row).only columns)) data with
  | none => rfl
  | some q =>
    rw [map_some, bind_some, bind_some, WindowGenerator.segment_map]
    cases (w.seenGenerator.comap fun row => (ctx.seen row).only columns).segment std q key <;> rfl

namespace WindowAggNode

variable (agg : WindowAggNode) (std : KeySort) (ctx : SchemasContext) (columns : List ColumnRef)

/-- What the projections of a node see of the columns, for each output row. -/
def saw (unions : List (WindowOp × DataHandler Row)) (input : DataHandler Row) :
    Option (List (Option (Nat × RowSeen × List (Entry RowSeen)))) :=
  (((agg.runner ctx (unions.map Prod.fst)).withProject sees).run std input
    (unions.map Prod.snd)).map
      (List.map (Option.map (seenMap fun row => (ctx.seen row).only columns)))

/-- What the projections see of a partition, given the rows of the unions for each key. -/
def seenRows (p : PartitionHandler RowSeen)
    (unionRows : List Byte → List (List (Entry RowSeen))) :
    List (Option (Nat × RowSeen × List (Entry RowSeen))) :=
  p.keys.flatMap fun key =>
    match agg.window.seenGenerator.segment std p key with
    | none => []
    | some segment =>
      windowAggRows RowSeen.isEmpty sees 0 segment (unionRows key)
        (HistoryWindow.new agg.window.range agg.excludeCurrentTime agg.instanceNotInWindow) []

theorem seenRows_congr {p unionRows unionRows'}
    (h : ∀ key ∈ p.keys, unionRows key = unionRows' key) :
    agg.seenRows std p unionRows = agg.seenRows std p unionRows' := by
  refine flatMap_congr fun key hkey => ?_
  rw [h key hkey]

theorem length_seenRows (p : PartitionHandler RowSeen)
    (unionRows : List Byte → List (List (Entry RowSeen))) :
    (agg.seenRows std p unionRows).length = (p.keys.map fun key =>
      ((agg.window.seenGenerator.segment std p key).getD []).length).sum := by
  unfold seenRows
  rw [length_flatMap]
  refine congrArg List.sum (map_congr_left fun key _ => ?_)
  cases agg.window.seenGenerator.segment std p key with
  | none => rfl
  | some segment =>
    rw [length_windowAggRows, length_nil, Nat.zero_add, getD_some]

theorem unionSegments_runner (unions : List (WindowOp × DataHandler Row)) (key : List Byte) :
    (agg.runner ctx (unions.map Prod.fst)).unionSegments std
        ((agg.runner ctx (unions.map Prod.fst)).partitionEach (unions.map Prod.snd)) key =
      unions.map fun u => u.1.rowsOfKey std ctx u.2 key := by
  unfold WindowAggRunner.unionSegments WindowAggRunner.partitionEach runner
  simp only [zipWith_map_left, zipWith_map_right, zipWith_self]
  rfl

/-- The projections see rows and windows that depend on the input only through what the
code can tell of the columns. -/
theorem saw_eq (h : agg.window.resolvedRelatedColumns ⊆ columns)
    (unions : List (WindowOp × DataHandler Row)) (input : DataHandler Row) :
    agg.saw std ctx columns unions input =
      (partitionOf agg.window.seenGenerator.partitionGen
        (input.map fun row => (ctx.seen row).only columns)).map fun p =>
          limitRows agg.limitCnt (agg.seenRows std p fun key => unions.map fun u =>
            (u.1.rowsOfKey std ctx u.2 key).map
              (mapEntry fun row => (ctx.seen row).only columns)) := by
  have hgen := agg.window.generator_eq_comap_only ctx h
  have hpartition : (agg.window.generator ctx).partitionGen =
      agg.window.seenGenerator.partitionGen.map
        (comapKeyGen fun row => (ctx.seen row).only columns) := by
    rw [hgen]
    rfl
  unfold saw
  rw [WindowAggRunner.run_eq, partitionOf_map, Option.map_map, Option.map_map, ← hpartition]
  refine congrFun (congrArg Option.map (funext fun p => ?_)) _
  rw [Function.comp_apply, ← limitRows_map]
  refine congrArg (limitRows agg.limitCnt) ?_
  unfold WindowAggRunner.allRows seenRows
  rw [map_flatMap, PartitionHandler.keys_map]
  refine flatMap_congr fun key _ => ?_
  rw [WindowGenerator.segment_map, ← hgen]
  have hunions : ((agg.runner ctx (unions.map Prod.fst)).withProject sees).unionSegments std
      (((agg.runner ctx (unions.map Prod.fst)).withProject sees).partitionEach
        (unions.map Prod.snd)) key = unions.map fun u => u.1.rowsOfKey std ctx u.2 key :=
    agg.unionSegments_runner std ctx unions key
  have hwindow : ((agg.runner ctx (unions.map Prod.fst)).withProject
      (sees (R := Row))).instanceWindow = agg.window.generator ctx := rfl
  unfold WindowAggRunner.rowsOnKey
  rw [hunions, hwindow]
  cases (agg.window.generator ctx).segment std p key with
  | none => rfl
  | some segment =>
    have hempty : RowSeen.isEmpty ∘ (fun row : Row => (ctx.seen row).only columns) =
        Row.isEmpty := rfl
    have hsees := windowAggRows_sees (fun row => (ctx.seen row).only columns) hempty segment
      (unions.map fun u => u.1.rowsOfKey std ctx u.2 key)
      (HistoryWindow.new agg.window.range agg.excludeCurrentTime agg.instanceNotInWindow)
    rw [List.map_map] at hsees
    refine Eq.trans ?_ hsees.symm
    simp only [WindowAggRunner.withProject, runner, mapEntry_id, List.map_id_fun]
    rfl

/-- The projections of a node, on what they see. -/
def projectSeen (seen : Nat × RowSeen × List (Entry RowSeen)) : List Value :=
  let values row := agg.projectColumns.map (RowSeen.value row)
  agg.project (seen.1, values seen.2.1, seen.2.2.map (mapEntry values))

/-- A node projects what its projections see. -/
theorem run_eq_saw (h : agg.projectColumns ⊆ columns)
    (unions : List (WindowOp × DataHandler Row)) (input : DataHandler Row) :
    (agg.runner ctx (unions.map Prod.fst)).run std input (unions.map Prod.snd) =
      (agg.saw std ctx columns unions input).map (List.map (Option.map agg.projectSeen)) := by
  have hvalues : ∀ row : Row, agg.projectColumns.map ((ctx.seen row).only columns).value =
      agg.projectColumns.map (ctx.read row) := fun row =>
    map_congr_left fun ref href => if_pos (h href)
  have hproject : (agg.runner ctx (unions.map Prod.fst)).project =
      projectAll fun seen => agg.projectSeen
        (seenMap (fun row => (ctx.seen row).only columns) seen) := by
    simp only [projectSeen, seenMap, hvalues, List.map_map,
      Function.comp_def, mapEntry]
    rfl
  have hrunner : agg.runner ctx (unions.map Prod.fst) =
      (agg.runner ctx (unions.map Prod.fst)).withProject
        (agg.runner ctx (unions.map Prod.fst)).project := rfl
  unfold saw
  rw [hrunner, hproject, WindowAggRunner.run_project, Option.map_map]
  refine congrFun (congrArg Option.map (funext fun rows => ?_)) _
  rw [Function.comp_apply, List.map_map]
  refine map_congr_left fun row _ => ?_
  rw [Function.comp_apply, Option.map_map]
  rfl

end WindowAggNode

end HybridSE.Vm
