import HybridSE.Lib.MapOption
import HybridSE.Vm.PlanSchemas

/-!
# HybridSE.Vm.PlanRows

The rows of a physical plan, each with what the relations it was made from show.

A row that a node puts out was made from rows of its producers. `TracedRow.relations` keeps,
beside the row, what every relation of the query below the node holds for it: the columns of
a provider under the name of the table, those of a `PhysicalRenameNode` under its name. This
is the meaning of `R.c` for the row; the positions and the ids of the columns play no part in
it. Where a join finds no partner the columns of the relations of that side are NULL.
-/

namespace HybridSE.Vm

open HybridSE.Codec

/-- The contents of the tables, and the request row. -/
structure Database where
  tables : String → List Row
  request : String → Row

/-- A row with the values of the columns of the relations that it was made from. -/
structure TracedRow where
  row : Row
  relations : List (String × String × Value)
  deriving DecidableEq

/-- What the relation of a named context shows in a row. -/
def NodeSchemas.relations (ctx : NodeSchemas) (row : Row) : List (String × String × Value) :=
  ctx.columns.map fun c => (ctx.name, c.2.name, row.get c.1)

namespace PhysicalOpNode

mutual

/-- The columns of the relations below a node. -/
def relationColumns : PhysicalOpNode → List (String × String)
  | .mk _ _ schemas producers _ =>
    schemas.columns.map (fun c => (schemas.name, c.2.name)) ++ relationColumnsAll producers

def relationColumnsAll : List PhysicalOpNode → List (String × String)
  | [] => []
  | producer :: producers => relationColumns producer ++ relationColumnsAll producers

end

/-- The columns of a row of the left side of a request union that are columns of the table:
a row of a table that the window adds takes their place. -/
def carriedColumns : PhysicalOpNode → List (String × String × ColumnPos)
  | .mk _ (.requestProvider _) schemas _ _ =>
    schemas.columns.map fun c => (schemas.name, c.2.name, c.1)
  | .mk _ (.simpleProject items) _ [input] _ =>
    items.zipIdx.filterMap fun item =>
      ((input.schemas.position input.producers item.1.expr).bind input.schemas.columnAt).map
        fun column => (input.schemas.name, column.name, (0, item.2))
  | _ => []

end PhysicalOpNode

namespace TracedRow

/-- No row of a node. -/
def missing (node : PhysicalOpNode) : TracedRow :=
  ⟨Row.new, node.relationColumns.map fun c => (c.1, c.2, .null)⟩

/-- The row of a node at an index. -/
def pick (node : PhysicalOpNode) (rows : List TracedRow) (index : Option Nat) : TracedRow :=
  (index.bind (rows[·]?)).getD (missing node)

/-- A row of a join. -/
def join (left right : PhysicalOpNode) (l r : TracedRow) : TracedRow :=
  ⟨Row.join left.schemas.slices l.row right.schemas.slices r.row, l.relations ++ r.relations⟩

end TracedRow

/-! ### Projections -/

section Project

variable (input : NodeSchemas) (producers : List PhysicalOpNode)

/-- The value of an item on a row and its window. -/
def ProjectItem.value (row : Row) (window : List Row) (item : ProjectItem) : Value :=
  match item.expr with
  | .other _ value => value row window
  | expr => ((input.position producers expr).map row.get).getD .null

/-- The slice of a projected row. -/
def projectSlice (items : List ProjectItem) (row : Row) (window : List Row) : Slice :=
  some (items.map (ProjectItem.value input producers row window))

/-- A projected row; the row of no row is empty. -/
def projectRow (items : List ProjectItem) (row : Row) (window : List Row) : Row :=
  if row.isEmpty then Row.new else Row.ofSlice (projectSlice input producers items row window)

/-- A row through `SelectSliceRunner` or `SimpleProjectRunner`. -/
def simpleProjectRow (items : List ProjectItem) (row : Row) : Row :=
  (items.mapM fun item => input.position producers item.expr).elim
    (projectRow input producers items row []) fun positions =>
      simpleProject input.schemas positions row

/-- A row of a window aggregation. -/
def windowRow (items : List ProjectItem) (appendInput : Bool) (row : Row) (window : List Row) :
    Row :=
  if row.isEmpty then Row.new
  else if appendInput then
    Row.ofSliceAnd (projectSlice input producers items row window) input.slices row
  else Row.ofSlice (projectSlice input producers items row window)

variable {input producers} {items : List ProjectItem} {i : Nat} {item : ProjectItem}
  {pos : ColumnPos}

/-- The value of an item that is a column. -/
theorem ProjectItem.value_of_position (hpos : input.position producers item.expr = some pos)
    (row : Row) (window : List Row) : item.value input producers row window = row.get pos := by
  obtain ⟨name, expr⟩ := item
  cases expr with
  | other type value => cases hpos
  | columnRef relation column =>
    show ((input.position producers _).map row.get).getD .null = row.get pos
    rw [hpos]
    rfl
  | columnId id =>
    show ((input.position producers _).map row.get).getD .null = row.get pos
    rw [hpos]
    rfl

theorem get_projectSlice (hitem : items[i]? = some item)
    (hpos : input.position producers item.expr = some pos) (row : Row) (window : List Row) :
    ((projectSlice input producers items row window).bind (·[i]?)).getD .null = row.get pos := by
  rw [projectSlice, Option.bind_some, List.getElem?_map, hitem, Option.map_some, Option.getD_some,
    ProjectItem.value_of_position hpos]

/-- A projection copies the values of the items that are columns. -/
theorem get_projectRow (hitem : items[i]? = some item)
    (hpos : input.position producers item.expr = some pos) (row : Row) (window : List Row) :
    (projectRow input producers items row window).get (0, i) = row.get pos := by
  unfold projectRow
  by_cases hempty : row.isEmpty = true
  · rw [if_pos hempty, Row.eq_new_of_isEmpty hempty, Row.get_new, Row.get_new]
  · rw [if_neg hempty, Row.get_ofSlice_zero, get_projectSlice hitem hpos]

theorem get_simpleProjectRow (hitem : items[i]? = some item)
    (hpos : input.position producers item.expr = some pos) (row : Row) :
    (simpleProjectRow input producers items row).get (0, i) = row.get pos := by
  unfold simpleProjectRow
  cases hpositions : items.mapM fun item => input.position producers item.expr with
  | none => exact get_projectRow hitem hpos row []
  | some positions =>
    have hlength : items.length = positions.length :=
      (Lib.forall₂_of_mapM hpositions).length_eq
    have hi : i < positions.length := hlength ▸ (List.getElem?_eq_some_iff.mp hitem).1
    obtain ⟨item', hitem', hpos'⟩ :=
      Lib.getElem?_of_forall₂ (Lib.forall₂_of_mapM hpositions) (List.getElem?_eq_getElem hi)
    rw [hitem] at hitem'
    cases hitem'
    rw [hpos] at hpos'
    exact get_simpleProject _ row (by rw [List.getElem?_eq_getElem hi, hpos'])

/-- A window aggregation copies too, and the slices of its input follow if they are appended. -/
theorem get_windowRow (hitem : items[i]? = some item)
    (hpos : input.position producers item.expr = some pos) (appendInput : Bool) (row : Row)
    (window : List Row) :
    (windowRow input producers items appendInput row window).get (0, i) = row.get pos := by
  unfold windowRow
  by_cases hempty : row.isEmpty = true
  · rw [if_pos hempty, Row.eq_new_of_isEmpty hempty, Row.get_new, Row.get_new]
  · rw [if_neg hempty]
    cases appendInput with
    | false =>
      rw [if_neg Bool.false_ne_true, Row.get_ofSlice_zero, get_projectSlice hitem hpos]
    | true =>
      exact get_projectSlice hitem hpos row window

theorem get_windowRow_succ {slice col} (hslice : slice < input.slices) (row : Row)
    (window : List Row) :
    (windowRow input producers items true row window).get (slice + 1, col) =
      row.get (slice, col) := by
  unfold windowRow
  by_cases hempty : row.isEmpty = true
  · rw [if_pos hempty, Row.eq_new_of_isEmpty hempty, Row.get_new, Row.get_new]
  · simp [Row.get, Row.getSlice_ofSliceAnd_succ _ _ hslice, hempty]

end Project

/-! ### Running a plan -/

/-- A row of a request union. -/
def UnionRow.traced (left : PhysicalOpNode) (leftRows rightRows : List TracedRow)
    (unions : List (List TracedRow)) : UnionRow → Option TracedRow
  | .request row => leftRows[row]?
  | .table row => rightRows[row]?
  | .union index row =>
    ((unions[index]?).bind (·[row]?)).map fun t =>
      ⟨t.row, left.carriedColumns.map fun c => (c.1, c.2.1, t.row.get c.2.2)⟩

/-- The rows of an operator whose producers put out `inputs`. There is no runner for a
union. -/
def PhysicalOp.run (db : Database) (schemas : NodeSchemas) (op : PhysicalOp)
    (producers : List PhysicalOpNode) (inputs unions : List (List TracedRow)) : List TracedRow :=
  match op, producers, inputs with
  | .tableProvider table, _, _ =>
    (db.tables table).map fun row => ⟨row, schemas.relations row⟩
  | .requestProvider table, _, _ => [⟨db.request table, schemas.relations (db.request table)⟩]
  | .select keep, _, [rows] => (keep (rows.map TracedRow.row)).filterMap (rows[·]?)
  | .rename _, _, [rows] =>
    rows.map fun t => ⟨t.row, schemas.relations t.row ++ t.relations⟩
  | .constProject items, _, _ =>
    [⟨Row.ofSlice (projectSlice .empty [] items Row.new []), []⟩]
  | .simpleProject items, [input], [rows] =>
    rows.map fun t => ⟨simpleProjectRow input.schemas input.producers items t.row, t.relations⟩
  | .project items frames, [input], [rows] =>
    (frames (rows.map TracedRow.row)).map fun frame =>
      let t := TracedRow.pick input rows frame.1
      ⟨projectRow input.schemas input.producers items t.row frame.2, t.relations⟩
  | .windowAggregation items frames appendInput, [input], [rows] =>
    (frames (rows.map TracedRow.row)).map fun frame =>
      let t := TracedRow.pick input rows frame.1
      ⟨windowRow input.schemas input.producers items appendInput t.row frame.2, t.relations⟩
  | .join _ _ pairs, [left, right], [leftRows, rightRows] =>
    (pairs (leftRows.map TracedRow.row) (rightRows.map TracedRow.row)).map fun pair =>
      .join left right (.pick left leftRows pair.1) (.pick right rightRows pair.2)
  | .requestUnion window, [left, _], [leftRows, rightRows] =>
    (window (leftRows.map TracedRow.row) (rightRows.map TracedRow.row)
      (unions.map (List.map TracedRow.row))).filterMap
      (UnionRow.traced left leftRows rightRows unions)
  | _, _, _ => []

/-- The pairs of rows that a join brings together: on the first ones the condition is
evaluated, the others are put out. -/
def PhysicalOp.joinedPairs (op : PhysicalOp) (producers : List PhysicalOpNode)
    (inputs : List (List TracedRow)) : List (TracedRow × TracedRow) :=
  match op, producers, inputs with
  | .join _ tested pairs, [left, right], [leftRows, rightRows] =>
    (tested (leftRows.map TracedRow.row) (rightRows.map TracedRow.row)).map
        (fun pair => (.pick left leftRows (some pair.1), .pick right rightRows (some pair.2))) ++
      (pairs (leftRows.map TracedRow.row) (rightRows.map TracedRow.row)).map
        fun pair => (.pick left leftRows pair.1, .pick right rightRows pair.2)
  | _, _, _ => []

namespace PhysicalOpNode

mutual

/-- The rows that a node puts out. -/
def run (db : Database) : PhysicalOpNode → List TracedRow
  | .mk _ op schemas producers unions =>
    op.run db schemas producers (runAll db producers) (runAll db unions)

def runAll (db : Database) : List PhysicalOpNode → List (List TracedRow)
  | [] => []
  | producer :: producers => run db producer :: runAll db producers

end

/-- The pairs of rows that a join brings together. -/
def joinedPairs (db : Database) (node : PhysicalOpNode) : List (TracedRow × TracedRow) :=
  node.op.joinedPairs node.producers (node.producers.map (run db))

mutual

/-- The nodes of a plan. -/
def nodes : PhysicalOpNode → List PhysicalOpNode
  | .mk id op schemas producers unions =>
    .mk id op schemas producers unions :: (nodesAll producers ++ nodesAll unions)

def nodesAll : List PhysicalOpNode → List PhysicalOpNode
  | [] => []
  | producer :: producers => nodes producer ++ nodesAll producers

end

theorem nodesAll_eq_flatMap (producers : List PhysicalOpNode) :
    nodesAll producers = producers.flatMap nodes := by
  induction producers with
  | nil => rfl
  | cons producer producers ih => rw [nodesAll, ih, List.flatMap_cons]

theorem mem_nodes {node} {other : PhysicalOpNode} :
    other ∈ node.nodes ↔
      other = node ∨ ∃ child ∈ node.producers ++ node.unions, other ∈ child.nodes := by
  cases node with
  | mk id op schemas producers unions =>
    rw [nodes, nodesAll_eq_flatMap, nodesAll_eq_flatMap, ← List.flatMap_append, List.mem_cons,
      List.mem_flatMap]
    rfl

end PhysicalOpNode

end HybridSE.Vm
