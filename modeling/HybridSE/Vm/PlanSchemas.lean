import HybridSE.Vm.SchemasContext

/-!
# HybridSE.Vm.PlanSchemas

The schemas contexts of a physical plan: how `CreateOp` numbers the columns of a new node
(`InitSchema` of `src/vm/physical_op.cc`), and how `SchemasContext::ResolveColumnID` finds
the column that a reference `R.c` means.

A column that a node passes on keeps its id, `Merge`; a column that a node makes gets a new
one, `MergeWithNewID` and the computed items of a projection. The ids of a table are made
once for the whole plan, so that two providers of one table have the same ids. A reference
is resolved from the leaves up: in the context that has the name of the relation, a column
name gives an id; every node above takes the id over, if it is one of its own, or replaces
it by that of the column made from it.

Beside its id a column carries its `origin`, of which the code knows nothing and which
nothing here reads: the column of a table, or the node that made it. It says in the words of
the plan when two columns are one.
-/

namespace HybridSE.Vm

open HybridSE.Codec

/-! ### Columns -/

/-- Which column of the plan a column is. -/
inductive ColumnOrigin
  /-- A column of a table, read by any number of table providers. -/
  | table (table column : String)
  /-- A column of the request row. -/
  | request (table column : String)
  /-- The column with this index among those that a node has made. -/
  | node (node index : Nat)
  deriving DecidableEq

/-- A column of a `SchemaSource`; `source` is the producer and the id there,
`source_child_idxs_` and `source_child_column_ids_`. -/
structure NodeColumn extends SourceColumn where
  source : Option (Nat × Nat)
  origin : ColumnOrigin
  deriving DecidableEq

/-- The `SchemasContext` of a node: `root_relation_name_` and `schema_sources_`. -/
structure NodeSchemas where
  name : String
  sources : List (List NodeColumn)
  deriving DecidableEq

namespace NodeSchemas

variable (ctx : NodeSchemas)

/-- The names, types and ids. -/
def schemas : SchemasContext := ⟨ctx.sources.map (List.map NodeColumn.toSourceColumn)⟩

/-- `GetSchemaSourceSize`. -/
def slices : Nat := ctx.sources.length

/-- The column at a position. -/
def columnAt (pos : ColumnPos) : Option NodeColumn := (ctx.sources[pos.1]?).bind (·[pos.2]?)

/-- The columns in the order in which `Build` visits them. -/
def columns : List (ColumnPos × NodeColumn) :=
  ctx.sources.zipIdx.flatMap fun source =>
    source.1.zipIdx.map fun column => ((source.2, column.2), column.1)

/-- Whether `column_id_map_` has an id. -/
def hasID (id : Nat) : Bool := ctx.columns.any fun c => c.2.id = id

/-- Whether `column_name_map_` has a name. -/
def hasName (name : String) : Bool := ctx.columns.any fun c => c.2.name = name

/-- `child_source_map_`; a later column replaces an earlier one. -/
def childSource (childIdx columnId : Nat) : Option Nat :=
  ((ctx.columns.filter fun c => c.2.source = some (childIdx, columnId)).getLast?).map
    fun c => c.2.id

/-- The id, in this context, of a column that was found in a producer. -/
def mapColumnID (childIdx columnId : Nat) : Option Nat :=
  if ctx.hasID columnId then some columnId else ctx.childSource childIdx columnId

variable {ctx}

variable {pos : ColumnPos} {id : Nat}

theorem mem_columns {column} : (pos, column) ∈ ctx.columns ↔ ctx.columnAt pos = some column := by
  obtain ⟨schemaIdx, colIdx⟩ := pos
  unfold columns columnAt
  simp only [List.mem_flatMap, List.mem_map, Prod.exists, Prod.mk.injEq,
    List.mem_zipIdx_iff_getElem?, Option.bind_eq_some_iff]
  constructor
  · rintro ⟨source, i, hsource, column', j, hcolumn, ⟨rfl, rfl⟩, rfl⟩
    exact ⟨source, hsource, hcolumn⟩
  · rintro ⟨source, hsource, hcolumn⟩
    exact ⟨source, schemaIdx, hsource, column, colIdx, hcolumn, ⟨rfl, rfl⟩, rfl⟩

theorem columnAt_schemas (ctx : NodeSchemas) (pos : ColumnPos) :
    ctx.schemas.columnAt pos = (ctx.columnAt pos).map NodeColumn.toSourceColumn := by
  unfold SchemasContext.columnAt columnAt schemas
  rw [List.getElem?_map]
  cases ctx.sources[pos.1]? with
  | none => rfl
  | some source => simp

theorem hasID_iff :
    ctx.hasID id = true ↔ ∃ pos column, ctx.columnAt pos = some column ∧ column.id = id := by
  simp [hasID, mem_columns]

/-- An entry of `child_source_map_` is made by a column. -/
theorem columnAt_of_childSource {childIdx columnId}
    (h : ctx.childSource childIdx columnId = some id) :
    ∃ pos column, ctx.columnAt pos = some column ∧ column.source = some (childIdx, columnId) ∧
      column.id = id := by
  obtain ⟨c, hc, rfl⟩ := Option.map_eq_some_iff.mp h
  have hmem := List.mem_filter.mp (List.mem_of_getLast? hc)
  exact ⟨c.1, c.2, mem_columns.mp hmem.1, of_decide_eq_true hmem.2, rfl⟩

/-- What a producer's id is mapped to is an id of the context. -/
theorem hasID_of_mapColumnID {childIdx columnId} (h : ctx.mapColumnID childIdx columnId = some id) :
    ctx.hasID id = true := by
  unfold mapColumnID at h
  by_cases hid : ctx.hasID columnId = true
  · rw [if_pos hid] at h
    cases h
    exact hid
  · rw [if_neg hid] at h
    obtain ⟨pos, column, hcolumn, -, hid⟩ := columnAt_of_childSource h
    exact hasID_iff.mpr ⟨pos, column, hcolumn, hid⟩

/-- An id is resolved to a column that has it. -/
theorem columnAt_of_resolveColumnIndexByID (h : ctx.schemas.resolveColumnIndexByID id = some pos) :
    ∃ column, ctx.columnAt pos = some column ∧ column.id = id := by
  obtain ⟨column, hcolumn, hid⟩ := SchemasContext.columnAt_of_resolveColumnIndexByID h
  rw [columnAt_schemas] at hcolumn
  obtain ⟨column', hcolumn', rfl⟩ := Option.map_eq_some_iff.mp hcolumn
  exact ⟨column', hcolumn', hid⟩

/-- A name is resolved to a column that has it. -/
theorem columnAt_of_resolveColumnIndexByName {name}
    (h : ctx.schemas.resolveColumnIndexByName name = some pos) :
    ∃ column, ctx.columnAt pos = some column ∧ column.name = name := by
  obtain ⟨column, hcolumn, hname, -⟩ := SchemasContext.columnAt_of_resolveColumnIndexByName h
  rw [columnAt_schemas] at hcolumn
  obtain ⟨column', hcolumn', rfl⟩ := Option.map_eq_some_iff.mp hcolumn
  exact ⟨column', hcolumn', hname⟩

end NodeSchemas

/-! ### Operators -/

/-- An expression of a projection: a column, or anything else, whose value depends on the
row and on the rows of its window. -/
inductive ProjectExpr
  | columnRef (relation column : String)
  | columnId (id : Nat)
  | other (type : ColumnType) (value : Row → List Row → Value)

/-- An item of `ColumnProjects`. -/
structure ProjectItem where
  name : String
  expr : ProjectExpr

/-- A row of a request union: from the request, from the table or from a table that the
window adds to it. -/
inductive UnionRow
  | request (row : Nat)
  | table (row : Nat)
  | union (table row : Nat)

/-- `node::JoinType`, as far as there are runners for it. -/
inductive JoinType
  | last
  | concat
  deriving DecidableEq

/-- The operators that the transformers create. Which rows an operator selects, groups or
brings together is left to functions of the rows; positions stand for rows. -/
inductive PhysicalOp
  | tableProvider (table : String)
  | requestProvider (table : String)
  /-- Group by, sort, filter, distinct, limit: rows of the producer. -/
  | select (keep : List Row → List Nat)
  | rename (name : String)
  | constProject (items : List ProjectItem)
  | simpleProject (items : List ProjectItem)
  /-- Row and table projects and the aggregations: for every row that is put out, the row it
  is computed on (none, if an aggregation has no row) and its window. -/
  | project (items : List ProjectItem) (frames : List Row → List (Option Nat × List Row))
  | windowAggregation (items : List ProjectItem)
      (frames : List Row → List (Option Nat × List Row)) (appendInput : Bool)
  /-- `PhysicalJoinNode` and `PhysicalRequestJoinNode`: the pairs of rows on which the
  condition is evaluated, and those that are put out. -/
  | join (type : JoinType) (tested : List Row → List Row → List (Nat × Nat))
      (pairs : List Row → List Row → List (Option Nat × Option Nat))
  | union
  | requestUnion (window : List Row → List Row → List (List Row) → List UnionRow)

/-- `PhysicalOpNode`; the tables that a window adds are not among the producers. -/
inductive PhysicalOpNode
  | mk (id : Nat) (op : PhysicalOp) (schemas : NodeSchemas)
      (producers unions : List PhysicalOpNode)

namespace PhysicalOpNode

def op : PhysicalOpNode → PhysicalOp
  | mk _ op _ _ _ => op

/-- `schemas_ctx`. -/
def schemas : PhysicalOpNode → NodeSchemas
  | mk _ _ schemas _ _ => schemas

def producers : PhysicalOpNode → List PhysicalOpNode
  | mk _ _ _ producers _ => producers

def unions : PhysicalOpNode → List PhysicalOpNode
  | mk _ _ _ _ unions => unions

/-! ### Resolution -/

mutual

/-- Whether the loop of `ResolveColumnID` that follows a column to its source ends. -/
def traces : PhysicalOpNode → Nat → Bool
  | .mk _ _ schemas producers _, columnId =>
    ((schemas.schemas.resolveColumnIndexByID columnId).bind schemas.columnAt).elim false
      fun column => column.source.elim true fun source => tracesAt producers source.1 source.2

def tracesAt : List PhysicalOpNode → Nat → Nat → Bool
  | [], _, _ => false
  | producer :: _, 0, columnId => traces producer columnId
  | _ :: producers, childIdx + 1, columnId => tracesAt producers childIdx columnId

end

end PhysicalOpNode

/-- The candidates of the producers have to agree. -/
def agreedColumnID : List Nat → Option Nat
  | [] => none
  | first :: rest => if rest.all fun id => id = first then some first else none

namespace NodeSchemas

/-- `ResolveColumnID` in one context; `found` holds what was found in each producer. -/
def resolveColumnID (ctx : NodeSchemas) (producers : List PhysicalOpNode)
    (relation column : String) (found : List (Option Nat)) : Option Nat :=
  if (relation = "" ∨ relation = ctx.name) ∧ ctx.hasName column then
    ((ctx.schemas.resolveColumnIndexByName column).bind ctx.columnAt).bind fun column =>
      if column.source.elim true fun source =>
          PhysicalOpNode.tracesAt producers source.1 source.2 then
        some column.id
      else none
  else
    -- a producer in which the reference is ambiguous counts as one without it
    agreedColumnID (found.zipIdx.filterMap fun f => f.1.bind (ctx.mapColumnID f.2))

end NodeSchemas

namespace PhysicalOpNode

mutual

/-- `ResolveColumnID` of the context of a node. -/
def resolveColumnID (relation column : String) : PhysicalOpNode → Option Nat
  | .mk _ _ schemas producers _ =>
    schemas.resolveColumnID producers relation column (resolveColumnIDs relation column producers)

def resolveColumnIDs (relation column : String) : List PhysicalOpNode → List (Option Nat)
  | [] => []
  | producer :: producers =>
    resolveColumnID relation column producer :: resolveColumnIDs relation column producers

end

theorem resolveColumnIDs_eq_map (relation column : String) (producers : List PhysicalOpNode) :
    resolveColumnIDs relation column producers =
      producers.map (resolveColumnID relation column) := by
  induction producers with
  | nil => rfl
  | cons producer producers ih => rw [resolveColumnIDs, ih, List.map_cons]

end PhysicalOpNode

namespace NodeSchemas

/-- `ResolveColumnIndexByName` of a context whose root has these producers. -/
def resolveColumnIndexByName (ctx : NodeSchemas) (producers : List PhysicalOpNode)
    (relation column : String) : Option ColumnPos :=
  if relation = "" then ctx.schemas.resolveColumnIndexByName column
  else
    (ctx.resolveColumnID producers relation column
      (producers.map (PhysicalOpNode.resolveColumnID relation column))).bind
      ctx.schemas.resolveColumnIndexByID

/-- The position of the column that an expression is, if it is one. -/
def position (ctx : NodeSchemas) (producers : List PhysicalOpNode) :
    ProjectExpr → Option ColumnPos
  | .columnRef relation column => ctx.resolveColumnIndexByName producers relation column
  | .columnId id => ctx.schemas.resolveColumnIndexByID id
  | .other _ _ => none

end NodeSchemas

/-! ### Numbering -/

/-- The schemas of the tables of the catalog. -/
abbrev PlanCatalog : Type := String → Option (List (String × ColumnType))

/-- `PhysicalPlanContext`: the counter of `GetNewColumnID` and the ids of the tables and of
their request rows. -/
structure PhysicalPlanContext where
  columnIdCounter : Nat
  tableColumnIdMap : List (String × List (String × Nat))
  requestColumnIdMap : List (String × List (String × Nat))

namespace PhysicalPlanContext

/-- A new context. -/
def new : PhysicalPlanContext := ⟨1, [], []⟩

/-- New ids for the columns of a table; the last column of a name keeps its entry. -/
def columnDict (start : Nat) (schema : List (String × ColumnType)) : List (String × Nat) :=
  ((schema.zipIdx start).map fun column => (column.1.1, column.2)).reverse

/-- `InitializeSourceIdMappings` -/
def initializeSourceIdMappings (catalog : PlanCatalog) (table : String)
    (ctx : PhysicalPlanContext) : Option PhysicalPlanContext :=
  if (ctx.tableColumnIdMap.lookup table).isSome then some ctx
  else
    (catalog table).map fun schema =>
      { columnIdCounter := ctx.columnIdCounter + schema.length + schema.length
        tableColumnIdMap :=
          (table, columnDict ctx.columnIdCounter schema) :: ctx.tableColumnIdMap
        requestColumnIdMap :=
          (table, columnDict (ctx.columnIdCounter + schema.length) schema) ::
            ctx.requestColumnIdMap }

/-- `GetSourceID`, once the table is initialised. -/
def getSourceID (ctx : PhysicalPlanContext) (table column : String) : Option Nat :=
  (ctx.tableColumnIdMap.lookup table).bind (·.lookup column)

/-- `GetRequestSourceID`, once the table is initialised. -/
def getRequestSourceID (ctx : PhysicalPlanContext) (table column : String) : Option Nat :=
  (ctx.requestColumnIdMap.lookup table).bind (·.lookup column)

end PhysicalPlanContext

/-- `SchemasContext::Merge`. -/
def mergeColumns (childIdx : Nat) (child : NodeSchemas) : List (List NodeColumn) :=
  child.sources.map (List.map fun c => { c with source := some (childIdx, c.id) })

/-- `SchemasContext::MergeWithNewID` by the node `node`, whose first new id is `start`. -/
def mergeColumnsWithNewID (node start childIdx : Nat) :
    (index : Nat) → List (List NodeColumn) → List (List NodeColumn)
  | _, [] => []
  | index, source :: rest =>
    ((source.zipIdx index).map fun c =>
      { c.1 with
        id := start + c.2
        source := some (childIdx, c.1.id)
        origin := .node node c.2 }) ::
      mergeColumnsWithNewID node start childIdx (index + source.length) rest

/-- The number of columns. -/
def NodeSchemas.columnNum (ctx : NodeSchemas) : Nat := (ctx.sources.map List.length).sum

/-- The new ids that an item takes. -/
def ProjectItem.newIDs (item : ProjectItem) : Nat :=
  match item.expr with
  | .other _ _ => 1
  | _ => 0

/-- The column of an item of a projection, `InitProjectSchemaSource`; `index` new columns
came before it. -/
def projectColumn (node start : Nat) (input : NodeSchemas) (producers : List PhysicalOpNode)
    (index : Nat) (item : ProjectItem) : Option NodeColumn :=
  match item.expr with
  | .other type _ =>
    some
      { name := item.name, type := type, id := start + index, source := none,
        origin := .node node index }
  | expr =>
    ((input.position producers expr).bind input.columnAt).map fun column =>
      { column with name := item.name, source := some (0, column.id) }

/-- `InitProjectSchemaSource`. -/
def projectColumns (node start : Nat) (input : NodeSchemas) (producers : List PhysicalOpNode) :
    (index : Nat) → List ProjectItem → Option (List NodeColumn)
  | _, [] => some []
  | index, item :: rest =>
    (projectColumn node start input producers index item).bind fun column =>
      (projectColumns node start input producers (index + item.newIDs) rest).map (column :: ·)

/-- The columns of a provider: `origin` says which ids it takes. -/
def providerColumns (schema : List (String × ColumnType)) (getID : String → Option Nat)
    (origin : String → ColumnOrigin) : Option (List NodeColumn) :=
  schema.mapM fun column =>
    (getID column.1).map fun id =>
      { name := column.1, type := column.2, id := id, source := none, origin := origin column.1 }

/-- The empty context of a projection without a table. -/
def NodeSchemas.empty : NodeSchemas := ⟨"", []⟩

namespace PhysicalOpNode

/-- The schemas context of a join. -/
def joinColumns (node start : Nat) (left right : PhysicalOpNode) :
    JoinType → List (List NodeColumn)
  | .last =>
    mergeColumns 0 left.schemas ++ mergeColumnsWithNewID node start 1 0 right.schemas.sources
  | .concat => mergeColumns 0 left.schemas ++ mergeColumns 1 right.schemas

/-- `joined_schemas_ctx_`, under which the condition of a join is compiled. -/
def joinedSchemas (left right : PhysicalOpNode) : NodeSchemas :=
  ⟨"", mergeColumns 0 left.schemas ++ mergeColumns 1 right.schemas⟩

end PhysicalOpNode

/-- The new ids of a projection. -/
def newIDs (items : List ProjectItem) : Nat := (items.map ProjectItem.newIDs).sum

namespace PhysicalPlanContext

/-- `GetNewColumnID`, `count` times. -/
def advance (ctx : PhysicalPlanContext) (count : Nat) : PhysicalPlanContext :=
  { ctx with columnIdCounter := ctx.columnIdCounter + count }

end PhysicalPlanContext

/-- The columns of a table provider, `PhysicalDataProviderNode::InitSchema`. -/
def tableSchema (catalog : PlanCatalog) (table : String) (ctx : PhysicalPlanContext) :
    Option (NodeSchemas × PhysicalPlanContext) :=
  (ctx.initializeSourceIdMappings catalog table).bind fun ctx =>
    (catalog table).bind fun schema =>
      (providerColumns schema (ctx.getSourceID table) (.table table)).map fun columns =>
        (⟨table, [columns]⟩, ctx)

/-- `PhysicalRequestProviderNode::InitSchema`. -/
def requestSchema (catalog : PlanCatalog) (table : String) (ctx : PhysicalPlanContext) :
    Option (NodeSchemas × PhysicalPlanContext) :=
  (ctx.initializeSourceIdMappings catalog table).bind fun ctx =>
    (catalog table).bind fun schema =>
      (providerColumns schema (ctx.getRequestSourceID table) (.request table)).map fun columns =>
        (⟨table, [columns]⟩, ctx)

/-- The source of a projection over a context, followed by further sources. -/
def projectSchema (node : Nat) (items : List ProjectItem) (input : NodeSchemas)
    (producers : List PhysicalOpNode) (appended : List (List NodeColumn))
    (ctx : PhysicalPlanContext) : Option (NodeSchemas × PhysicalPlanContext) :=
  (projectColumns node ctx.columnIdCounter input producers 0 items).map fun columns =>
    (⟨"", columns :: appended⟩, ctx.advance (newIDs items))

/-- The new ids of a join. -/
def JoinType.newIDs (right : PhysicalOpNode) : JoinType → Nat
  | .last => right.schemas.columnNum
  | .concat => 0

/-- `InitSchema` of the node with this number. -/
def initSchema (catalog : PlanCatalog) (node : Nat) (op : PhysicalOp)
    (producers : List PhysicalOpNode) (ctx : PhysicalPlanContext) :
    Option (NodeSchemas × PhysicalPlanContext) :=
  match op, producers with
  | .tableProvider table, [] => tableSchema catalog table ctx
  | .requestProvider table, [] => requestSchema catalog table ctx
  | .select _, [input] => some (⟨"", mergeColumns 0 input.schemas⟩, ctx)
  | .rename name, [input] => some (⟨name, mergeColumns 0 input.schemas⟩, ctx)
  | .constProject items, [] => projectSchema node items .empty [] [] ctx
  | .simpleProject items, [input] =>
    projectSchema node items input.schemas input.producers [] ctx
  | .project items _, [input] => projectSchema node items input.schemas input.producers [] ctx
  | .windowAggregation items _ appendInput, [input] =>
    projectSchema node items input.schemas input.producers
      (if appendInput then mergeColumns 0 input.schemas else []) ctx
  | .join type _ _, [left, right] =>
    some (⟨"", PhysicalOpNode.joinColumns node ctx.columnIdCounter left right type⟩,
      ctx.advance (type.newIDs right))
  | .union, [left, _] | .requestUnion _, [left, _] =>
    some (⟨"", mergeColumnsWithNewID node ctx.columnIdCounter 0 0 left.schemas.sources⟩,
      ctx.advance left.schemas.columnNum)
  | _, _ => none

/-! ### Plans -/

/-- `IsSameSchema`: the same names and types. -/
def IsSameSchema (left right : PhysicalOpNode) : Prop :=
  left.schemas.sources.flatten.map (fun c => (c.name, c.type)) =
    right.schemas.sources.flatten.map fun c => (c.name, c.type)

/-- The two sides of a request union: `TransformWindowOp` and `TransformGroupOp` build the
right side from the table of the request, under the simple projection of the left. -/
inductive RequestSides : PhysicalOpNode → PhysicalOpNode → Prop
  | provider {left right : PhysicalOpNode} {table : String}
      (hleft : left.op = .requestProvider table) (hright : right.op = .tableProvider table) :
      RequestSides left right
  | simpleProject {left right request provider : PhysicalOpNode} {items : List ProjectItem}
      {table : String} (hleft : left.op = .simpleProject items) (hinput : left.producers = [request])
      (hright : right.op = .simpleProject items) (hinput' : right.producers = [provider])
      (hrequest : request.op = .requestProvider table)
      (hprovider : provider.op = .tableProvider table) :
      RequestSides left right

/-- What the transformers see to before they create a node. -/
def PhysicalOp.Allowed (producers unions : List PhysicalOpNode) : PhysicalOp → Prop
  | .requestUnion _ =>
    ∃ left right, producers = [left, right] ∧ RequestSides left right ∧
      ∀ union ∈ unions, IsSameSchema union left
  | .windowAggregation _ _ _ =>
    ∃ input, producers = [input] ∧ ∀ union ∈ unions, IsSameSchema union input
  | _ => unions = []

/-- The nodes that a transformer has created, the last one first: `CreateOp` takes producers
that exist already, possibly several times. -/
inductive Built (catalog : PlanCatalog) : PhysicalPlanContext → List PhysicalOpNode → Prop
  | new : Built catalog .new []
  | createOp {ctx ctx' : PhysicalPlanContext} {nodes producers unions : List PhysicalOpNode}
      {op : PhysicalOp} {schemas : NodeSchemas} (built : Built catalog ctx nodes)
      (hproducers : ∀ producer ∈ producers, producer ∈ nodes)
      (hunions : ∀ union ∈ unions, union ∈ nodes) (allowed : op.Allowed producers unions)
      (init : initSchema catalog nodes.length op producers ctx = some (schemas, ctx')) :
      Built catalog ctx' (.mk nodes.length op schemas producers unions :: nodes)

end HybridSE.Vm
