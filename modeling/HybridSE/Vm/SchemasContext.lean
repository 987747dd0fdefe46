import Mathlib.Algebra.Order.BigOperators.Group.List
import HybridSE.Codec.Row

/-!
# HybridSE.Vm.SchemasContext

`SchemasContext` of `src/vm/schemas_context.cc`, the columns of a physical node, and the
two ways in which `PhysicalSimpleProjectNode` is run.

Every column has a name, a type and an id; a column that is passed on keeps its id, so
one id may occur at several positions. `column_id_map_` keeps the last of them. A name
without a relation is resolved in the context itself; a qualified one is resolved to
the id of its column first, like the `ColumnId` nodes of the passes.
-/

namespace HybridSE.Vm

open HybridSE.Codec List Option

/-- A column of a `SchemaSource`. -/
structure SourceColumn where
  name : String
  type : ColumnType
  id : Nat
  deriving DecidableEq

/-- `SchemasContext`: the columns of each schema source. -/
structure SchemasContext where
  sources : List (List SourceColumn)

/-- A column of an expression. -/
inductive ColumnRef
  | columnRef (name : String)
  | columnId (id : Nat)
  deriving DecidableEq

namespace SchemasContext

variable (ctx : SchemasContext)

/-- The column at a position. -/
def columnAt (pos : ColumnPos) : Option SourceColumn := (ctx.sources[pos.1]?).bind (·[pos.2]?)

/-- The columns in the order in which `Build` visits them. -/
def columns : List (ColumnPos × SourceColumn) :=
  ctx.sources.zipIdx.flatMap fun source =>
    source.1.zipIdx.map fun column => ((source.2, column.2), column.1)

theorem mem_columns {pos column} :
    (pos, column) ∈ ctx.columns ↔ ctx.columnAt pos = some column := by
  obtain ⟨schemaIdx, colIdx⟩ := pos
  unfold columns columnAt
  simp only [mem_flatMap, List.mem_map, Prod.exists, Prod.mk.injEq,
    mem_zipIdx_iff_getElem?, bind_eq_some_iff]
  constructor
  · rintro ⟨source, i, hsource, column', j, hcolumn, ⟨rfl, rfl⟩, rfl⟩
    exact ⟨source, hsource, hcolumn⟩
  · rintro ⟨source, hsource, hcolumn⟩
    exact ⟨source, schemaIdx, hsource, column, colIdx, hcolumn, ⟨rfl, rfl⟩, rfl⟩

/-- `ResolveColumnIndexByName` without a relation name. -/
def resolveColumnIndexByName (name : String) : Option ColumnPos :=
  match ctx.columns.filter fun c => c.2.name = name with
  | [] => none
  | first :: rest =>
    -- `IsColumnAmbiguous`
    if rest.all fun c => c.2.id = first.2.id then some first.1 else none

/-- `ResolveColumnIndexByID`. -/
def resolveColumnIndexByID (id : Nat) : Option ColumnPos :=
  ((ctx.columns.filter fun c => c.2.id = id).getLast?).map Prod.fst

/-- `ResolveColumnRefIndex`. -/
def resolve : ColumnRef → Option ColumnPos
  | .columnRef name => ctx.resolveColumnIndexByName name
  | .columnId id => ctx.resolveColumnIndexByID id

/-- The value that compiled code reads for a column. -/
def read (row : Row) (ref : ColumnRef) : Value := ((ctx.resolve ref).map row.get).getD .null

variable {ctx}

theorem read_of_resolve {ref pos} (h : ctx.resolve ref = some pos) (row : Row) :
    ctx.read row ref = row.get pos := by
  rw [read, h]
  rfl

/-- An id is resolved to a column that has it. -/
theorem columnAt_of_resolveColumnIndexByID {id pos} (h : ctx.resolveColumnIndexByID id = some pos) :
    ∃ column, ctx.columnAt pos = some column ∧ column.id = id := by
  obtain ⟨c, hc, rfl⟩ := map_eq_some_iff.mp h
  have hmem := mem_filter.mp (mem_of_getLast? hc)
  exact ⟨c.2, ctx.mem_columns.mp hmem.1, of_decide_eq_true hmem.2⟩

/-- A name is resolved to a column that has it, and all columns of the name have its id. -/
theorem columnAt_of_resolveColumnIndexByName {name pos}
    (h : ctx.resolveColumnIndexByName name = some pos) :
    ∃ column, ctx.columnAt pos = some column ∧ column.name = name ∧
      ∀ pos' column', ctx.columnAt pos' = some column' → column'.name = name →
        column'.id = column.id := by
  unfold resolveColumnIndexByName at h
  split at h
  case h_1 => cases h
  case h_2 first rest hfilter =>
    split at h
    case isFalse => cases h
    case isTrue hrest =>
      cases h
      have hmem := mem_filter.mp
        (hfilter ▸ mem_cons_self : first ∈ ctx.columns.filter fun c => c.2.name = name)
      refine ⟨first.2, ctx.mem_columns.mp hmem.1, of_decide_eq_true hmem.2, ?_⟩
      intro pos' column' hcolumn hname
      have hmem' : (pos', column') ∈ ctx.columns.filter fun c => c.2.name = name :=
        mem_filter.mpr ⟨ctx.mem_columns.mpr hcolumn, decide_eq_true hname⟩
      rw [hfilter, mem_cons] at hmem'
      rcases hmem' with heq | hmem'
      · rw [← heq]
      · exact of_decide_eq_true (List.all_eq_true.mp hrest _ hmem')

/-- A column that is resolved is there. -/
theorem columnAt_of_resolve {ref pos} (h : ctx.resolve ref = some pos) :
    ∃ column, ctx.columnAt pos = some column := by
  cases ref with
  | columnRef name =>
    obtain ⟨column, hcolumn, -⟩ := columnAt_of_resolveColumnIndexByName h
    exact ⟨column, hcolumn⟩
  | columnId id =>
    obtain ⟨column, hcolumn, -⟩ := columnAt_of_resolveColumnIndexByID h
    exact ⟨column, hcolumn⟩

end SchemasContext

/-! ### Simple projections -/

/-- `PhysicalSimpleProjectNode::GetSelectSourceIndex` for columns at these positions. -/
def getSelectSourceIndex (ctx : SchemasContext) (positions : List ColumnPos) : Option Nat :=
  match positions with
  | [] => none
  | first :: _ =>
    if (ctx.sources[first.1]?).map List.length = some positions.length ∧
        positions = (List.range positions.length).map fun i => (first.1, i) then
      some first.1
    else none

/-- A row through `SelectSliceRunner` or `SimpleProjectRunner`. -/
def simpleProject (ctx : SchemasContext) (positions : List ColumnPos) (row : Row) : Row :=
  match getSelectSourceIndex ctx positions with
  | some slice => Row.ofSlice (row.getSlice slice)
  | none => if row.isEmpty then Row.new else Row.ofSlice (some (positions.map row.get))

/-- The slice that decides whether the projected row is empty. -/
theorem getSelectSourceIndex_eq_some {ctx positions slice}
    (h : getSelectSourceIndex ctx positions = some slice) :
    positions = (List.range positions.length).map fun i => (slice, i) := by
  unfold getSelectSourceIndex at h
  split at h
  case h_1 => cases h
  case h_2 first rest =>
    split at h
    case isFalse => cases h
    case isTrue hsame =>
      cases h
      exact hsame.2

/-- A simple projection moves the columns into one slice. -/
theorem get_simpleProject (ctx : SchemasContext) {positions} (row : Row) {i pos}
    (hi : positions[i]? = some pos) :
    (simpleProject ctx positions row).get (0, i) = row.get pos := by
  unfold simpleProject
  split
  case h_1 slice hslice =>
    rw [getSelectSourceIndex_eq_some hslice, getElem?_map, map_eq_some_iff] at hi
    obtain ⟨j, hj, rfl⟩ := hi
    obtain ⟨hlt, rfl⟩ := List.getElem?_eq_some_iff.mp hj
    rw [getElem_range]
    rfl
  case h_2 =>
    split
    case isTrue hempty => rw [Row.eq_new_of_isEmpty hempty, Row.get_new, Row.get_new]
    case isFalse =>
      rw [Row.get_ofSlice_zero]
      simp [hi]

end HybridSE.Vm
