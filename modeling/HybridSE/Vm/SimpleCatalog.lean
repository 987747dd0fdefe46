import HybridSE.Lib.MapOption
import HybridSE.Vm.JoinGenerator
import HybridSE.Vm.KeyEncoders
import HybridSE.Vm.KeyStrings

/-!
# HybridSE.Vm.SimpleCatalog

The in-memory catalog of `src/vm/simple_catalog.cc`: a table definition with indexes, and the
rows that `AddRow` puts into the partition of every index.

`GroupAndSortOptimized` takes the order out of a sort over an index and relies on the order
of the segments, which `SortGenerator::Sort` learns from the order type. `AddRow` appends,
and nothing sets the order type of the partitions. So a segment is in the order of
insertion, a descending request gets it as it is, and an ascending request gets a null
pointer. `IndexContract` is what the planner relies on, and `addRows_contract_iff` says when
it holds.
-/

namespace HybridSE.Vm

open HybridSE.Lib HybridSE.Codec List Option

/-! ### Table definitions -/

/-- `type::ColumnDef`. -/
structure ColumnDef where
  name : String
  type : ColumnType

/-- `type::IndexDef`; an empty second key is none. -/
structure IndexDef where
  name : String
  firstKeys : List String
  secondKey : String

/-- `type::TableDef`. -/
structure TableDef where
  columns : List ColumnDef
  indexes : List IndexDef

/-- `IndexSt`; `none` is `INVALID_POS`. -/
structure IndexSt where
  name : String
  index : Nat
  tsPos : Option Nat
  keys : List (Nat × ColumnType)
  deriving DecidableEq

namespace TableDef

def schema (t : TableDef) : Schema := t.columns.map ColumnDef.type

/-- A look-up in `types_dict_`, where the first column of a name stays. -/
def find (t : TableDef) (name : String) : Option (Nat × ColumnType) :=
  (t.columns.zipIdx.find? fun c => c.1.name == name).map fun c => (c.2, c.1.type)

/-- The position of the second key; it fails for a name that is no column. -/
def tsPos (t : TableDef) (secondKey : String) : Option (Option Nat) :=
  if secondKey = "" then some none else (t.find secondKey).map fun c => some c.1

/-- The `IndexSt` of an index. -/
def indexSt (t : TableDef) (i : Nat) (d : IndexDef) : Option IndexSt := do
  let pos ← t.tsPos d.secondKey
  let keys ← d.firstKeys.mapM t.find
  some { name := d.name, index := i, tsPos := pos, keys := keys }

/-- The loop of the constructor over the indexes. It ends at the first index with an unknown
column, and the flag says whether it came to its end. An index with the name of an earlier
one is not inserted. -/
def initIndexes (t : TableDef) : List (IndexDef × Nat) → List IndexSt → Bool × List IndexSt
  | [], hint => (true, hint)
  | d :: ds, hint =>
    match t.indexSt d.2 d.1 with
    | none => (false, hint)
    | some st =>
      t.initIndexes ds (if hint.any fun other => other.name == st.name then hint else hint ++ [st])

/-- The columns of an index are columns of the table. -/
def Known (t : TableDef) (d : IndexDef) : Prop :=
  (d.secondKey ≠ "" → ∃ c ∈ t.columns, c.name = d.secondKey) ∧
    ∀ key ∈ d.firstKeys, ∃ c ∈ t.columns, c.name = key

/-- `index_hint_`. -/
def indexHint (t : TableDef) : List IndexSt := (t.initIndexes t.indexes.zipIdx []).2

end TableDef

/-! ### The table handler -/

/-- A row of a table: bytes that hold values of its columns. -/
structure StoredRow (schema : Schema) where
  vals : List Value
  bytes : List Byte
  encoded : EncodedRow schema vals (getAddrLength bytes.length) bytes
  size_lt : bytes.length < 2 ^ 32

/-- `SimpleCatalogTableHandler`: `index_hint_` with the partitions of `table_storage`, which have
the same names, and `full_table_storage_`, which is null until the constructor ends. -/
structure SimpleCatalogTableHandler (schema : Schema) where
  storage : List (IndexSt × PartitionHandler (StoredRow schema))
  fullTable : Option (List (StoredRow schema))

/-- The time that `DecodeKeysAndTs` reads. `AddRow` passes a one, which `GetInteger` leaves alone
for a column that is no integer. -/
def decodeTs (schema : Schema) (row : List Byte) : Option Nat → Option Int
  | none => some 0
  | some pos => do
      if ← isNullAt row pos then
        return 0
      match ← schema[pos]? with
      | .kBool | .kFloat | .kDouble | .kVarchar => return 1
      | type =>
        match ← (RowView.new schema).getByRow row type pos with
        | .ok val => return integerOf val
        | _ => return if type = .kInt16 then 1 else 0

namespace SimpleCatalogTableHandler

/-- The constructor. -/
def new (t : TableDef) : SimpleCatalogTableHandler t.schema where
  storage := t.indexHint.map fun st => (st, { added := [], orderType := .kNoneOrder })
  fullTable := if (t.initIndexes t.indexes.zipIdx []).1 then some [] else none

variable {schema : Schema}

/-- The body of the loop of `AddRow`. -/
def addToIndex (row : StoredRow schema) (entry : IndexSt × PartitionHandler (StoredRow schema)) :
    Option (IndexSt × PartitionHandler (StoredRow schema)) := do
  let key ← decodeKeysRow schema row.bytes entry.1.keys
  let time ← decodeTs schema row.bytes entry.1.tsPos
  some (entry.1, { entry.2 with added := entry.2.added ++ [(key, toUInt64 time, row)] })

/-- `SimpleCatalogTableHandler::AddRow`; `none` is an access through a null pointer or outside
the row. -/
def addRow (h : SimpleCatalogTableHandler schema) (row : StoredRow schema) :
    Option (SimpleCatalogTableHandler schema) := do
  let fullTable ← h.fullTable
  let storage ← h.storage.mapM (addToIndex row)
  some { storage := storage, fullTable := some (fullTable ++ [row]) }

/-- `AddRow` of every row. -/
def addRows (h : SimpleCatalogTableHandler schema) (rows : List (StoredRow schema)) :
    Option (SimpleCatalogTableHandler schema) :=
  rows.foldlM addRow h

end SimpleCatalogTableHandler

/-! ### The contract -/

namespace IndexSt

/-- The types of the key columns. -/
def keyTypes (ix : IndexSt) : Schema := ix.keys.map Prod.snd

/-- The key values of a row. -/
def keyOf (ix : IndexSt) (vals : List Value) : List Value :=
  ix.keys.map fun c => (vals[c.1]?).getD .null

/-- The time of a row: zero without a second key or for NULL, and one for a column that is no
integer. -/
def timeOf (ix : IndexSt) (vals : List Value) : Int :=
  match ix.tsPos with
  | none => 0
  | some pos =>
    match (vals[pos]?).getD .null with
    | .null => 0
    | .bool _ | .float _ | .double _ | .varchar _ => 1
    | val => integerOf val

end IndexSt

section Contract

variable {schema : Schema}

/-- Times in the requested order. -/
def InOrder (requestedAsc : Bool) (x y : Int) : Prop := if requestedAsc then x ≤ y else y ≤ x

/-- What the planner relies on: the segment of a key holds the rows of the key, newest first, and
a sort without order column returns it in the requested order. -/
structure IndexContract (ix : IndexSt) (p : PartitionHandler (StoredRow schema))
    (rows : List (StoredRow schema)) (std : StdSort (StoredRow schema)) (requestedAsc : Bool) :
    Prop where
  segment : ∀ key, Typed ix.keyTypes key →
    ((p.segment (decodeKeys key)).map Prod.snd).Perm (rows.filter fun r => ix.keyOf r.vals = key)
  newestFirst : ∀ key, ((p.segment key).map Prod.snd).Pairwise fun r r' =>
    ix.timeOf r'.vals ≤ ix.timeOf r.vals
  ordered : ∀ key ∈ p.keys, ∀ isAsc reverse, (if reverse then !isAsc else isAsc) = requestedAsc →
    ∃ t sorted, SortGenerator.sort ⟨true, isAsc, none⟩ std (some (p.getSegment key)) reverse =
        some t ∧ t.iterator = some sorted ∧ sorted.Perm (p.segment key) ∧
      (sorted.map Prod.snd).Pairwise fun r r' =>
        InOrder requestedAsc (ix.timeOf r.vals) (ix.timeOf r'.vals)

/-- No other key values have the key string of a row. -/
def KeysApart (ix : IndexSt) (rows : List (StoredRow schema)) : Prop :=
  ∀ key, Typed ix.keyTypes key → ∀ r ∈ rows, decodeKeys key = decodeKeys (ix.keyOf r.vals) →
    ix.keyOf r.vals = key

/-- Rows of one key arrive newest first. -/
def NewestFirst (ix : IndexSt) (rows : List (StoredRow schema)) : Prop :=
  rows.Pairwise fun r r' => ix.keyOf r.vals = ix.keyOf r'.vals →
    ix.timeOf r'.vals ≤ ix.timeOf r.vals

end Contract

/-! ### Indexes -/

/-- The columns of an index are where the schema has them. -/
structure IndexSt.Valid (schema : Schema) (ix : IndexSt) : Prop where
  keys : ∀ c ∈ ix.keys, schema[c.1]? = some c.2
  tsPos : ∀ pos, ix.tsPos = some pos → pos < schema.length

namespace TableDef

variable {t : TableDef}

theorem find_valid {name c} (h : t.find name = some c) : t.schema[c.1]? = some c.2 := by
  obtain ⟨⟨column, i⟩, hfind, rfl⟩ := map_eq_some_iff.mp h
  have hmem := mem_of_find?_eq_some hfind
  rw [mem_zipIdx_iff_getElem?] at hmem
  unfold schema
  rw [getElem?_map, hmem]
  rfl

theorem find_isSome_iff {name} : (t.find name).isSome ↔ ∃ c ∈ t.columns, c.name = name := by
  unfold find
  rw [isSome_map, find?_isSome]
  constructor
  · rintro ⟨⟨column, i⟩, hmem, hname⟩
    exact ⟨column, fst_mem_of_mem_zipIdx hmem, beq_iff_eq.mp hname⟩
  · rintro ⟨column, hmem, hname⟩
    obtain ⟨i, hi, rfl⟩ := getElem_of_mem hmem
    refine ⟨(t.columns[i], i), ?_, beq_iff_eq.mpr hname⟩
    simp [mem_zipIdx_iff_getElem?]

theorem indexSt_valid {i d st} (h : t.indexSt i d = some st) : st.Valid t.schema := by
  unfold indexSt at h
  simp only [bind_eq_bind, bind_eq_some_iff, Option.some.injEq] at h
  obtain ⟨pos, hpos, keys, hkeys, rfl⟩ := h
  constructor
  · intro c hc
    obtain ⟨name, -, hname⟩ := exists_of_mem_mapM hkeys hc
    exact find_valid hname
  · rintro p rfl
    unfold TableDef.tsPos at hpos
    split at hpos
    · cases hpos
    · obtain ⟨c, hc, heq⟩ := map_eq_some_iff.mp hpos
      cases heq
      exact (List.getElem?_eq_some_iff.mp (find_valid hc)).1

theorem tsPos_isSome_iff {secondKey} :
    (t.tsPos secondKey).isSome ↔ (secondKey ≠ "" → ∃ c ∈ t.columns, c.name = secondKey) := by
  unfold tsPos
  split
  case isTrue h => exact iff_of_true rfl fun hne => absurd h hne
  case isFalse h => rw [isSome_map, find_isSome_iff, imp_iff_right h]

theorem indexSt_isSome_iff {i d} : (t.indexSt i d).isSome ↔ t.Known d := by
  have hkeys : (d.firstKeys.mapM t.find).isSome ↔
      ∀ key ∈ d.firstKeys, ∃ c ∈ t.columns, c.name = key := by
    rw [isSome_mapM_iff]
    exact forall₂_congr fun key _ => find_isSome_iff
  unfold Known indexSt
  rw [← tsPos_isSome_iff, ← hkeys]
  cases t.tsPos d.secondKey with
  | none => simp
  | some pos => cases d.firstKeys.mapM t.find <;> simp

theorem initIndexes_valid {ds hint} (h : ∀ st ∈ hint, st.Valid t.schema) :
    ∀ st ∈ (t.initIndexes ds hint).2, st.Valid t.schema := by
  induction ds generalizing hint with
  | nil => exact h
  | cons d ds ih =>
    unfold initIndexes
    cases hst : t.indexSt d.2 d.1 with
    | none => exact h
    | some st =>
      refine ih ?_
      split
      · exact h
      · exact forall_mem_append.mpr ⟨h, forall_mem_singleton.mpr (indexSt_valid hst)⟩

theorem initIndexes_fst_iff {ds hint} :
    (t.initIndexes ds hint).1 = true ↔ ∀ d ∈ ds, t.Known d.1 := by
  induction ds generalizing hint with
  | nil => simp [initIndexes]
  | cons d ds ih =>
    rw [forall_mem_cons, ← @indexSt_isSome_iff t d.2 d.1]
    unfold initIndexes
    cases hst : t.indexSt d.2 d.1 with
    | none => simp
    | some st => simpa using ih

theorem initIndexes_zipIdx (t : TableDef) :
    (t.initIndexes t.indexes.zipIdx []).1 = true ↔ ∀ d ∈ t.indexes, t.Known d := by
  rw [initIndexes_fst_iff]
  constructor
  · intro h d hd
    obtain ⟨i, hi, rfl⟩ := getElem_of_mem hd
    exact h (t.indexes[i], i) (mem_zipIdx_iff_getElem?.mpr (getElem?_eq_getElem hi))
  · exact fun h d hd => h d.1 (fst_mem_of_mem_zipIdx hd)

theorem indexHint_valid : ∀ st ∈ t.indexHint, st.Valid t.schema :=
  initIndexes_valid (forall_mem_nil _)

end TableDef

/-! ### Adding rows -/

section Rows

variable {schema : Schema} {ix : IndexSt}

/-- What `AddRow` adds to an index. -/
def IndexSt.added (ix : IndexSt) (row : StoredRow schema) : List Byte × Nat × StoredRow schema :=
  (decodeKeys (ix.keyOf row.vals), toUInt64 (ix.timeOf row.vals), row)

/-- The partition of an index after a run of `AddRow`. -/
def IndexSt.partition (ix : IndexSt) (rows : List (StoredRow schema)) :
    PartitionHandler (StoredRow schema) :=
  ⟨rows.map ix.added, .kNoneOrder⟩

/-- The handler after a run of `AddRow`. -/
def handlerOf (hint : List IndexSt) (rows : List (StoredRow schema)) :
    SimpleCatalogTableHandler schema where
  storage := hint.map fun ix => (ix, ix.partition rows)
  fullTable := some rows

variable (hcols : schema.length < 2 ^ 31)
include hcols

theorem decodeTs_eq (hix : ix.Valid schema) (row : StoredRow schema) :
    decodeTs schema row.bytes ix.tsPos = some (ix.timeOf row.vals) := by
  unfold IndexSt.timeOf
  cases hpos : ix.tsPos with
  | none => rfl
  | some pos =>
    obtain ⟨type, htype⟩ : ∃ type, schema[pos]? = some type :=
      ⟨_, getElem?_eq_getElem (hix.tsPos pos hpos)⟩
    obtain ⟨val, hval, hhas⟩ := row.encoded.typed.exists_val htype
    have hget := getByRow_new row.encoded hcols row.size_lt htype hval
    unfold decodeTs
    simp only [row.encoded.null pos val hval, htype, hval]
    cases val with
    | null => rfl
    | _ =>
      cases hhas
      simp [hget, Value.fetch]

theorem decodeKeysRow_eq_keyOf (hix : ix.Valid schema) (row : StoredRow schema) :
    decodeKeysRow schema row.bytes ix.keys = some (decodeKeys (ix.keyOf row.vals)) := by
  refine decodeKeysRow_eq row.encoded hcols row.size_lt ?_
  unfold IndexSt.keyOf
  rw [forall₂_map_right_iff, forall₂_same]
  intro c hc
  obtain ⟨val, hval, -⟩ := row.encoded.typed.exists_val (hix.keys c hc)
  exact ⟨hix.keys c hc, by rw [hval]; rfl⟩

open SimpleCatalogTableHandler in
theorem addToIndex_eq (hix : ix.Valid schema) (row : StoredRow schema)
    (p : PartitionHandler (StoredRow schema)) :
    addToIndex row (ix, p) = some (ix, { p with added := p.added ++ [ix.added row] }) := by
  unfold addToIndex
  rw [decodeKeysRow_eq_keyOf hcols hix row, decodeTs_eq hcols hix row]
  rfl

theorem addRow_handlerOf {hint} (hhint : ∀ ix ∈ hint, ix.Valid schema)
    (rows : List (StoredRow schema)) (row : StoredRow schema) :
    (handlerOf hint rows).addRow row = some (handlerOf hint (rows ++ [row])) := by
  have hstorage : (handlerOf hint rows).storage.mapM
      (SimpleCatalogTableHandler.addToIndex row) =
        some (handlerOf hint (rows ++ [row])).storage := by
    unfold handlerOf
    rw [mapM_eq_some_iff, forall₂_map_left_iff, forall₂_map_right_iff,
      forall₂_same]
    intro ix hix
    rw [addToIndex_eq hcols (hhint ix hix)]
    simp [IndexSt.partition]
  unfold SimpleCatalogTableHandler.addRow
  rw [hstorage]
  rfl

theorem addRows_handlerOf {hint} (hhint : ∀ ix ∈ hint, ix.Valid schema)
    (before rows : List (StoredRow schema)) :
    (handlerOf hint before).addRows rows = some (handlerOf hint (before ++ rows)) := by
  unfold SimpleCatalogTableHandler.addRows
  induction rows generalizing before with
  | nil => simp
  | cons row rows ih =>
    rw [foldlM_cons, addRow_handlerOf hcols hhint]
    simpa using ih (before ++ [row])

end Rows

/-- The run from a new table. -/
theorem addRows_new {t} (hcols : t.schema.length < 2 ^ 31) (hall : ∀ d ∈ t.indexes, t.Known d)
    (rows : List (StoredRow t.schema)) :
    (SimpleCatalogTableHandler.new t).addRows rows = some (handlerOf t.indexHint rows) := by
  have hnew : SimpleCatalogTableHandler.new t = handlerOf t.indexHint [] := by
    unfold SimpleCatalogTableHandler.new handlerOf
    rw [if_pos (t.initIndexes_zipIdx.mpr hall)]
    rfl
  rw [hnew, addRows_handlerOf hcols t.indexHint_valid, nil_append]

/-! ### When the contract is kept -/

section Kept

variable {schema : Schema} {ix : IndexSt} {rows : List (StoredRow schema)}

/-- A segment is in the order of insertion. -/
theorem segment_added (key : List Byte) :
    ((ix.partition rows).segment key).map Prod.snd =
      rows.filter fun r => decodeKeys (ix.keyOf r.vals) = key := by
  unfold PartitionHandler.segment IndexSt.partition
  rw [List.filter_map, List.map_map, List.map_map]
  exact List.map_id _

theorem mem_keys_added {key} :
    key ∈ (ix.partition rows).keys ↔ ∃ r ∈ rows, decodeKeys (ix.keyOf r.vals) = key := by
  rw [PartitionHandler.mem_keys]
  constructor
  · rintro ⟨x, hx⟩
    obtain ⟨r, hr, heq⟩ := List.mem_map.mp hx
    exact ⟨r, hr, congrArg Prod.fst heq⟩
  · rintro ⟨r, hr, rfl⟩
    exact ⟨_, List.mem_map.mpr ⟨r, hr, rfl⟩⟩

theorem typed_keyOf (hix : ix.Valid schema) (r : StoredRow schema) :
    Typed ix.keyTypes (ix.keyOf r.vals) := by
  unfold IndexSt.keyTypes IndexSt.keyOf
  refine ⟨by simp, fun i type val htype hval => ?_⟩
  rw [getElem?_map, map_eq_some_iff] at htype hval
  obtain ⟨c, hc, rfl⟩ := htype
  obtain ⟨c', hc', rfl⟩ := hval
  obtain rfl : c = c' := Option.some.inj (hc.symm.trans hc')
  obtain ⟨val, hval, hhas⟩ := r.encoded.typed.exists_val (hix.keys c (mem_of_getElem? hc))
  rw [hval]
  exact hhas

/-- A sort without order column over a segment of the catalog. -/
theorem sort_segment (std : StdSort (StoredRow schema)) {key}
    (hkey : key ∈ (ix.partition rows).keys) (isAsc reverse : Bool) :
    SortGenerator.sort ⟨true, isAsc, none⟩ std
        (some ((ix.partition rows).getSegment key)) reverse =
      if (if reverse then !isAsc else isAsc) then none
      else some ((ix.partition rows).getSegment key) := by
  unfold SortGenerator.sort PartitionHandler.getSegment
  rw [if_pos hkey]
  cases isAsc <;> cases reverse <;> rfl

/-- An index of the catalog keeps the contract for rows that arrive newest first, have key
strings of their own and are asked for in descending order; and otherwise without rows. -/
theorem indexContract_iff (hix : ix.Valid schema) (std : StdSort (StoredRow schema))
    (requestedAsc : Bool) :
    IndexContract ix (ix.partition rows) rows std requestedAsc ↔
      rows = [] ∨ requestedAsc = false ∧ KeysApart ix rows ∧ NewestFirst ix rows := by
  constructor
  · rintro ⟨hsegment, hnewest, hordered⟩
    cases hrows : rows with
    | nil => exact .inl rfl
    | cons r rest =>
      rw [← hrows]
      refine .inr ⟨?_, ?_, ?_⟩
      · have hkey : decodeKeys (ix.keyOf r.vals) ∈ (ix.partition rows).keys :=
          mem_keys_added.mpr ⟨r, hrows ▸ mem_cons_self, rfl⟩
        obtain ⟨t, sorted, hsort, -⟩ := hordered _ hkey requestedAsc false rfl
        rw [sort_segment std hkey] at hsort
        cases requestedAsc with
        | false => rfl
        | true => cases hsort
      · intro key hkey r hr heq
        have hmem : r ∈ ((ix.partition rows).segment (decodeKeys key)).map Prod.snd := by
          rw [segment_added, mem_filter]
          exact ⟨hr, decide_eq_true heq.symm⟩
        exact of_decide_eq_true (mem_filter.mp ((hsegment key hkey).subset hmem)).2
      · refine pairwise_iff_forall_sublist.mpr fun {r r'} hsub heq => ?_
        have hpair := hnewest (decodeKeys (ix.keyOf r.vals))
        rw [segment_added] at hpair
        have hfilter := hsub.filter fun x => decodeKeys (ix.keyOf x.vals) =
          decodeKeys (ix.keyOf r.vals)
        rw [filter_eq_self.mpr (by simp [heq])] at hfilter
        exact pairwise_iff_forall_sublist.mp hpair hfilter
  · rintro (rfl | ⟨rfl, hapart, hnewest⟩)
    · refine ⟨fun key _ => ?_, fun key => ?_, fun key hkey => ?_⟩
      · exact List.Perm.refl _
      · exact List.Pairwise.nil
      · obtain ⟨r, hr, -⟩ := mem_keys_added.mp hkey
        cases hr
    · have hsegment : ∀ key, (((ix.partition rows).segment key).map Prod.snd).Pairwise fun r r' =>
          ix.timeOf r'.vals ≤ ix.timeOf r.vals := by
        intro key
        rw [segment_added, pairwise_filter]
        refine hnewest.imp_of_mem fun {r r'} hr hr' hle heq heq' => hle ?_
        exact hapart _ (typed_keyOf hix r') r hr
          ((of_decide_eq_true heq').trans (of_decide_eq_true heq).symm)
      refine ⟨fun key hkey => ?_, hsegment, fun key hkey isAsc reverse hrequested => ?_⟩
      · rw [segment_added]
        refine List.Perm.of_eq (filter_congr fun r hr => ?_)
        rw [decide_eq_decide]
        exact ⟨fun heq => hapart key hkey r hr heq.symm, fun heq => by rw [heq]⟩
      · rw [sort_segment std hkey, hrequested]
        refine ⟨_, _, rfl, if_pos hkey, List.Perm.refl _, hsegment key⟩

end Kept

/-- The catalog keeps the contract of every index exactly if no row was added, or the
columns of the indexes are known and for every index the rows are asked for in descending order,
have key strings of their own and were added newest first. -/
theorem addRows_contract_iff (t : TableDef) (hcols : t.schema.length < 2 ^ 31)
    (std : StdSort (StoredRow t.schema)) (rows : List (StoredRow t.schema)) (requestedAsc : Bool) :
    (∃ h, (SimpleCatalogTableHandler.new t).addRows rows = some h ∧
        ∀ entry ∈ h.storage, IndexContract entry.1 entry.2 rows std requestedAsc) ↔
      rows = [] ∨ (∀ d ∈ t.indexes, t.Known d) ∧
        ∀ ix ∈ t.indexHint, requestedAsc = false ∧ KeysApart ix rows ∧ NewestFirst ix rows := by
  have hvalid := t.indexHint_valid
  by_cases hrows : rows = []
  · subst hrows
    refine iff_of_true ⟨_, rfl, ?_⟩ (.inl rfl)
    intro entry hentry
    obtain ⟨ix, hix, rfl⟩ := List.mem_map.mp hentry
    exact (indexContract_iff (hvalid ix hix) std requestedAsc).mpr (.inl rfl)
  rw [or_iff_right hrows]
  by_cases hall : ∀ d ∈ t.indexes, t.Known d
  · rw [and_iff_right hall, addRows_new hcols hall]
    constructor
    · rintro ⟨h, hh, hcontract⟩ ix hix
      cases hh
      have hentry := hcontract _ (List.mem_map.mpr ⟨ix, hix, rfl⟩)
      exact ((indexContract_iff (hvalid ix hix) std requestedAsc).mp hentry).resolve_left hrows
    · intro h
      refine ⟨_, rfl, fun entry hentry => ?_⟩
      obtain ⟨ix, hix, rfl⟩ := List.mem_map.mp hentry
      exact (indexContract_iff (hvalid ix hix) std requestedAsc).mpr (.inr (h ix hix))
  · -- the full table is a null pointer
    refine iff_of_false ?_ fun h => hall h.1
    rintro ⟨h, hh, -⟩
    obtain ⟨row, rest, rfl⟩ := exists_cons_of_ne_nil hrows
    have hfull : (SimpleCatalogTableHandler.new t).fullTable = none :=
      if_neg fun htrue => hall (t.initIndexes_zipIdx.mp htrue)
    unfold SimpleCatalogTableHandler.addRows at hh
    rw [foldlM_cons] at hh
    unfold SimpleCatalogTableHandler.addRow at hh
    rw [hfull] at hh
    cases hh

/-- The key strings of integers, dates and timestamps are apart. -/
theorem keysApart_of_integers {schema ix} (hix : ix.Valid schema)
    (htypes : ∀ type ∈ ix.keyTypes, IsPlainType type ∧ type ≠ .kBool)
    (rows : List (StoredRow schema)) : KeysApart ix rows := by
  have hgen : ∀ {key : List Value}, Typed ix.keyTypes key → decodeKeys key = gen (some key) := by
    intro key hkey
    refine congrArg (joinFields keySep) (map_congr_left fun val hval => ?_)
    obtain ⟨i, hi, rfl⟩ := getElem_of_mem hval
    have htype := getElem?_eq_getElem (hkey.length_eq ▸ hi : i < ix.keyTypes.length)
    have hhas := hkey.hasType i _ _ htype (getElem?_eq_getElem hi)
    obtain ⟨⟨-, hfloat, hdouble⟩, hbool⟩ := htypes _ (mem_of_getElem? htype)
    refine (genText_eq_storedText ?_).symm
    revert hhas
    cases key[i] <;> intro hhas <;> first | exact trivial | exact absurd hhas ‹_›
  intro key hkey r hr heq
  rw [hgen hkey, hgen (typed_keyOf hix r)] at heq
  have hplain := fun type h => (htypes type h).1
  exact gen_inj (typed_keyOf hix r) hkey (plainKey_of_typed (typed_keyOf hix r) hplain)
    (plainKey_of_typed hkey hplain) heq.symm

/-! A table of events with a key and a time. -/

def eventTable : TableDef where
  columns := [⟨"k", .kInt64⟩, ⟨"ts", .kTimestamp⟩]
  indexes := [⟨"by_k", ["k"], "ts"⟩]

def eventBytes (key ts : BitVec 64) : List Byte :=
  [1#8, 1#8, 23#8, 0#8, 0#8, 0#8, 0#8] ++ leBytes 8 key.toNat ++ leBytes 8 ts.toNat

theorem eventBytes_encoded (key ts : BitVec 64) :
    EncodedRow eventTable.schema [.int64 key, .timestamp ts]
      (getAddrLength (eventBytes key ts).length) (eventBytes key ts) := by
  have hlength : (eventBytes key ts).length = 23 := by simp [eventBytes]
  refine ⟨⟨rfl, ?_⟩, ?_, ?_, ?_, ?_, ?_, ?_⟩
  · rintro (_ | _ | i) type val htype hval <;> cases htype <;> cases hval <;> rfl
  · rfl
  · rw [hlength]
    exact hasBytes_append [1#8, 1#8] _ (0#8 :: (leBytes 8 key.toNat ++ leBytes 8 ts.toNat))
  · rintro (_ | _ | i) val hval <;> cases hval <;> rfl
  · rintro (_ | _ | i) type val htype hval - - <;> cases htype <;> cases hval
    · exact hasBytes_append [1#8, 1#8, 23#8, 0#8, 0#8, 0#8, 0#8] _ _
    · have := hasBytes_append ([1#8, 1#8, 23#8, 0#8, 0#8, 0#8, 0#8] ++ leBytes 8 key.toNat)
        (leBytes 8 ts.toNat) []
      rwa [append_nil] at this
  · rintro (_ | _ | i) htype <;> cases htype
  · rintro (_ | _ | i) bytes hval <;> cases hval

def eventRow (key ts : BitVec 64) : StoredRow eventTable.schema where
  vals := [.int64 key, .timestamp ts]
  bytes := eventBytes key ts
  encoded := eventBytes_encoded key ts
  size_lt := by simp [eventBytes]

theorem eventTable_known : ∀ d ∈ eventTable.indexes, eventTable.Known d := by
  simp [eventTable, TableDef.Known]

def eventIndex : IndexSt := ⟨"by_k", 0, some 1, [(0, .kInt64)]⟩

theorem eventTable_indexHint : eventTable.indexHint = [eventIndex] := by
  decide

theorem addRows_contract_newestFirst :
    ∃ h, (SimpleCatalogTableHandler.new eventTable).addRows [eventRow 7 2, eventRow 7 1] = some h ∧
      ∀ entry ∈ h.storage,
        IndexContract entry.1 entry.2 [eventRow 7 2, eventRow 7 1] stableSort false := by
  refine (addRows_contract_iff eventTable (by decide) stableSort _ false).mpr
    (.inr ⟨eventTable_known, fun ix hix => ⟨rfl, keysApart_of_integers
      (eventTable.indexHint_valid ix hix) ?_ _, ?_⟩⟩)
  all_goals
    rw [eventTable_indexHint, mem_singleton] at hix
    subst hix
  · simp [eventIndex, IndexSt.keyTypes, IsPlainType]
  · unfold NewestFirst
    decide

/-- Two rows of one key, the older one first: the segment is not newest first, and a sort in
ascending order returns a null pointer. -/
theorem addRows_keeps_insertion_order :
    ∃ h ix p, (SimpleCatalogTableHandler.new eventTable).addRows [eventRow 7 1, eventRow 7 2] =
        some h ∧ h.storage = [(ix, p)] ∧
      p.segment (decodeKeys [.int64 7]) = [(1, eventRow 7 1), (2, eventRow 7 2)] ∧
      SortGenerator.sort ⟨true, true, none⟩ stableSort
        (some (p.getSegment (decodeKeys [.int64 7]))) false = none := by
  have hrun := addRows_new (t := eventTable) (by decide) eventTable_known
    [eventRow 7 1, eventRow 7 2]
  refine ⟨_, eventIndex, _, hrun, rfl, ?_, ?_⟩
  · simp [PartitionHandler.segment, IndexSt.partition, IndexSt.added, IndexSt.keyOf, eventRow,
      IndexSt.timeOf, integerOf, toUInt64]
  · exact sort_segment stableSort (mem_keys_added.mpr ⟨eventRow 7 1, by simp, rfl⟩) true false

end HybridSE.Vm
