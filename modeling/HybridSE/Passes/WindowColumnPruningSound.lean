import HybridSE.Lib.MapOption
import HybridSE.Passes.WindowColumnPruning

/-!
# HybridSE.Passes.WindowColumnPruningSound

What `WindowColumnPruning` keeps of a plan.

Every rewritten aggregation must see the rows and windows of the old one in all columns
it depends on. The pruned rows agree with the rows in what compiled code can tell of
them (`seen_pruned_iff`), a union has the same rows in each partition (`unions_iff`),
and then the windows agree up to the limit of the old node (`saw_iff`).
-/

namespace HybridSE.Passes

open HybridSE.Codec HybridSE.Vm HybridSE.Lib List Option

/-! ### The columns that are kept -/

variable {ctx : SchemasContext} {ref : ColumnRef} {infos : List ColIndexInfo}

theorem colIndexInfo_eq_some {info} (h : colIndexInfo ctx ref = some info) :
    ctx.resolve ref = some info.pos ∧
      ∃ column, ctx.columnAt info.pos = some column ∧ column.id = info.cid := by
  unfold colIndexInfo at h
  cases hpos : ctx.resolve ref with
  | none =>
    rw [hpos] at h
    cases h
  | some pos =>
    rw [hpos] at h
    obtain ⟨column, hcolumn, rfl⟩ := map_eq_some_iff.mp h
    exact ⟨rfl, column, hcolumn, rfl⟩

/-- What the loop over the columns keeps true of the columns kept so far. -/
structure Collected (ctx : SchemasContext) (infos : List ColIndexInfo) : Prop where
  nodup : (infos.map ColIndexInfo.cid).Nodup
  found : ∀ info ∈ infos, ∃ column, ctx.columnAt info.pos = some column ∧ column.id = info.cid

theorem Collected.concat (h : Collected ctx infos) {info : ColIndexInfo}
    (hinfo : colIndexInfo ctx ref = some info) (hnew : info.cid ∉ infos.map ColIndexInfo.cid) :
    Collected ctx (infos ++ [info]) where
  nodup := by
    rw [map_append, map_singleton, nodup_append]
    refine ⟨h.nodup, nodup_singleton _, fun a ha b hb hab => ?_⟩
    rw [mem_singleton] at hb
    exact hnew (hb ▸ hab ▸ ha)
  found := fun i hi => by
    rcases mem_append.mp hi with hi | hi
    · exact h.found i hi
    · rw [mem_singleton.mp hi]
      exact (colIndexInfo_eq_some hinfo).2

theorem collectColumns_spec {refs out} (h : collectColumns ctx refs infos = some out)
    (hinfos : Collected ctx infos) :
    Collected ctx out ∧ ∀ ref ∈ refs, ∃ pos, ctx.resolve ref = some pos := by
  induction refs generalizing infos with
  | nil =>
    cases h
    exact ⟨hinfos, fun ref href => absurd href not_mem_nil⟩
  | cons ref refs ih =>
    rw [collectColumns] at h
    cases hinfo : colIndexInfo ctx ref with
    | none =>
      rw [hinfo] at h
      cases h
    | some info =>
      have hpos : ∃ pos, ctx.resolve ref = some pos := ⟨_, (colIndexInfo_eq_some hinfo).1⟩
      rw [hinfo] at h
      dsimp only at h
      split at h
      case isTrue =>
        obtain ⟨hout, hrefs⟩ := ih h hinfos
        exact ⟨hout, forall_mem_cons.mpr ⟨hpos, hrefs⟩⟩
      case isFalse hnew =>
        obtain ⟨hout, hrefs⟩ := ih h (hinfos.concat hinfo hnew)
        exact ⟨hout, forall_mem_cons.mpr ⟨hpos, hrefs⟩⟩

theorem columnIndexes_spec {refs} (h : columnIndexes ctx refs = some infos) :
    Collected ctx infos ∧ ∀ ref ∈ refs, ∃ pos, ctx.resolve ref = some pos := by
  obtain ⟨out, hout, rfl⟩ := map_eq_some_iff.mp h
  obtain ⟨hcollected, hrefs⟩ := collectColumns_spec hout ⟨nodup_nil, fun _ h => nomatch h⟩
  have hperm := perm_insertionSort (fun l r : ColIndexInfo =>
    l.pos.1 * (ctx.sources.map List.length).sum + l.pos.2 ≤
      r.pos.1 * (ctx.sources.map List.length).sum + r.pos.2) out
  refine ⟨⟨?_, fun info hinfo => hcollected.found info (hperm.mem_iff.mp hinfo)⟩, hrefs⟩
  exact (hperm.map _).nodup_iff.mpr hcollected.nodup

theorem prunedInput_spec {u pruned} (h : prunedInput u infos = some pruned) :
    List.Forall₂ (fun info column => u.columnAt info.pos = some column) infos pruned.columns ∧
      List.Forall₂ (fun column pos => u.resolveColumnIndexByID column.id = some pos)
        pruned.columns pruned.positions := by
  unfold prunedInput at h
  cases hcolumns : prunedColumns u infos with
  | none =>
    rw [hcolumns] at h
    cases h
  | some columns =>
    rw [hcolumns] at h
    obtain ⟨positions, hpositions, rfl⟩ := map_eq_some_iff.mp h
    exact ⟨forall₂_of_mapM hcolumns, forall₂_of_mapM hpositions⟩

theorem columnAt_singleton {columns pos column}
    (h : (⟨[columns]⟩ : SchemasContext).columnAt pos = some column) :
    ∃ i, pos = (0, i) ∧ columns[i]? = some column := by
  obtain ⟨schemaIdx, i⟩ := pos
  cases schemaIdx with
  | zero => exact ⟨i, rfl, h⟩
  | succ schemaIdx => cases h

/-- A column is resolved to the one kept for its id. -/
theorem resolve_pruned {input} (hcollected : Collected ctx infos)
    (hinput : prunedInput ctx infos = some input) {pos pos' column}
    (hpos : ctx.resolve ref = some pos) (hcolumn : ctx.columnAt pos = some column)
    (hpos' : (⟨[input.columns]⟩ : SchemasContext).resolve ref = some pos') :
    ∃ i info, pos' = (0, i) ∧ infos[i]? = some info ∧ info.cid = column.id := by
  -- the column found in the new context stands in the old one, with its name and id
  have hkept : ∀ kept, (⟨[input.columns]⟩ : SchemasContext).columnAt pos' = some kept →
      ∃ i info, pos' = (0, i) ∧ infos[i]? = some info ∧ ctx.columnAt info.pos = some kept ∧
        kept.id = info.cid := by
    intro kept hkept
    obtain ⟨i, hi, hget⟩ := columnAt_singleton hkept
    obtain ⟨info, hinfo, hat⟩ := getElem?_of_forall₂ (prunedInput_spec hinput).1 hget
    obtain ⟨column', hcolumn', hid⟩ := hcollected.found info (mem_of_getElem? hinfo)
    rw [hat] at hcolumn'
    cases hcolumn'
    exact ⟨i, info, hi, hinfo, hat, hid⟩
  cases ref with
  | columnRef name =>
    obtain ⟨kept, hat', hname, -⟩ := SchemasContext.columnAt_of_resolveColumnIndexByName hpos'
    obtain ⟨first, hfirst, -, hsame⟩ := SchemasContext.columnAt_of_resolveColumnIndexByName hpos
    obtain ⟨i, info, hi, hinfo, hat, hid⟩ := hkept kept hat'
    rw [hcolumn] at hfirst
    cases hfirst
    exact ⟨i, info, hi, hinfo, hid.symm.trans (hsame _ _ hat hname)⟩
  | columnId id =>
    obtain ⟨kept, hat', hid'⟩ := SchemasContext.columnAt_of_resolveColumnIndexByID hpos'
    obtain ⟨last, hlast, hlastId⟩ := SchemasContext.columnAt_of_resolveColumnIndexByID hpos
    obtain ⟨i, info, hi, hinfo, -, hid⟩ := hkept kept hat'
    rw [hcolumn] at hlast
    cases hlast
    exact ⟨i, info, hi, hinfo, by rw [← hid, hid', hlastId]⟩

/-! ### The pruned rows -/

/-- The projection of a row is empty, or of size zero, only if the row is. -/
def NotEmptied (u : SchemasContext) (positions : List ColumnPos) (row : Codec.Row) : Prop :=
  row.isEmpty = true ∨ row.sizeZero = false ∧
    ∀ slice, getSelectSourceIndex u positions = some slice → row.getSlice slice ≠ none

theorem notEmptied_iff {u positions row} :
    NotEmptied u positions row ↔
      (simpleProject u positions row).isEmpty = row.isEmpty ∧
        (simpleProject u positions row).sizeZero = row.sizeZero := by
  unfold NotEmptied simpleProject
  cases hempty : row.isEmpty with
  | true =>
    have hnew := Row.eq_new_of_isEmpty hempty
    subst hnew
    cases getSelectSourceIndex u positions <;> simp
  | false =>
    cases hslice : getSelectSourceIndex u positions with
    | none => cases row.sizeZero <;> simp
    | some slice =>
      cases row.sizeZero <;> cases hget : row.getSlice slice <;> simp [hget]

/-- The row agrees with its projection in all columns that are used: it is not emptied,
and at the position of each column it holds what is kept for the id of the column. -/
def RowKept (refs : List ColumnRef) (ctx u : SchemasContext) (infos : List ColIndexInfo)
    (pruned : PrunedInput) (row : Codec.Row) : Prop :=
  NotEmptied u pruned.positions row ∧
    ∀ ref ∈ refs, ∀ (pos : ColumnPos) (column : SourceColumn) (i : Nat) (info : ColIndexInfo)
      (source : ColumnPos), ctx.resolve ref = some pos → ctx.columnAt pos = some column →
        infos[i]? = some info → info.cid = column.id → pruned.positions[i]? = some source →
          row.get pos = row.get source

section Pruned

variable {ctx u : SchemasContext} {refs : List ColumnRef} {infos : List ColIndexInfo}
  {input pruned : PrunedInput}

/-- The index at which the column kept for an id stands. -/
theorem index_eq_of_cid (hcollected : Collected ctx infos) {i j : Nat} {a b}
    (hi : infos[i]? = some a) (hj : infos[j]? = some b) (h : a.cid = b.cid) : i = j := by
  have hi' : (infos.map ColIndexInfo.cid)[i]? = some a.cid := by rw [getElem?_map, hi]; rfl
  have hj' : (infos.map ColIndexInfo.cid)[j]? = some a.cid := by
    rw [getElem?_map, hj, h]
    rfl
  obtain ⟨hlt, -⟩ := List.getElem?_eq_some_iff.mp hi'
  exact (getElem?_inj hlt hcollected.nodup).mp (hi'.trans hj'.symm)

/-- The new node tells of a pruned row what the old one tells of the row, if and only if
the row is kept. -/
theorem seen_pruned_iff (hinfos : columnIndexes ctx refs = some infos)
    (hinput : prunedInput ctx infos = some input) (hpruned : prunedInput u infos = some pruned)
    (hresolve : ∀ ref ∈ refs, ∃ pos, (⟨[input.columns]⟩ : SchemasContext).resolve ref = some pos)
    (row : Codec.Row) :
    ((⟨[input.columns]⟩ : SchemasContext).seen (simpleProject u pruned.positions row)).only refs =
        (ctx.seen row).only refs ↔
      RowKept refs ctx u infos pruned row := by
  obtain ⟨hcollected, hrefs⟩ := columnIndexes_spec hinfos
  -- where both nodes read a column
  have hread : ∀ ref ∈ refs, ∃ (pos : ColumnPos) (column : SourceColumn) (i : Nat)
      (info : ColIndexInfo) (source : ColumnPos), ctx.resolve ref = some pos ∧
        ctx.columnAt pos = some column ∧ infos[i]? = some info ∧ info.cid = column.id ∧
        pruned.positions[i]? = some source ∧
        (⟨[input.columns]⟩ : SchemasContext).read (simpleProject u pruned.positions row) ref =
          row.get source ∧ ctx.read row ref = row.get pos := by
    intro ref href
    obtain ⟨pos, hpos⟩ := hrefs ref href
    obtain ⟨column, hcolumn⟩ := SchemasContext.columnAt_of_resolve hpos
    obtain ⟨pos', hpos'⟩ := hresolve ref href
    obtain ⟨i, info, rfl, hinfo, hid⟩ := resolve_pruned hcollected hinput hpos hcolumn hpos'
    obtain ⟨hcolumns, hpositions⟩ := prunedInput_spec hpruned
    have hlt : i < pruned.positions.length := by
      rw [← hpositions.length_eq, ← hcolumns.length_eq]
      exact (List.getElem?_eq_some_iff.mp hinfo).1
    have hsource : pruned.positions[i]? = some pruned.positions[i] := getElem?_eq_getElem hlt
    refine ⟨pos, column, i, info, _, hpos, hcolumn, hinfo, hid, hsource, ?_, ?_⟩
    · rw [SchemasContext.read_of_resolve hpos', get_simpleProject u row hsource]
    · exact SchemasContext.read_of_resolve hpos row
  unfold RowKept
  rw [notEmptied_iff]
  unfold RowSeen.only SchemasContext.seen
  rw [RowSeen.mk.injEq, and_assoc]
  refine and_congr_right fun _ => and_congr_right fun _ => ?_
  rw [funext_iff]
  constructor
  · intro h ref href pos column i info source hpos hcolumn hinfo hid hsource
    obtain ⟨pos', column', j, info', source', hpos', hcolumn', hinfo', hid', hsource', hnew, hold⟩ :=
      hread ref href
    rw [hpos] at hpos'
    cases hpos'
    rw [hcolumn] at hcolumn'
    cases hcolumn'
    have hij := index_eq_of_cid hcollected hinfo hinfo' (hid.trans hid'.symm)
    subst hij
    rw [hsource] at hsource'
    cases hsource'
    have href' := h ref
    simpa [hnew, hold, href] using href'.symm
  · intro h ref
    dsimp only
    by_cases href : ref ∈ refs
    · obtain ⟨pos, column, i, info, source, hpos, hcolumn, hinfo, hid, hsource, hnew, hold⟩ :=
        hread ref href
      simpa [hnew, hold,
        href] using (h ref href pos column i info source hpos hcolumn hinfo hid hsource).symm
    · rw [if_neg href, if_neg href]

end Pruned

/-! ### One aggregation -/

/-- A window aggregation of a plan, with what its input yields. -/
structure AggSite where
  agg : WindowAggNode
  ctx : SchemasContext
  input : DataHandler Codec.Row
  unions : List WindowUnion

/-- The windows and the tables of the unions. -/
def unionTables (unions : List WindowUnion) : List (WindowOp × DataHandler Codec.Row) :=
  unions.map fun u => (u.window, u.data)

namespace AggSite

variable (site : AggSite)

/-- What the aggregation, compiled against `ctx`, can tell of a row. -/
def seen (ctx : SchemasContext) (row : Codec.Row) : RowSeen :=
  (ctx.seen row).only site.agg.dependColumns

/-- The keys of the partitions of the input. -/
def keys : List (List Byte) :=
  ((partitionOf (site.agg.window.generator site.ctx).partitionGen site.input).map
    PartitionHandler.keys).getD []

/-- The number of rows in the sorted partitions of the input. -/
def rowCount (std : KeySort) : Nat :=
  (site.keys.map fun key =>
    (site.agg.window.rowsOfKey std site.ctx site.input key).length).sum

/-- The new aggregation sees what the old one sees. -/
structure Same (std : KeySort) (new : PrunedAgg) : Prop where
  /-- the rows of the input, in every column that is used -/
  rows : ∀ row ∈ site.input.rows,
    site.seen ⟨[new.input.columns]⟩ (simpleProject site.ctx new.input.positions row) =
      site.seen site.ctx row
  /-- the rows of the unions, likewise -/
  unionRows : ∀ infos, columnIndexes site.ctx site.agg.dependColumns = some infos →
    ∀ u ∈ site.unions, ∀ pruned, prunedInput u.ctx infos = some pruned →
      ∀ row ∈ u.data.rows,
        site.seen ⟨[new.input.columns]⟩ (simpleProject u.ctx pruned.positions row) =
          site.seen site.ctx row
  /-- the rows that each union has for a partition, in their order -/
  unions : ∀ key ∈ site.keys,
    new.unions.map (fun u => (u.window.rowsOfKey std ⟨[new.input.columns]⟩ u.data key).map
        (mapEntry (site.seen ⟨[new.input.columns]⟩))) =
      site.unions.map fun u => (u.window.rowsOfKey std site.ctx u.data key).map
        (mapEntry (site.seen site.ctx))
  /-- the row and the window of each output row, and so many of them -/
  saw : new.agg.saw std ⟨[new.input.columns]⟩ site.agg.dependColumns (unionTables new.unions)
      (site.input.map (simpleProject site.ctx new.input.positions)) =
    site.agg.saw std site.ctx site.agg.dependColumns (unionTables site.unions) site.input

/-- What the pass relies on. -/
structure Prunable (std : KeySort) : Prop where
  /-- no row is emptied by the projection, and one id stands for one value -/
  rows : ∀ infos pruned, columnIndexes site.ctx site.agg.dependColumns = some infos →
    prunedInput site.ctx infos = some pruned →
      ∀ row ∈ site.input.rows, RowKept site.agg.dependColumns site.ctx site.ctx infos pruned row
  unionRows : ∀ infos, columnIndexes site.ctx site.agg.dependColumns = some infos →
    ∀ u ∈ site.unions, ∀ pruned, prunedInput u.ctx infos = some pruned →
      ∀ row ∈ u.data.rows, RowKept site.agg.dependColumns site.ctx u.ctx infos pruned row
  /-- a union has the columns of the input at the positions that are kept -/
  schema : site.keys ≠ [] → ∀ infos input,
    columnIndexes site.ctx site.agg.dependColumns = some infos →
      prunedInput site.ctx infos = some input → ∀ u ∈ site.unions, ∀ pruned,
        prunedInput u.ctx infos = some pruned → isSameSchema pruned.columns input.columns = true
  /-- the window of the aggregation partitions and sorts a union as its own window does -/
  unions : ∀ key ∈ site.keys, ∀ u ∈ site.unions,
    (site.agg.window.rowsOfKey std site.ctx u.data key).map (mapEntry (site.seen site.ctx)) =
      (u.window.rowsOfKey std site.ctx u.data key).map (mapEntry (site.seen site.ctx))
  /-- the limit does not show -/
  limit : site.agg.limitCnt = 0 ∨ site.rowCount std ≤ site.agg.limitCnt

end AggSite

/-- What a successful rewrite has computed. -/
theorem processWindow_inv {agg unions new} (h : processWindow agg ctx unions = some new) :
    ∃ infos prunedUnions, columnIndexes ctx agg.dependColumns = some infos ∧
      prunedInput ctx infos = some new.input ∧
      List.Forall₂ (fun u u' => ∃ pruned, prunedInput u.ctx infos = some pruned ∧
        u' = prunedUnion agg.window u pruned) unions prunedUnions ∧
      new.unions = prunedUnions.filter
        (fun u => isSameSchema u.ctx.sources.flatten new.input.columns) ∧
      new.agg = { agg with limitCnt := 0 } ∧
      ∀ ref ∈ agg.dependColumns,
        ∃ pos, (⟨[new.input.columns]⟩ : SchemasContext).resolve ref = some pos := by
  obtain ⟨infos, hinfos, h⟩ := bind_eq_some_iff.mp h
  obtain ⟨input, hinput, h⟩ := bind_eq_some_iff.mp h
  obtain ⟨prunedUnions, hunions, h⟩ := bind_eq_some_iff.mp h
  split at h
  case isFalse => cases h
  case isTrue hresolve =>
    cases h
    refine ⟨infos, prunedUnions, hinfos, hinput, ?_, rfl, rfl, fun ref href => ?_⟩
    · refine (forall₂_of_mapM hunions).imp fun u u' hu => ?_
      obtain ⟨pruned, hpruned, rfl⟩ := map_eq_some_iff.mp hu
      exact ⟨pruned, hpruned, rfl⟩
    · exact isSome_iff_exists.mp (List.all_eq_true.mp hresolve ref href)

section Site

variable {site : AggSite} {std : KeySort} {new : PrunedAgg}

theorem window_subset_depend (agg : WindowAggNode) :
    agg.window.resolvedRelatedColumns ⊆ agg.dependColumns := subset_append_left _ _

theorem project_subset_depend (agg : WindowAggNode) :
    agg.projectColumns ⊆ agg.dependColumns := subset_append_right _ _

/-- The rows of the input and of the unions are seen alike if and only if they are kept. -/
theorem rows_iff (h : processWindow site.agg site.ctx site.unions = some new) :
    ((∀ row ∈ site.input.rows,
        site.seen ⟨[new.input.columns]⟩ (simpleProject site.ctx new.input.positions row) =
          site.seen site.ctx row) ↔
      ∀ infos pruned, columnIndexes site.ctx site.agg.dependColumns = some infos →
        prunedInput site.ctx infos = some pruned →
          ∀ row ∈ site.input.rows,
            RowKept site.agg.dependColumns site.ctx site.ctx infos pruned row) ∧
    ((∀ infos, columnIndexes site.ctx site.agg.dependColumns = some infos →
        ∀ u ∈ site.unions, ∀ pruned, prunedInput u.ctx infos = some pruned →
          ∀ row ∈ u.data.rows,
            site.seen ⟨[new.input.columns]⟩ (simpleProject u.ctx pruned.positions row) =
              site.seen site.ctx row) ↔
      ∀ infos, columnIndexes site.ctx site.agg.dependColumns = some infos →
        ∀ u ∈ site.unions, ∀ pruned, prunedInput u.ctx infos = some pruned →
          ∀ row ∈ u.data.rows,
            RowKept site.agg.dependColumns site.ctx u.ctx infos pruned row) := by
  obtain ⟨infos, prunedUnions, hinfos, hinput, -, -, -, hresolve⟩ := processWindow_inv h
  constructor
  · constructor
    · intro hrows infos' pruned hinfos' hpruned row hrow
      cases hinfos.symm.trans hinfos'
      cases hinput.symm.trans hpruned
      exact (seen_pruned_iff hinfos hinput hinput hresolve row).mp (hrows row hrow)
    · intro hkept row hrow
      exact (seen_pruned_iff hinfos hinput hinput hresolve row).mpr
        (hkept infos _ hinfos hinput row hrow)
  · refine forall_congr' fun infos' => forall_congr' fun hinfos' => ?_
    cases hinfos.symm.trans hinfos'
    refine forall₂_congr fun u hu => forall₂_congr fun pruned hpruned => ?_
    exact forall₂_congr fun row hrow => seen_pruned_iff hinfos hinput hpruned hresolve row

/-- The pruned table of a union, under the window of the aggregation. -/
theorem rowsOfKey_prunedUnion {u : WindowUnion} {pruned : PrunedInput}
    (hrows : ∀ row ∈ u.data.rows,
      site.seen ⟨[new.input.columns]⟩ (simpleProject u.ctx pruned.positions row) =
        site.seen site.ctx row) (key : List Byte) :
    (site.agg.window.rowsOfKey std ⟨[new.input.columns]⟩
        (u.data.map (simpleProject u.ctx pruned.positions)) key).map
          (mapEntry (site.seen ⟨[new.input.columns]⟩)) =
      (site.agg.window.rowsOfKey std site.ctx u.data key).map (mapEntry (site.seen site.ctx)) := by
  have hdata : (u.data.map (simpleProject u.ctx pruned.positions)).map
        (site.seen ⟨[new.input.columns]⟩) = u.data.map (site.seen site.ctx) := by
    rw [DataHandler.map_map]
    exact DataHandler.map_congr hrows
  have hnew := site.agg.window.seenOfKey_eq std ⟨[new.input.columns]⟩
    (window_subset_depend site.agg) (u.data.map (simpleProject u.ctx pruned.positions)) key
  have hold := site.agg.window.seenOfKey_eq std site.ctx
    (window_subset_depend site.agg) u.data key
  calc _ = site.agg.window.seenOfKey std ((u.data.map (simpleProject u.ctx pruned.positions)).map
          (site.seen ⟨[new.input.columns]⟩)) key := hnew.symm
    _ = site.agg.window.seenOfKey std (u.data.map (site.seen site.ctx)) key := by rw [hdata]
    _ = _ := hold

theorem AggSite.keys_eq (site : AggSite) :
    site.keys = ((partitionOf site.agg.window.seenGenerator.partitionGen
      (site.input.map (site.seen site.ctx))).map PartitionHandler.keys).getD [] := by
  unfold AggSite.keys
  rw [partitionOf_map, site.agg.window.generator_eq_comap_only site.ctx
    (window_subset_depend site.agg), Option.map_map]
  refine congrArg (Option.getD · []) (congrFun (congrArg Option.map (funext fun p => ?_)) _)
  exact (PartitionHandler.keys_map _ p).symm

theorem AggSite.rowCount_eq (site : AggSite) :
    site.rowCount std = (site.keys.map fun key => (site.agg.window.seenOfKey std
      (site.input.map (site.seen site.ctx)) key).length).sum := by
  refine congrArg List.sum (map_congr_left fun key _ => ?_)
  have hseen := site.agg.window.seenOfKey_eq std site.ctx (window_subset_depend site.agg)
    site.input key
  rw [show site.agg.window.seenOfKey std (site.input.map (site.seen site.ctx)) key = _ from hseen,
    length_map]

/-- A list is left as it was by a filter and a change of its elements if and only if
nothing is left out and no element changes. -/
theorem filter_map_eq_map_iff {α β γ : Type*} {r us vs} (hr : List.Forall₂ r us vs) {accept}
    {g : β → γ} {main own : α → γ} (hg : ∀ u ∈ us, ∀ v, r u v → g v = main u) :
    (vs.filter accept).map g = us.map own ↔
      (∀ v ∈ vs, accept v = true) ∧ ∀ u ∈ us, main u = own u := by
  have hmap : vs.map g = us.map main := by
    induction hr with
    | nil => rfl
    | cons huv _ ih =>
      rw [map_cons, map_cons, hg _ mem_cons_self _ huv,
        ih fun u hu => hg u (mem_cons_of_mem _ hu)]
  constructor
  · intro heq
    have hlength : (vs.filter accept).length = vs.length := by
      have := congrArg List.length heq
      rwa [length_map, length_map, hr.length_eq] at this
    have hall := length_filter_eq_length_iff.mp hlength
    refine ⟨hall, map_inj_left.mp ?_⟩
    rw [← hmap, ← heq, filter_eq_self.mpr hall]
  · rintro ⟨hall, hsame⟩
    rw [filter_eq_self.mpr hall, hmap]
    exact map_congr_left hsame

/-- Every union feeds its partition as before if and only if it is not left out and the
window of the aggregation treats it as its own window does. -/
theorem unions_iff (h : processWindow site.agg site.ctx site.unions = some new)
    (hrows : ∀ infos, columnIndexes site.ctx site.agg.dependColumns = some infos →
      ∀ u ∈ site.unions, ∀ pruned, prunedInput u.ctx infos = some pruned →
        ∀ row ∈ u.data.rows,
          site.seen ⟨[new.input.columns]⟩ (simpleProject u.ctx pruned.positions row) =
            site.seen site.ctx row) (key : List Byte) :
    new.unions.map (fun u => (u.window.rowsOfKey std ⟨[new.input.columns]⟩ u.data key).map
        (mapEntry (site.seen ⟨[new.input.columns]⟩))) =
      site.unions.map (fun u => (u.window.rowsOfKey std site.ctx u.data key).map
        (mapEntry (site.seen site.ctx))) ↔
    (∀ infos input, columnIndexes site.ctx site.agg.dependColumns = some infos →
      prunedInput site.ctx infos = some input → ∀ u ∈ site.unions, ∀ pruned,
        prunedInput u.ctx infos = some pruned →
          isSameSchema pruned.columns input.columns = true) ∧
    ∀ u ∈ site.unions,
      (site.agg.window.rowsOfKey std site.ctx u.data key).map (mapEntry (site.seen site.ctx)) =
        (u.window.rowsOfKey std site.ctx u.data key).map (mapEntry (site.seen site.ctx)) := by
  obtain ⟨infos, prunedUnions, hinfos, hinput, hunions, hnew, -, -⟩ := processWindow_inv h
  have hflatten : ∀ columns : List SourceColumn, [columns].flatten = columns := fun columns => by
    rw [flatten_cons, flatten_nil, append_nil]
  rw [hnew, filter_map_eq_map_iff hunions]
  · refine and_congr_left fun _ => ?_
    constructor
    · intro hall infos' input hinfos' hinput' u hu pruned hpruned
      cases hinfos.symm.trans hinfos'
      cases hinput.symm.trans hinput'
      obtain ⟨i, hi⟩ := getElem?_of_mem hu
      obtain ⟨u', hu', pruned', hpruned', rfl⟩ :=
        getElem?_of_forall₂ (List.Forall₂.flip hunions) hi
      cases hpruned.symm.trans hpruned'
      have haccept := hall _ (mem_of_getElem? hu')
      rwa [prunedUnion, hflatten] at haccept
    · intro hall u' hu'
      obtain ⟨i, hi⟩ := getElem?_of_mem hu'
      obtain ⟨u, hu, pruned, hpruned, rfl⟩ := getElem?_of_forall₂ hunions hi
      rw [prunedUnion, hflatten]
      exact hall infos _ hinfos hinput u (mem_of_getElem? hu) pruned hpruned
  · rintro u hu u' ⟨pruned, hpruned, rfl⟩
    exact rowsOfKey_prunedUnion (hrows infos hinfos u hu pruned hpruned) key

/-- The windows are the same if and only if the limit of the old node does not show. -/
theorem saw_iff (h : processWindow site.agg site.ctx site.unions = some new)
    (hrows : ∀ row ∈ site.input.rows,
      site.seen ⟨[new.input.columns]⟩ (simpleProject site.ctx new.input.positions row) =
        site.seen site.ctx row)
    (hunions : ∀ key ∈ site.keys,
      new.unions.map (fun u => (u.window.rowsOfKey std ⟨[new.input.columns]⟩ u.data key).map
          (mapEntry (site.seen ⟨[new.input.columns]⟩))) =
        site.unions.map fun u => (u.window.rowsOfKey std site.ctx u.data key).map
          (mapEntry (site.seen site.ctx))) :
    new.agg.saw std ⟨[new.input.columns]⟩ site.agg.dependColumns (unionTables new.unions)
        (site.input.map (simpleProject site.ctx new.input.positions)) =
      site.agg.saw std site.ctx site.agg.dependColumns (unionTables site.unions) site.input ↔
    site.agg.limitCnt = 0 ∨ site.rowCount std ≤ site.agg.limitCnt := by
  obtain ⟨infos, prunedUnions, hinfos, hinput, -, -, hagg, -⟩ := processWindow_inv h
  have hdata : (site.input.map (simpleProject site.ctx new.input.positions)).map
        (site.seen ⟨[new.input.columns]⟩) = site.input.map (site.seen site.ctx) := by
    rw [DataHandler.map_map]
    exact DataHandler.map_congr hrows
  have hold := site.agg.saw_eq std site.ctx _ (window_subset_depend site.agg)
    (unionTables site.unions) site.input
  have hnew := ({ site.agg with limitCnt := 0 } : WindowAggNode).saw_eq std
    ⟨[new.input.columns]⟩ _ (window_subset_depend site.agg) (unionTables new.unions)
    (site.input.map (simpleProject site.ctx new.input.positions))
  have hseen : ∀ ctx : SchemasContext,
      (fun row => (ctx.seen row).only site.agg.dependColumns) = site.seen ctx := fun _ => rfl
  simp only [hseen, hdata, unionTables, List.map_map] at hold hnew
  rw [hagg]
  unfold unionTables
  rw [hold, hnew, site.rowCount_eq]
  have hkeys := site.keys_eq
  cases hp : partitionOf site.agg.window.seenGenerator.partitionGen
      (site.input.map (site.seen site.ctx)) with
  | none => simp [hkeys, hp]
  | some p =>
    rw [hp, map_some, getD_some] at hkeys
    have hrowsEq : site.agg.seenRows std p (fun key => new.unions.map fun u =>
          (u.window.rowsOfKey std ⟨[new.input.columns]⟩ u.data key).map
            (mapEntry (site.seen ⟨[new.input.columns]⟩))) =
        site.agg.seenRows std p fun key => site.unions.map fun u =>
          (u.window.rowsOfKey std site.ctx u.data key).map (mapEntry (site.seen site.ctx)) :=
      site.agg.seenRows_congr std fun key hkey => hunions key (hkeys ▸ hkey)
    have hcount : (site.agg.seenRows std p fun key => site.unions.map fun u =>
          (u.window.rowsOfKey std site.ctx u.data key).map
            (mapEntry (site.seen site.ctx))).length =
        (site.keys.map fun key => (site.agg.window.seenOfKey std
          (site.input.map (site.seen site.ctx)) key).length).sum := by
      rw [site.agg.length_seenRows, hkeys]
      unfold WindowOp.seenOfKey
      simp only [hp, bind_some]
    rw [map_some, map_some, Option.some.injEq, ← hcount,
      ← limitRows_eq_self_iff, eq_comm]
    exact iff_of_eq (congrArg (_ = ·) hrowsEq)

theorem same_iff_prunable (h : processWindow site.agg site.ctx site.unions = some new) :
    site.Same std new ↔ site.Prunable std := by
  obtain ⟨hrows, hunionRows⟩ := rows_iff h
  constructor
  · intro hsame
    have hkey := fun key hkey =>
      (unions_iff h hsame.unionRows key).mp (hsame.unions key hkey)
    refine ⟨hrows.mp hsame.rows, hunionRows.mp hsame.unionRows, fun hne => ?_,
      fun key hk => (hkey key hk).2, (saw_iff h hsame.rows hsame.unions).mp hsame.saw⟩
    obtain ⟨key, hk⟩ := exists_mem_of_ne_nil _ hne
    exact (hkey key hk).1
  · intro hok
    have hunions := fun key hk => (unions_iff h (hunionRows.mpr hok.unionRows) key).mpr
      ⟨hok.schema (ne_nil_of_mem hk), hok.unions key hk⟩
    exact ⟨hrows.mpr hok.rows, hunionRows.mpr hok.unionRows, hunions,
      (saw_iff h (hrows.mpr hok.rows) hunions).mpr hok.limit⟩

/-- An aggregation that sees the same has the same output. -/
theorem runAgg_of_same (site : AggSite) (h : processWindow site.agg site.ctx site.unions = some new)
    (hsame : site.Same std new) :
    runAgg std new.agg ⟨[new.input.columns]⟩ new.unions
        (some (site.input.map (simpleProject site.ctx new.input.positions))) =
      runAgg std site.agg site.ctx site.unions (some site.input) := by
  obtain ⟨infos, prunedUnions, -, -, -, -, hagg, -⟩ := processWindow_inv h
  have htables : ∀ unions : List WindowUnion,
      unions.map (·.window) = (unionTables unions).map Prod.fst ∧
        unions.map (·.data) = (unionTables unions).map Prod.snd := fun unions => by
    unfold unionTables
    rw [List.map_map, List.map_map]
    exact ⟨rfl, rfl⟩
  have hproject : new.agg.projectSeen = site.agg.projectSeen := by
    rw [hagg]
    rfl
  have hsub : new.agg.projectColumns ⊆ site.agg.dependColumns := by
    rw [hagg]
    exact project_subset_depend site.agg
  unfold runAgg
  rw [bind_some, bind_some, (htables new.unions).1, (htables new.unions).2,
    (htables site.unions).1, (htables site.unions).2,
    new.agg.run_eq_saw std _ _ hsub,
    site.agg.run_eq_saw std _ _ (project_subset_depend site.agg), hsame.saw, hproject]

end Site

/-! ### Plans -/

namespace Plan

/-- The window aggregations of a plan that get an input. -/
def sites (std : KeySort) : Plan → List AggSite
  | provider _ => []
  | unary _ input => sites std input
  | binary _ left right => sites std left ++ sites std right
  | joinedAgg _ input => sites std input
  | windowAgg agg ctx input unions =>
    sites std input ++ ((run std input).map fun data => ⟨agg, ctx, data, unions⟩).toList

/-- The pass has rewritten every aggregation. -/
theorem processed_of_doApply {std} {p p' : Plan} {changed} (h : p.doApply = some (p', changed)) :
    ∀ site ∈ p.sites std, ∃ new, processWindow site.agg site.ctx site.unions = some new := by
  induction p generalizing p' changed with
  | provider data => exact fun site hsite => nomatch hsite
  | unary f input ih =>
    obtain ⟨⟨input', inputChanged⟩, hinput, -⟩ := bind_eq_some_iff.mp h
    exact ih hinput
  | binary f left right ihl ihr =>
    obtain ⟨⟨left', leftChanged⟩, hleft, h⟩ := bind_eq_some_iff.mp h
    obtain ⟨⟨right', rightChanged⟩, hright, -⟩ := bind_eq_some_iff.mp h
    exact forall_mem_append.mpr ⟨ihl hleft, ihr hright⟩
  | joinedAgg f input ih =>
    obtain ⟨⟨input', inputChanged⟩, hinput, -⟩ := bind_eq_some_iff.mp h
    exact ih hinput
  | windowAgg agg ctx input unions ih =>
    obtain ⟨⟨input', inputChanged⟩, hinput, h⟩ := bind_eq_some_iff.mp h
    refine forall_mem_append.mpr ⟨ih hinput, fun site hsite => ?_⟩
    obtain ⟨data, -, rfl⟩ := map_eq_some_iff.mp (mem_toList.mp hsite)
    cases inputChanged with
    | true => cases h
    | false =>
      obtain ⟨new, hnew, -⟩ := bind_eq_some_iff.mp h
      exact ⟨new, hnew⟩

/-- If every rewritten aggregation sees the same, the plan yields the same. -/
theorem run_of_same {std : KeySort} {p p' : Plan} {changed : Bool}
    (h : p.doApply = some (p', changed))
    (hsame : ∀ site ∈ p.sites std, ∀ new,
      processWindow site.agg site.ctx site.unions = some new → site.Same std new) :
    p'.run std = p.run std := by
  induction p generalizing p' changed with
  | provider data =>
    cases h
    rfl
  | unary f input ih =>
    obtain ⟨⟨input', inputChanged⟩, hinput, h⟩ := bind_eq_some_iff.mp h
    cases h
    rw [run, run, ih hinput hsame]
  | binary f left right ihl ihr =>
    obtain ⟨⟨left', leftChanged⟩, hleft, h⟩ := bind_eq_some_iff.mp h
    obtain ⟨⟨right', rightChanged⟩, hright, h⟩ := bind_eq_some_iff.mp h
    cases h
    obtain ⟨hsameL, hsameR⟩ := forall_mem_append.mp hsame
    rw [run, run, ihl hleft hsameL, ihr hright hsameR]
  | joinedAgg f input ih =>
    obtain ⟨⟨input', inputChanged⟩, hinput, h⟩ := bind_eq_some_iff.mp h
    cases inputChanged with
    | true => cases h
    | false =>
      cases h
      rfl
  | windowAgg agg ctx input unions ih =>
    obtain ⟨⟨input', inputChanged⟩, hinput, h⟩ := bind_eq_some_iff.mp h
    cases inputChanged with
    | true => cases h
    | false =>
      obtain ⟨new, hnew, h⟩ := bind_eq_some_iff.mp h
      cases h
      rw [run, run, simpleProjected, run]
      cases hdata : run std input with
      | none => rfl
      | some data =>
        refine runAgg_of_same ⟨agg, ctx, data, unions⟩ hnew (hsame _ ?_ new hnew)
        exact mem_append_right _ (mem_toList.mpr (by rw [hdata]; rfl))

end Plan

/-- `WindowColumnPruning` keeps the output of a plan, and what each aggregation that it
rewrites sees, if and only if the rows, the unions and the limits of these aggregations
are as the pass takes them to be. -/
theorem windowColumnPruning_same_iff (std : KeySort) {p p' : Plan} {changed : Bool}
    (h : p.doApply = some (p', changed)) :
    ((∀ site ∈ p.sites std, ∀ new,
        processWindow site.agg site.ctx site.unions = some new → site.Same std new) ∧
      p'.run std = p.run std) ↔
    ∀ site ∈ p.sites std, site.Prunable std := by
  constructor
  · rintro ⟨hsame, -⟩ site hsite
    obtain ⟨new, hnew⟩ := Plan.processed_of_doApply h site hsite
    exact (same_iff_prunable hnew).mp (hsame site hsite new hnew)
  · intro hok
    have hsame : ∀ site ∈ p.sites std, ∀ new,
        processWindow site.agg site.ctx site.unions = some new → site.Same std new :=
      fun site hsite new hnew => (same_iff_prunable hnew).mpr (hok site hsite)
    exact ⟨hsame, Plan.run_of_same h hsame⟩

/-! ### A limit that is lost -/

/-- The number of rows that an aggregation outputs. -/
theorem length_runAgg (std : KeySort) (agg : WindowAggNode) (ctx : SchemasContext)
    (unions : List WindowUnion) (data : DataHandler Codec.Row) {p : PartitionHandler Codec.Row}
    (hp : partitionOf (agg.window.generator ctx).partitionGen data = some p) {n : Nat}
    (hn : (p.keys.map fun key =>
      (((agg.window.generator ctx).segment std p key).getD []).length).sum = n) :
    (runAgg std agg ctx unions (some data)).map (fun d => d.rows.length) =
      some (if agg.limitCnt = 0 then n else min agg.limitCnt n) := by
  have hpartition : partitionOf (agg.runner ctx (unions.map (·.window))).instanceWindow.partitionGen
      data = some p := hp
  have htable : ∀ rows : List (Option (List Value)), (aggTable rows).rows.length = rows.length :=
    fun rows => by simp [aggTable, DataHandler.rows]
  unfold runAgg
  rw [bind_some, Option.map_map, WindowAggRunner.run_eq, hpartition, map_some,
    map_some, Function.comp_apply, htable, length_limitRows,
    WindowAggRunner.length_allRows]
  subst hn
  rfl

/-- The columns of `t1(k, ts, x, y)`. -/
def t1Columns : SchemasContext :=
  ⟨[[⟨"k", .kVarchar, 1⟩, ⟨"ts", .kTimestamp, 2⟩, ⟨"x", .kInt64, 3⟩, ⟨"y", .kInt64, 4⟩]]⟩

def t1Row (ts x : BitVec 64) : Codec.Row :=
  Row.ofSlice (some [.varchar [107], .timestamp ts, .int64 x, .int64 0])

/-- Two rows of `t1`, through its index on `k` and `ts`. -/
def t1Index : PartitionHandler Codec.Row where
  added := [([107], 1, t1Row 1 10), ([107], 2, t1Row 2 20)]
  orderType := .kAscOrder

/-- `ROWS BETWEEN 1 PRECEDING AND CURRENT ROW`. -/
def lastTwo : WindowRange where
  frameType := .kFrameRows
  startOffset := 0
  endOffset := 0
  startRow := 1
  maxSize := 0
  startOffset_int64 := isInt64_zero
  endOffset_int64 := isInt64_zero
  startRow_uint64 := isUInt64_one

/-- `SELECT count(x) OVER w FROM t1 … LIMIT 1` after the index and limit passes. -/
def limitAgg : WindowAggNode where
  limitCnt := 1
  projectColumns := [.columnRef "x", .columnRef "ts", .columnRef "k"]
  project seen := [.int64 (BitVec.ofNat 64 seen.2.2.length)]
  window := ⟨none, true, true, none, [], lastTwo⟩
  instanceNotInWindow := false
  excludeCurrentTime := false

def limitPlan : Plan := .windowAgg limitAgg t1Columns (.provider (some (.partition t1Index))) []

def prunedT1 : PrunedInput where
  columns := [⟨"k", .kVarchar, 1⟩, ⟨"ts", .kTimestamp, 2⟩, ⟨"x", .kInt64, 3⟩]
  positions := [(0, 0), (0, 1), (0, 2)]

def prunedLimitPlan : Plan :=
  .windowAgg { limitAgg with limitCnt := 0 } ⟨[prunedT1.columns]⟩
    (.simpleProjected t1Columns prunedT1 (.provider (some (.partition t1Index)))) []

theorem keys_t1Index : t1Index.keys = [[107]] := by
  simp [PartitionHandler.keys, t1Index]

theorem getSegment_t1Index : t1Index.getSegment [107] =
    { iterator := some (t1Index.segment [107]), orderType := .kAscOrder } := by
  rw [PartitionHandler.getSegment, keys_t1Index]
  rfl

theorem run_prunedLimitPlan_ne : prunedLimitPlan.run .insertion ≠ limitPlan.run .insertion := by
  intro h
  have hnew : (prunedLimitPlan.run .insertion).map (fun d => d.rows.length) = some 2 := by
    refine length_runAgg .insertion { limitAgg with limitCnt := 0 } ⟨[prunedT1.columns]⟩ []
      (.partition (t1Index.map (simpleProject t1Columns prunedT1.positions))) rfl ?_
    rw [PartitionHandler.keys_map, keys_t1Index, map_singleton]
    unfold WindowGenerator.segment
    rw [PartitionHandler.getSegment_map, getSegment_t1Index]
    rfl
  have hold : (limitPlan.run .insertion).map (fun d => d.rows.length) = some 1 := by
    refine length_runAgg .insertion limitAgg t1Columns [] (.partition t1Index) rfl (n := 2) ?_
    rw [keys_t1Index, map_singleton]
    unfold WindowGenerator.segment
    rw [getSegment_t1Index]
    rfl
  rw [h, hold] at hnew
  exact absurd hnew (by decide)

/-- With `LIMIT 1` on the aggregation, the pruned plan outputs both rows of the table. -/
theorem limit_lost_by_pruning :
    limitPlan.doApply = some (prunedLimitPlan, true) ∧
      prunedLimitPlan.run .insertion ≠ limitPlan.run .insertion :=
  ⟨rfl, run_prunedLimitPlan_ne⟩

/-- The same query without a limit. -/
def noLimitPlan : Plan :=
  .windowAgg { limitAgg with limitCnt := 0 } t1Columns (.provider (some (.partition t1Index))) []

/-- What is kept of the columns of `t1`. -/
def t1Infos : List ColIndexInfo := [⟨1, (0, 0)⟩, ⟨2, (0, 1)⟩, ⟨3, (0, 2)⟩]

theorem rowKept_t1Row (ts x : BitVec 64) :
    RowKept limitAgg.dependColumns t1Columns t1Columns t1Infos prunedT1 (t1Row ts x) := by
  -- every column is kept under its own id
  have hkept : ∀ ref ∈ limitAgg.dependColumns, ∀ i < t1Infos.length,
      t1Infos[i]?.map ColIndexInfo.cid =
          ((t1Columns.resolve ref).bind t1Columns.columnAt).map SourceColumn.id →
        prunedT1.positions[i]? = t1Columns.resolve ref := by
    decide
  refine ⟨.inr ⟨rfl, nofun⟩, ?_⟩
  intro ref href pos column i info source hpos hcolumn hinfo hid hsource
  have hi : i < t1Infos.length := (List.getElem?_eq_some_iff.mp hinfo).1
  have hsame := hkept ref href i hi (by rw [hinfo, hpos, bind_some, hcolumn, map_some, map_some, hid])
  rw [hsource, hpos] at hsame
  rw [Option.some.inj hsame]

theorem windowColumnPruning_same_noLimit :
    (∀ site ∈ noLimitPlan.sites .insertion, site.Prunable .insertion) ∧
      prunedLimitPlan.run .insertion = noLimitPlan.run .insertion := by
  have hinfos : columnIndexes t1Columns limitAgg.dependColumns = some t1Infos := rfl
  have hpruned : prunedInput t1Columns t1Infos = some prunedT1 := rfl
  have hprunable : ∀ site ∈ noLimitPlan.sites .insertion, site.Prunable .insertion := by
    intro site hsite
    obtain rfl := mem_singleton.mp hsite
    refine ⟨fun infos pruned hinfos' hpruned' row hrow => ?_, ?_, ?_, ?_, .inl rfl⟩
    · obtain rfl := Option.some.inj (hinfos.symm.trans hinfos')
      obtain rfl := Option.some.inj (hpruned.symm.trans hpruned')
      obtain ⟨a, ha, rfl⟩ := List.mem_map.mp hrow
      rcases List.mem_pair.mp ha with rfl | rfl
      · exact rowKept_t1Row 1 10
      · exact rowKept_t1Row 2 20
    · exact fun _ _ u hu => absurd hu not_mem_nil
    · exact fun _ _ _ _ _ u hu => absurd hu not_mem_nil
    · exact fun _ _ u hu => absurd hu not_mem_nil
  exact ⟨hprunable,
    ((windowColumnPruning_same_iff .insertion (p := noLimitPlan) rfl).mpr hprunable).2⟩

end HybridSE.Passes
