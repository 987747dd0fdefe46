import HybridSE.Vm.PlanNumbering

/-!
# HybridSE.Vm.ColumnIdentity

When the contexts of a plan tell the truth about its rows.

A context is right about a row if every reference `R.c` that it accepts is resolved to a
position where the row holds the column `c` of a relation named `R`, and if columns with one
id hold one value. The ids name origins, not occurrences: both sides of a join of a table with
itself bring the ids of the same columns. `joined_schemas_ctx_` then has two columns under one
id and keeps the position of the last; in the context of the join itself, where the right side
has new ids, a reference to the right side finds its old id among those of the left.

So the contexts are right exactly if the rows make no difference: wherever a join brings two
rows together, columns of one origin hold the same value on both sides. (And, for the columns
of one name in one table, in every row of the table.)
-/

namespace HybridSE.Vm

open HybridSE.Codec List Option

/-- `ResolveColumnID` of a context whose root has these producers. -/
def NodeSchemas.resolveIn (ctx : NodeSchemas) (producers : List PhysicalOpNode)
    (relation column : String) : Option Nat :=
  ctx.resolveColumnID producers relation column
    (producers.map (PhysicalOpNode.resolveColumnID relation column))

theorem PhysicalOpNode.resolveColumnID_eq (relation column : String) (node : PhysicalOpNode) :
    node.resolveColumnID relation column =
      node.schemas.resolveIn node.producers relation column := by
  cases node with
  | mk id op schemas producers unions =>
    rw [PhysicalOpNode.resolveColumnID, resolveColumnIDs_eq_map]
    rfl

/-! ### The property and its condition -/

/-- A context is right about a row. -/
structure ReadsRelations (ctx : NodeSchemas) (producers : List PhysicalOpNode) (t : TracedRow) :
    Prop where
  /-- A reference `R.c` that is accepted shows the column `c` of a relation `R`. -/
  reference : ∀ {relation column : String} {pos : ColumnPos}, relation ≠ "" →
    ctx.resolveColumnIndexByName producers relation column = some pos →
    (relation, column, t.row.get pos) ∈ t.relations
  /-- Columns with the same id hold the same value. -/
  same_id : ∀ {pos pos' : ColumnPos} {x x' : NodeColumn}, ctx.columnAt pos = some x →
    ctx.columnAt pos' = some x' → x.id = x'.id → t.row.get pos = t.row.get pos'

namespace PhysicalOpNode

/-- The context of a node is right about every row that the node puts out, and
`joined_schemas_ctx_` about every pair of rows that a join brings together. -/
def IdentitySound (db : Database) (node : PhysicalOpNode) : Prop :=
  (∀ t ∈ node.run db, ReadsRelations node.schemas node.producers t) ∧
  ∀ left right, node.producers = [left, right] → ∀ pair ∈ node.joinedPairs db,
    ReadsRelations (joinedSchemas left right) node.producers (.join left right pair.1 pair.2)

/-- The rows that meet in a node agree: in a row of a table, the columns of one name; in two
rows that a join brings together, the columns of one origin. -/
def RowsAgree (db : Database) (node : PhysicalOpNode) : Prop :=
  (node.op.IsProvider → ∀ t ∈ node.run db, ∀ pos pos' x x', node.schemas.columnAt pos = some x →
    node.schemas.columnAt pos' = some x' → x.name = x'.name → t.row.get pos = t.row.get pos') ∧
  ∀ left right, node.producers = [left, right] → ∀ pair ∈ node.joinedPairs db, ∀ pos pos' x y,
    left.schemas.columnAt pos = some x → right.schemas.columnAt pos' = some y →
    x.origin = y.origin → pair.1.row.get pos = pair.2.row.get pos'

end PhysicalOpNode

/-! ### Rows that a context reads by id -/

/-- As `ReadsRelations`, for every position that has the id of the reference. -/
structure Faithful (ctx : NodeSchemas) (producers : List PhysicalOpNode) (t : TracedRow) : Prop
    where
  reference : ∀ {relation column : String} {id : Nat} {pos : ColumnPos} {x : NodeColumn},
    relation ≠ "" → ctx.resolveIn producers relation column = some id →
    ctx.columnAt pos = some x → x.id = id → (relation, column, t.row.get pos) ∈ t.relations
  same_id : ∀ {pos pos' : ColumnPos} {x x' : NodeColumn}, ctx.columnAt pos = some x →
    ctx.columnAt pos' = some x' → x.id = x'.id → t.row.get pos = t.row.get pos'

theorem Faithful.readsRelations {ctx producers t} (h : Faithful ctx producers t) :
    ReadsRelations ctx producers t := by
  refine ⟨fun {relation column pos} hrelation hpos => ?_, h.same_id⟩
  rw [NodeSchemas.resolveColumnIndexByName, if_neg hrelation] at hpos
  obtain ⟨id, hid, hpos⟩ := bind_eq_some_iff.mp hpos
  obtain ⟨x, hx, hxid⟩ := NodeSchemas.columnAt_of_resolveColumnIndexByID hpos
  exact h.reference hrelation hid hx hxid

/-! ### Resolution -/

section Resolve

variable {ctx : NodeSchemas} {producers : List PhysicalOpNode} {relation column : String}
  {id : Nat}

theorem mem_of_agreedColumnID {ids} (h : agreedColumnID ids = some id) : id ∈ ids := by
  cases ids with
  | nil => cases h
  | cons first rest =>
    rw [agreedColumnID, ite_none_right_eq_some, Option.some.injEq] at h
    exact h.2 ▸ mem_cons_self

/-- A reference is found in the context that has the name, or in a producer. -/
theorem resolveIn_cases (hrelation : relation ≠ "")
    (h : ctx.resolveIn producers relation column = some id) :
    (relation = ctx.name ∧ ∃ pos x, ctx.columnAt pos = some x ∧ x.name = column ∧ x.id = id) ∨
    (∃ childIdx producer childId, producers[childIdx]? = some producer ∧
      producer.resolveColumnID relation column = some childId ∧
      ctx.mapColumnID childIdx childId = some id) := by
  unfold NodeSchemas.resolveIn NodeSchemas.resolveColumnID at h
  split at h
  case isTrue hname =>
    obtain ⟨x, hx, h⟩ := bind_eq_some_iff.mp h
    obtain ⟨pos, hpos, hx⟩ := bind_eq_some_iff.mp hx
    obtain ⟨x', hx', hxname⟩ := NodeSchemas.columnAt_of_resolveColumnIndexByName hpos
    rw [hx] at hx'
    cases hx'
    split at h
    case isTrue =>
      cases h
      exact .inl ⟨hname.1.resolve_left hrelation, pos, x, hx, hxname, rfl⟩
    case isFalse => cases h
  case isFalse =>
    obtain ⟨⟨found, childIdx⟩, hmem, hfound⟩ :=
      mem_filterMap.mp (mem_of_agreedColumnID h)
    obtain ⟨childId, hchild, hmap⟩ := bind_eq_some_iff.mp hfound
    have hget := mem_zipIdx_iff_getElem?.mp hmem
    rw [getElem?_map] at hget
    obtain ⟨producer, hproducer, heq⟩ := map_eq_some_iff.mp hget
    exact .inr ⟨childIdx, producer, childId, hproducer, heq.trans hchild, hmap⟩

/-- What a reference is resolved to is an id of the context. -/
theorem hasID_of_resolveColumnID {node : PhysicalOpNode} (hrelation : relation ≠ "")
    (h : node.resolveColumnID relation column = some id) : node.schemas.hasID id = true := by
  rw [PhysicalOpNode.resolveColumnID_eq] at h
  rcases resolveIn_cases hrelation h with
    ⟨-, pos, x, hx, -, hid⟩ | ⟨childIdx, producer, childId, -, -, hmap⟩
  · exact NodeSchemas.hasID_iff.mpr ⟨pos, x, hx, hid⟩
  · exact NodeSchemas.hasID_of_mapColumnID hmap

/-- A relation with this name and column is below the node. -/
theorem mem_relationColumns (hrelation : relation ≠ "") :
    ∀ (node : PhysicalOpNode) (id : Nat), node.resolveColumnID relation column = some id →
      (relation, column) ∈ node.relationColumns
  | .mk nodeId op schemas producers unions, id, h => by
      rw [PhysicalOpNode.resolveColumnID_eq] at h
      rw [PhysicalOpNode.relationColumns, mem_append]
      rcases resolveIn_cases hrelation h with
        ⟨hname, pos, x, hx, hcolumn, -⟩ | ⟨childIdx, producer, childId, hproducer, hchild, -⟩
      · refine .inl (List.mem_map.mpr ⟨(pos, x), NodeSchemas.mem_columns.mpr hx, ?_⟩)
        rw [hname, ← hcolumn]
        rfl
      · exact .inr (mem_relationColumnsAll producers childIdx producer childId hproducer hchild)
where
  mem_relationColumnsAll : ∀ (producers : List PhysicalOpNode) (childIdx : Nat)
      (producer : PhysicalOpNode) (childId : Nat), producers[childIdx]? = some producer →
      producer.resolveColumnID relation column = some childId →
      (relation, column) ∈ PhysicalOpNode.relationColumnsAll producers
    | [], _, _, _, hproducer, _ => nomatch hproducer
    | first :: rest, 0, producer, childId, hproducer, hchild => by
        cases hproducer
        rw [PhysicalOpNode.relationColumnsAll, mem_append]
        exact .inl (mem_relationColumns hrelation first childId hchild)
    | first :: rest, childIdx + 1, producer, childId, hproducer, hchild => by
        rw [PhysicalOpNode.relationColumnsAll, mem_append]
        exact .inr (mem_relationColumnsAll rest childIdx producer childId hproducer hchild)

end Resolve

/-- All columns of no row are NULL. -/
theorem faithful_missing (node : PhysicalOpNode) :
    Faithful node.schemas node.producers (TracedRow.missing node) := by
  constructor
  · intro relation column id pos x hrelation hresolve _ _
    rw [← PhysicalOpNode.resolveColumnID_eq] at hresolve
    refine List.mem_map.mpr ⟨_, mem_relationColumns hrelation node id hresolve, ?_⟩
    rw [TracedRow.missing, Row.get_new]
  · intro pos pos' x x' _ _ _
    rw [TracedRow.missing, Row.get_new, Row.get_new]

theorem faithful_pick {node rows} (h : ∀ t ∈ rows, Faithful node.schemas node.producers t)
    (index : Option Nat) : Faithful node.schemas node.producers (.pick node rows index) := by
  unfold TracedRow.pick
  cases hrow : index.bind (rows[·]?) with
  | none => exact faithful_missing node
  | some t =>
    obtain ⟨i, -, hi⟩ := bind_eq_some_iff.mp hrow
    exact h t (mem_of_getElem? hi)

/-! ### Contexts that are made from producers -/

section Derive

variable {node start stop : Nat} {producers : List PhysicalOpNode} {ctx : NodeSchemas}
  {copied : ColumnPos → Option (Nat × ColumnPos)} {t : TracedRow}

/-- A context is right if it is right about the columns that it has from its producers:
`hreference` for what the producers resolve, `hsame` for an id that is passed on beside
another column made from it. -/
theorem Derived.faithful (hderived : Derived node start stop producers ctx copied)
    (hbelow : IdsBelow start producers) (hname : ctx.name ≠ "" → ctx.relations t.row ⊆ t.relations)
    (hreference : ∀ {relation column : String} {childIdx childId : Nat}
      {producer : PhysicalOpNode} {pos : ColumnPos} {x : NodeColumn}, relation ≠ "" →
      producers[childIdx]? = some producer →
      producer.resolveColumnID relation column = some childId → ctx.columnAt pos = some x →
      x.source = some (childIdx, childId) → (relation, column, t.row.get pos) ∈ t.relations)
    (hsame : ∀ {childIdx : Nat} {pos pos' : ColumnPos} {x x' : NodeColumn},
      ctx.columnAt pos = some x → ctx.columnAt pos' = some x' → x.id < start →
      x'.source = some (childIdx, x.id) → t.row.get pos = t.row.get pos') :
    Faithful ctx producers t := by
  -- a column with an old id was passed on
  have hsource : ∀ {pos : ColumnPos} {x : NodeColumn}, ctx.columnAt pos = some x →
      x.id < start → ∃ childIdx, x.source = some (childIdx, x.id) := by
    intro pos x hx hlt
    cases hderived.columnFrom hx with
    | @passed childIdx _ _ _ _ _ _ hsource hid _ => exact ⟨childIdx, by rw [hsource, hid]⟩
    | renewed _ _ _ _ hid _ => omega
    | computed _ _ hid _ => omega
  have hids : ∀ {pos pos' : ColumnPos} {x x' : NodeColumn}, ctx.columnAt pos = some x →
      ctx.columnAt pos' = some x' → x.id = x'.id → t.row.get pos = t.row.get pos' := by
    intro pos pos' x x' hx hx' heq
    by_cases hlt : x.id < start
    · obtain ⟨childIdx, hsource'⟩ := hsource hx' (heq ▸ hlt)
      exact hsame hx hx' hlt (heq ▸ hsource')
    · rw [hderived.eq_of_id hx hx' (Nat.not_lt.mp hlt) heq]
  refine ⟨?_, hids⟩
  intro relation column id pos x hrelation hresolve hx hid
  rcases resolveIn_cases hrelation hresolve with
    ⟨hctx, pos', x', hx', hcolumn, hid'⟩ | ⟨childIdx, producer, childId, hproducer, hchild, hmap⟩
  · rw [hids hx hx' (hid.trans hid'.symm)]
    refine hname (hctx ▸ hrelation) (List.mem_map.mpr ⟨(pos', x'),
      NodeSchemas.mem_columns.mpr hx', ?_⟩)
    rw [hctx, ← hcolumn]
  · have hchildID : producer.schemas.hasID childId = true :=
      hasID_of_resolveColumnID hrelation hchild
    obtain ⟨q, y, hy, hyid⟩ := NodeSchemas.hasID_iff.mp hchildID
    have hlt : childId < start := by
      rw [← hyid]
      exact hbelow producer (mem_of_getElem? hproducer) hy
    unfold NodeSchemas.mapColumnID at hmap
    by_cases hhas : ctx.hasID childId = true
    · -- the id of the producer is taken, though it may be that of another column
      rw [if_pos hhas] at hmap
      cases hmap
      obtain ⟨pos', x', hx', hsource'⟩ :=
        hderived.exists_source hx hproducer hy (hid.trans hyid.symm)
      rw [hsame hx hx' (hid ▸ hlt) (by rw [hsource', hyid, hid])]
      exact hreference hrelation hproducer hchild hx' (by rw [hsource', hyid])
    · rw [if_neg hhas] at hmap
      obtain ⟨pos', x', hx', hsource', hid'⟩ := NodeSchemas.columnAt_of_childSource hmap
      have hle : start ≤ x'.id := by
        refine Nat.not_lt.mp fun hlt' => hhas ?_
        obtain ⟨childIdx', hsource''⟩ := hsource hx' hlt'
        rw [hsource'] at hsource''
        obtain ⟨-, hcid⟩ := Prod.mk.inj (Option.some.inj hsource'')
        exact NodeSchemas.hasID_iff.mpr ⟨pos', x', hx', hcid.symm⟩
      rw [hderived.eq_of_id hx hx' (by omega) (hid.trans hid'.symm)]
      exact hreference hrelation hproducer hchild hx' hsource'

/-- A row that is made from one row of each producer. -/
theorem Derived.faithful_of_copies (hderived : Derived node start stop producers ctx copied)
    (hbelow : IdsBelow start producers) (hname : ctx.name ≠ "" → ctx.relations t.row ⊆ t.relations)
    (rows : Nat → TracedRow)
    (hrows : ∀ {childIdx : Nat} {producer : PhysicalOpNode}, producers[childIdx]? = some producer →
      Faithful producer.schemas producer.producers (rows childIdx) ∧
        (rows childIdx).relations ⊆ t.relations)
    (hcopied : ∀ {childIdx : Nat} {pos q : ColumnPos} {x : NodeColumn},
      ctx.columnAt pos = some x → copied pos = some (childIdx, q) →
      t.row.get pos = (rows childIdx).row.get q)
    (hagree : ∀ {i j : Nat} {p p' : PhysicalOpNode} {q q' : ColumnPos} {y y' : NodeColumn},
      producers[i]? = some p → producers[j]? = some p' → p.schemas.columnAt q = some y →
      p'.schemas.columnAt q' = some y' → y.id = y'.id →
      (rows i).row.get q = (rows j).row.get q') :
    Faithful ctx producers t := by
  have hfrom : ∀ {childIdx childId : Nat} {pos : ColumnPos} {x : NodeColumn},
      ctx.columnAt pos = some x → x.source = some (childIdx, childId) →
      ∃ producer q y, producers[childIdx]? = some producer ∧
        producer.schemas.columnAt q = some y ∧ y.id = childId ∧
        t.row.get pos = (rows childIdx).row.get q := by
    intro childIdx childId pos x hx hsource
    cases hderived.columnFrom hx with
    | passed hpos hproducer hcolumn hsource' _ _ =>
      rw [hsource] at hsource'
      cases hsource'
      exact ⟨_, _, _, hproducer, hcolumn, rfl, hcopied hx hpos⟩
    | renewed hpos hproducer hcolumn hsource' _ _ =>
      rw [hsource] at hsource'
      cases hsource'
      exact ⟨_, _, _, hproducer, hcolumn, rfl, hcopied hx hpos⟩
    | computed _ hsource' _ _ =>
      rw [hsource] at hsource'
      cases hsource'
  refine hderived.faithful hbelow hname ?_ ?_
  · intro relation column childIdx childId producer pos x hrelation hproducer hchild hx hsource
    obtain ⟨producer', q, y, hproducer', hy, hid, hget⟩ := hfrom hx hsource
    rw [hproducer] at hproducer'
    cases hproducer'
    rw [PhysicalOpNode.resolveColumnID_eq] at hchild
    rw [hget]
    exact (hrows hproducer).2 ((hrows hproducer).1.reference hrelation hchild hy hid)
  · intro childIdx pos pos' x x' hx hx' hlt hsource'
    obtain ⟨p', q', y', hp', hy', hid', hget'⟩ := hfrom hx' hsource'
    cases hderived.columnFrom hx with
    | passed hpos hproducer hcolumn _ hid _ =>
      rw [hget', hcopied hx hpos]
      exact hagree hproducer hp' hcolumn hy' (hid.symm.trans hid'.symm)
    | renewed _ _ _ _ hid _ => omega
    | computed _ _ hid _ => omega

/-- A row that is made from one row of the only producer. -/
theorem Derived.faithful_of_copy {input : PhysicalOpNode}
    (hderived : Derived node start stop [input] ctx copied) (hbelow : IdsBelow start [input])
    (hname : ctx.name ≠ "" → ctx.relations t.row ⊆ t.relations) {t₀ : TracedRow}
    (hrow : Faithful input.schemas input.producers t₀) (hrelations : t₀.relations ⊆ t.relations)
    (hcopied : ∀ {pos q : ColumnPos} {x : NodeColumn}, ctx.columnAt pos = some x →
      copied pos = some (0, q) → t.row.get pos = t₀.row.get q) :
    Faithful ctx [input] t := by
  have hinput : ∀ {childIdx : Nat} {producer : PhysicalOpNode},
      [input][childIdx]? = some producer → childIdx = 0 ∧ producer = input := by
    intro childIdx producer hproducer
    obtain ⟨hidx, hproducer⟩ := List.getElem?_eq_some_iff.mp hproducer
    obtain rfl : childIdx = 0 := Nat.lt_one_iff.mp hidx
    exact ⟨rfl, hproducer.symm⟩
  refine hderived.faithful_of_copies hbelow hname (fun _ => t₀) ?_ ?_ ?_
  · intro childIdx producer hproducer
    obtain ⟨-, rfl⟩ := hinput hproducer
    exact ⟨hrow, hrelations⟩
  · intro childIdx pos q x hx hpos
    cases hderived.columnFrom hx with
    | passed hpos' hproducer _ _ _ _ =>
      rw [hpos] at hpos'
      cases hpos'
      obtain ⟨rfl, -⟩ := hinput hproducer
      exact hcopied hx hpos
    | renewed hpos' hproducer _ _ _ _ =>
      rw [hpos] at hpos'
      cases hpos'
      obtain ⟨rfl, -⟩ := hinput hproducer
      exact hcopied hx hpos
    | computed hpos' _ _ _ =>
      rw [hpos] at hpos'
      cases hpos'
  · intro i j p p' q q' y y' hp hp' hy hy' hid
    obtain ⟨-, rfl⟩ := hinput hp
    obtain ⟨-, rfl⟩ := hinput hp'
    exact hrow.same_id hy hy' hid

end Derive

/-! ### Joins -/

section Join

variable {left right : PhysicalOpNode} {l r : TracedRow}

/-- The values of a joined row are those of the two rows. -/
theorem get_join (hslices : 0 < left.schemas.slices) {pos x leftColumns rightColumns name}
    (hleft : leftColumns.length = left.schemas.slices)
    (hright : rightColumns.length = right.schemas.slices)
    (hx : (NodeSchemas.mk name (leftColumns ++ rightColumns)).columnAt pos = some x) {i q}
    (hfrom : joinFrom left pos = (i, q)) :
    (TracedRow.join left right l r).row.get pos = (if i = 0 then l else r).row.get q := by
  rcases columnAt_append hleft hx with ⟨heq, hx⟩ | ⟨heq, hle, hx⟩
  · rw [hfrom] at heq
    cases heq
    have hlt : pos.1 < left.schemas.slices := hleft ▸ lt_length_of_atPos hx
    rw [if_pos rfl, TracedRow.join, Row.get, Row.get, Row.getSlice_join _ _ _ hlt]
  · rw [hfrom] at heq
    cases heq
    have hlt : pos.1 - left.schemas.slices < right.schemas.slices :=
      hright ▸ lt_length_of_atPos hx
    have hpos : pos.1 = left.schemas.slices + (pos.1 - left.schemas.slices) := by omega
    rw [if_neg Nat.one_ne_zero, TracedRow.join, Row.get, Row.get, hpos,
      Row.getSlice_join_right _ _ _ hslices hlt, Nat.add_sub_cancel_left]

/-- Both contexts of a join are right about two rows that agree. -/
theorem faithful_join {node start stop : Nat} {name : String}
    {leftColumns rightColumns : List (List NodeColumn)}
    (hderived : Derived node start stop [left, right] ⟨name, leftColumns ++ rightColumns⟩
      fun pos => some (joinFrom left pos))
    (hbelow : IdsBelow start [left, right]) (hname : name = "")
    (hslices : 0 < left.schemas.slices) (hlengthLeft : leftColumns.length = left.schemas.slices)
    (hlengthRight : rightColumns.length = right.schemas.slices)
    (hl : Faithful left.schemas left.producers l) (hr : Faithful right.schemas right.producers r)
    (hagree : ∀ {pos pos' : ColumnPos} {x y : NodeColumn}, left.schemas.columnAt pos = some x →
      right.schemas.columnAt pos' = some y → x.id = y.id → l.row.get pos = r.row.get pos') :
    Faithful ⟨name, leftColumns ++ rightColumns⟩ [left, right] (.join left right l r) := by
  refine hderived.faithful_of_copies hbelow (fun h => absurd hname h)
    (fun i => if i = 0 then l else r) ?_ ?_ ?_
  · intro childIdx producer hproducer
    obtain ⟨hidx, hproducer⟩ := List.getElem?_eq_some_iff.mp hproducer
    match childIdx, hidx, hproducer with
    | 0, _, rfl => exact ⟨hl, subset_append_left _ _⟩
    | 1, _, rfl => exact ⟨hr, subset_append_right _ _⟩
  · intro childIdx pos q x hx hfrom
    exact get_join hslices hlengthLeft hlengthRight hx (Option.some.inj hfrom)
  · intro i j p p' q q' y y' hp hp' hy hy' hid
    obtain ⟨hidx, hp⟩ := List.getElem?_eq_some_iff.mp hp
    obtain ⟨hidx', hp'⟩ := List.getElem?_eq_some_iff.mp hp'
    match i, hidx, hp, j, hidx', hp' with
    | 0, _, rfl, 0, _, rfl => exact hl.same_id hy hy' hid
    | 0, _, rfl, 1, _, rfl => exact hagree hy hy' hid
    | 1, _, rfl, 0, _, rfl => exact (hagree hy' hy hid.symm).symm
    | 1, _, rfl, 1, _, rfl => exact hr.same_id hy hy' hid

end Join

/-! ### Providers and request unions -/

/-- The context of a provider of a table with this schema. -/
structure ProviderSchemas (schema : List (String × ColumnType)) (table : String)
    (node : PhysicalOpNode) : Prop where
  name : node.schemas.name = table
  producers : node.producers = []
  column : ∀ {pos : ColumnPos} {x : NodeColumn}, node.schemas.columnAt pos = some x →
    pos.1 = 0 ∧ ∃ column, schema[pos.2]? = some column ∧ x.name = column.1
  exists_column : ∀ {i : Nat} {column : String × ColumnType}, schema[i]? = some column →
    ∃ x, node.schemas.columnAt (0, i) = some x
  name_of_id : ∀ {pos pos' : ColumnPos} {x x' : NodeColumn},
    node.schemas.columnAt pos = some x → node.schemas.columnAt pos' = some x' → x.id = x'.id →
    x.name = x'.name

namespace ProviderSchemas

variable {schema : List (String × ColumnType)} {table : String} {node : PhysicalOpNode}

/-- A reference is resolved by its name. -/
theorem resolve (h : ProviderSchemas schema table node) {relation column id}
    (hrelation : relation ≠ "") (hresolve : node.resolveColumnID relation column = some id) :
    relation = table ∧ ∃ pos x, node.schemas.columnAt pos = some x ∧ x.name = column ∧
      x.id = id := by
  rw [PhysicalOpNode.resolveColumnID_eq] at hresolve
  rcases resolveIn_cases hrelation hresolve with
    ⟨hname, hcolumn⟩ | ⟨childIdx, producer, childId, hproducer, -⟩
  · exact ⟨hname.trans h.name, hcolumn⟩
  · rw [h.producers] at hproducer
    cases hproducer

/-- A column reference is resolved to a column of its name. -/
theorem name_of_position (h : ProviderSchemas schema table node) {relation column pos x}
    (hpos : node.schemas.position node.producers (.columnRef relation column) = some pos)
    (hx : node.schemas.columnAt pos = some x) : x.name = column := by
  have hpos : node.schemas.resolveColumnIndexByName node.producers relation column = some pos :=
    hpos
  unfold NodeSchemas.resolveColumnIndexByName at hpos
  by_cases hrelation : relation = ""
  · rw [if_pos hrelation] at hpos
    obtain ⟨x', hx', hname⟩ := NodeSchemas.columnAt_of_resolveColumnIndexByName hpos
    rw [hx] at hx'
    cases hx'
    exact hname
  · rw [if_neg hrelation] at hpos
    obtain ⟨id, hid, hpos⟩ := bind_eq_some_iff.mp hpos
    have hid : node.resolveColumnID relation column = some id := by
      rw [PhysicalOpNode.resolveColumnID_eq]
      exact hid
    obtain ⟨-, pos', x', hx', hname, hxid'⟩ := h.resolve hrelation hid
    obtain ⟨x'', hx'', hxid''⟩ := NodeSchemas.columnAt_of_resolveColumnIndexByID hpos
    rw [hx] at hx''
    cases hx''
    rw [← hname]
    exact h.name_of_id hx hx' (hxid''.trans hxid'.symm)

/-- The context of a provider is right about a row whose columns of one name agree. -/
theorem faithful (h : ProviderSchemas schema table node) {row : Row}
    (hagree : ∀ pos pos' x x', node.schemas.columnAt pos = some x →
      node.schemas.columnAt pos' = some x' → x.name = x'.name → row.get pos = row.get pos') :
    Faithful node.schemas node.producers ⟨row, node.schemas.relations row⟩ := by
  constructor
  · intro relation column id pos x hrelation hresolve hx hid
    rw [← PhysicalOpNode.resolveColumnID_eq] at hresolve
    obtain ⟨hname, pos', x', hx', hcolumn, hid'⟩ := h.resolve hrelation hresolve
    refine List.mem_map.mpr ⟨(pos, x), NodeSchemas.mem_columns.mpr hx, ?_⟩
    rw [h.name, hname, ← hcolumn, h.name_of_id hx hx' (hid.trans hid'.symm)]
  · intro pos pos' x x' hx hx' hid
    exact hagree pos pos' x x' hx hx' (h.name_of_id hx hx' hid)

end ProviderSchemas

section Built

variable {catalog : PlanCatalog} {ctx : PhysicalPlanContext} {nodes : List PhysicalOpNode}

variable {node : PhysicalOpNode} {table : String} {pos : ColumnPos}

/-- How a node of a plan was created. -/
theorem Built.initialised (built : Built catalog ctx nodes) (hnode : node ∈ nodes) :
    (∃ number ctx₀ ctx₁, Initialised catalog number ctx₀ node.op node.producers node.schemas ctx₁) ∧
      ∀ child ∈ node.producers ++ node.unions, child ∈ nodes := by
  induction built with
  | new => cases hnode
  | createOp built hproducers hunions allowed init ih =>
    rcases mem_cons.mp hnode with rfl | hnode
    · refine ⟨⟨_, _, _, initialised_of_initSchema init⟩, fun child hchild => ?_⟩
      rcases mem_append.mp hchild with hchild | hchild
      · exact mem_cons_of_mem _ (hproducers child hchild)
      · exact mem_cons_of_mem _ (hunions child hchild)
    · obtain ⟨hinit, hchildren⟩ := ih hnode
      exact ⟨hinit, fun child hchild => mem_cons_of_mem _ (hchildren child hchild)⟩

/-- The nodes below a node of a plan are nodes of the plan. -/
theorem Built.mem_of_mem_nodes (built : Built catalog ctx nodes) {other} (hnode : node ∈ nodes)
    (hother : other ∈ node.nodes) : other ∈ nodes := by
  induction built generalizing node with
  | new => cases hnode
  | createOp built hproducers hunions allowed init ih =>
    rcases mem_cons.mp hnode with rfl | hnode
    · rcases PhysicalOpNode.mem_nodes.mp hother with rfl | ⟨child, hchild, hother⟩
      · exact mem_cons_self
      · refine mem_cons_of_mem _ (ih ?_ hother)
        rcases mem_append.mp hchild with hchild | hchild
        · exact hproducers child hchild
        · exact hunions child hchild
    · exact mem_cons_of_mem _ (ih hnode hother)

theorem providerSchemas_of_columns (hnumbered : Numbered ctx nodes) (hnode : node ∈ nodes)
    {schema : List (String × ColumnType)} {getID : String → Option Nat}
    {origin : String → ColumnOrigin} {columns : List NodeColumn}
    (hcolumns : providerColumns schema getID origin = some columns)
    (horigin : ∀ {c c'}, origin c = origin c' → c = c')
    (hschemas : node.schemas = ⟨table, [columns]⟩) (hproducers : node.producers = []) :
    ProviderSchemas schema table node where
  name := by rw [hschemas]
  producers := hproducers
  column := by
    intro pos x hx
    rw [hschemas] at hx
    obtain ⟨hzero, column, hcolumn, hname, -⟩ := columnAt_providerColumns hcolumns hx
    exact ⟨hzero, column, hcolumn, hname⟩
  exists_column := by
    intro i column hcolumn
    have hlength := (Lib.forall₂_of_mapM hcolumns).length_eq
    have hlt : i < columns.length := hlength ▸ (List.getElem?_eq_some_iff.mp hcolumn).1
    rw [hschemas]
    exact ⟨columns[i], getElem?_eq_getElem hlt⟩
  name_of_id := by
    intro pos pos' x x' hx hx' hid
    have heq := (hnumbered.id_eq_iff hnode hnode hx hx').mp hid
    rw [hschemas] at hx hx'
    obtain ⟨-, column, -, hname, -, horigin'⟩ := columnAt_providerColumns hcolumns hx
    obtain ⟨-, column', -, hname', -, horigin''⟩ := columnAt_providerColumns hcolumns hx'
    rw [horigin', horigin''] at heq
    rw [hname, hname', horigin heq]

/-- The context of a table provider, and the origins of its columns. -/
theorem Built.tableProvider (built : Built catalog ctx nodes) (hnode : node ∈ nodes)
    (hop : node.op = .tableProvider table) :
    ∃ schema, catalog table = some schema ∧ ProviderSchemas schema table node ∧
      ∀ {pos : ColumnPos} {x : NodeColumn}, node.schemas.columnAt pos = some x →
        x.origin = .table table x.name := by
  obtain ⟨⟨number, ctx₀, ctx₁, hinit⟩, -⟩ := built.initialised hnode
  rw [hop] at hinit
  generalize hproducers : node.producers = producers at hinit
  generalize hschemas : node.schemas = schemas at hinit
  cases hinit with
  | tableProvider h =>
    obtain ⟨-, schema, columns, hschema, hcolumns, rfl⟩ := tableSchema_eq_some h
    refine ⟨schema, hschema, providerSchemas_of_columns (numbered_of_built built) hnode hcolumns
      (fun heq => ?_) hschemas hproducers, ?_⟩
    · cases heq
      rfl
    · intro pos x hx
      obtain ⟨-, column, -, hname, -, horigin⟩ := columnAt_providerColumns hcolumns hx
      rw [horigin, hname]

/-- The context of a request provider, and the origins of its columns. -/
theorem Built.requestProvider (built : Built catalog ctx nodes) (hnode : node ∈ nodes)
    (hop : node.op = .requestProvider table) :
    ∃ schema, catalog table = some schema ∧ ProviderSchemas schema table node ∧
      ∀ {pos : ColumnPos} {x : NodeColumn}, node.schemas.columnAt pos = some x →
        x.origin = .request table x.name := by
  obtain ⟨⟨number, ctx₀, ctx₁, hinit⟩, -⟩ := built.initialised hnode
  rw [hop] at hinit
  generalize hproducers : node.producers = producers at hinit
  generalize hschemas : node.schemas = schemas at hinit
  cases hinit with
  | requestProvider h =>
    obtain ⟨-, schema, columns, hschema, hcolumns, rfl⟩ := requestSchema_eq_some h
    refine ⟨schema, hschema, providerSchemas_of_columns (numbered_of_built built) hnode hcolumns
      (fun heq => ?_) hschemas hproducers, ?_⟩
    · cases heq
      rfl
    · intro pos x hx
      obtain ⟨-, column, -, hname, -, horigin⟩ := columnAt_providerColumns hcolumns hx
      rw [horigin, hname]

/-- The columns of a simple projection. -/
theorem Built.simpleProject (built : Built catalog ctx nodes) {input} (hnode : node ∈ nodes) {items}
    (hop : node.op = .simpleProject items) (hproducers : node.producers = [input]) :
    input ∈ nodes ∧ node.schemas.name = "" ∧
      (∀ {pos : ColumnPos} {x : NodeColumn}, node.schemas.columnAt pos = some x →
        pos.1 = 0 ∧ ∃ item, items[pos.2]? = some item ∧
          ((∃ pos' y, input.schemas.position input.producers item.expr = some pos' ∧
            input.schemas.columnAt pos' = some y ∧ x.source = some (0, y.id) ∧ x.id = y.id) ∨
          (x.source = none ∧ ∃ n k, x.origin = .node n k))) ∧
      ∀ {i : Nat} {item : ProjectItem}, items[i]? = some item → item.newIDs = 0 →
        ∃ pos' y, input.schemas.position input.producers item.expr = some pos' ∧
          input.schemas.columnAt pos' = some y := by
  obtain ⟨⟨number, ctx₀, ctx₁, hinit⟩, hchildren⟩ := built.initialised hnode
  have hinput : input ∈ nodes := by
    refine hchildren input ?_
    rw [hproducers]
    exact mem_cons_self
  rw [hop] at hinit
  rw [hproducers] at hinit
  generalize hschemas : node.schemas = schemas at hinit
  cases hinit with
  | @simpleProject _ _ columns h =>
    refine ⟨hinput, rfl, ?_, ?_⟩
    · intro pos x hx
      obtain ⟨slice, col⟩ := pos
      cases slice with
      | succ slice => cases hx
      | zero =>
        obtain ⟨item, hitem, hproject⟩ := getElem?_projectColumns h hx
        refine ⟨rfl, item, hitem, ?_⟩
        rcases projectColumn_cases hproject with
          ⟨pos', y, hpos, hy, hsource, hid, -⟩ | ⟨-, -, hsource, -, horigin⟩
        · exact .inl ⟨pos', y, hpos, hy, hsource, hid⟩
        · exact .inr ⟨hsource, _, _, horigin⟩
    · intro i item hitem hnew
      have hlt : i < columns.length :=
        length_projectColumns h ▸ (List.getElem?_eq_some_iff.mp hitem).1
      obtain ⟨item', hitem', hproject⟩ :=
        getElem?_projectColumns h (getElem?_eq_getElem hlt)
      rw [hitem] at hitem'
      cases hitem'
      rcases projectColumn_cases hproject with ⟨pos', y, hpos, hy, -⟩ | ⟨-, hnew', -⟩
      · exact ⟨pos', y, hpos, hy⟩
      · omega

/-- A column reference of a provider's items takes no new id. -/
theorem newIDs_of_position {input : NodeSchemas} {producers} {item : ProjectItem}
    (h : input.position producers item.expr = some pos) : item.newIDs = 0 := by
  obtain ⟨name, expr⟩ := item
  cases expr with
  | other type value => cases h
  | columnRef relation column => rfl
  | columnId id => rfl

/-- What the left side of a request union resolves is one of the columns that it carries. -/
theorem Built.mem_carriedColumns (built : Built catalog ctx nodes) {left right}
    (hnode : left ∈ nodes) (hsides : RequestSides left right) {relation column id y}
    (hrelation : relation ≠ "") (hresolve : left.resolveColumnID relation column = some id)
    (hy : left.schemas.columnAt pos = some y) (hid : y.id = id) :
    (relation, column, pos) ∈ left.carriedColumns := by
  cases hsides with
  | provider hleft hright =>
    obtain ⟨schema, -, hprovider, -⟩ := built.requestProvider hnode hleft
    obtain ⟨hname, pos', x, hx, hcolumn, hxid⟩ := hprovider.resolve hrelation hresolve
    cases left with
    | mk number op schemas producers unions =>
      cases hleft
      refine List.mem_map.mpr ⟨(pos, y), NodeSchemas.mem_columns.mpr hy, ?_⟩
      have hy_name : y.name = column :=
        (hprovider.name_of_id hy hx (hid.trans hxid.symm)).trans hcolumn
      rw [hname, ← hprovider.name, hy_name]
      rfl
  | @simpleProject request provider items table hleft hinput hright hinput' hrequest hprovider =>
    obtain ⟨hmem, hname, hcolumns, -⟩ := built.simpleProject hnode hleft hinput
    obtain ⟨schema, -, hschemas, horigin⟩ := built.requestProvider hmem hrequest
    rw [PhysicalOpNode.resolveColumnID_eq] at hresolve
    rcases resolveIn_cases hrelation hresolve with
      ⟨hctx, -⟩ | ⟨childIdx, producer, childId, hproducer, hchild, hmap⟩
    · exact absurd (hctx.trans hname) hrelation
    · rw [hinput] at hproducer
      obtain ⟨hidx, heq⟩ := List.getElem?_eq_some_iff.mp hproducer
      obtain rfl : childIdx = 0 := Nat.lt_one_iff.mp hidx
      cases heq
      -- the projection keeps the id of the request column
      have hkept : id = childId := by
        unfold NodeSchemas.mapColumnID at hmap
        by_cases hhas : left.schemas.hasID childId = true
        · rw [if_pos hhas] at hmap
          exact (Option.some.inj hmap).symm
        · rw [if_neg hhas] at hmap
          obtain ⟨pos', x', hx', hsource', -⟩ := NodeSchemas.columnAt_of_childSource hmap
          obtain ⟨-, item, -, ⟨q, z, -, -, hsource, hxid⟩ | ⟨hsource, -⟩⟩ := hcolumns hx'
          · rw [hsource'] at hsource
            obtain ⟨-, hcid⟩ := Prod.mk.inj (Option.some.inj hsource)
            exact absurd (NodeSchemas.hasID_iff.mpr ⟨pos', x', hx', hxid.trans hcid.symm⟩) hhas
          · rw [hsource'] at hsource
            cases hsource
      obtain ⟨hname', pos', x, hx, hcolumn, hxid⟩ := hschemas.resolve hrelation hchild
      obtain ⟨hzero, item, hitem, ⟨q, z, hq, hz, -, hyid⟩ | ⟨-, n, k, hnew⟩⟩ := hcolumns hy
      · have hz_name : z.name = column :=
          (hschemas.name_of_id hz hx (by omega)).trans hcolumn
        cases left with
        | mk number op schemas producers unions =>
          cases hleft
          cases hinput
          refine mem_filterMap.mpr ⟨(item, pos.2),
            mem_zipIdx_iff_getElem?.mpr hitem, ?_⟩
          rw [hq, bind_some, hz, map_some, hschemas.name, hz_name, ← hname',
            ← hzero]
      · -- a computed column has an id of its own
        have heq := ((numbered_of_built built).id_eq_iff hnode hmem hy hx).mp (by omega)
        rw [hnew, horigin hx] at heq
        cases heq

/-- The request and the table resolve an expression to columns of one name. -/
theorem Built.name_eq_of_position (built : Built catalog ctx nodes) {request provider}
    (hmem : request ∈ nodes) (hmem' : provider ∈ nodes)
    (hrequest : request.op = .requestProvider table)
    (hprovider : provider.op = .tableProvider table) {expr q q' x y}
    (hq : request.schemas.position request.producers expr = some q)
    (hq' : provider.schemas.position provider.producers expr = some q')
    (hx : request.schemas.columnAt q = some x) (hy : provider.schemas.columnAt q' = some y) :
    y.name = x.name := by
  obtain ⟨schema, -, hrequestSchemas, horigin⟩ := built.requestProvider hmem hrequest
  obtain ⟨schema', -, htableSchemas, horigin'⟩ := built.tableProvider hmem' hprovider
  cases expr with
  | other type value => cases hq
  | columnRef relation column =>
    rw [htableSchemas.name_of_position hq' hy, hrequestSchemas.name_of_position hq hx]
  | columnId id =>
    -- no id is one of the request and of the table
    obtain ⟨x', hx', hid⟩ := NodeSchemas.columnAt_of_resolveColumnIndexByID hq
    obtain ⟨y', hy', hid'⟩ := NodeSchemas.columnAt_of_resolveColumnIndexByID hq'
    rw [hx] at hx'
    cases hx'
    rw [hy] at hy'
    cases hy'
    have heq := ((numbered_of_built built).id_eq_iff hmem hmem' hx hy).mp (hid.trans hid'.symm)
    rw [horigin hx, horigin' hy] at heq
    cases heq

/-- The columns that the left side carries are where the rows of the table have them. -/
theorem Built.mem_relations_of_carried (built : Built catalog ctx nodes)
    {left right : PhysicalOpNode} (hleft : left ∈ nodes) (hright : right ∈ nodes)
    (hsides : RequestSides left right) (db : Database) {t} (ht : t ∈ right.run db)
    {relation column : String} (hcarried : (relation, column, pos) ∈ left.carriedColumns) :
    (relation, column, t.row.get pos) ∈ t.relations := by
  cases hsides with
  | @provider table hop hop' =>
    obtain ⟨schema, hschema, hrequest, -⟩ := built.requestProvider hleft hop
    obtain ⟨schema', hschema', htable, -⟩ := built.tableProvider hright hop'
    rw [hschema] at hschema'
    cases hschema'
    cases left with
    | mk number op schemas producers unions =>
    cases right with
    | mk number' op' schemas' producers' unions' =>
      cases hop
      cases hop'
      obtain ⟨⟨pos', x⟩, hmem, heq⟩ := List.mem_map.mp hcarried
      cases heq
      obtain ⟨hzero, c, hc, hname⟩ := hrequest.column (NodeSchemas.mem_columns.mp hmem)
      obtain ⟨row, -, rfl⟩ := List.mem_map.mp ht
      obtain ⟨y, hy⟩ := htable.exists_column hc
      obtain ⟨-, c', hc', hname'⟩ := htable.column hy
      rw [hc] at hc'
      cases hc'
      obtain ⟨slice, col⟩ := pos'
      obtain rfl : slice = 0 := hzero
      refine List.mem_map.mpr ⟨((0, col), y), NodeSchemas.mem_columns.mpr hy, ?_⟩
      rw [hname, hname', show schemas'.name = table from htable.name,
        show schemas.name = table from hrequest.name]
  | @simpleProject request provider items table hop hinput hop' hinput' hrequest hprovider =>
    obtain ⟨hmem, -⟩ := built.simpleProject hleft hop hinput
    obtain ⟨hmem', -, -, hitems⟩ := built.simpleProject hright hop' hinput'
    obtain ⟨schema, -, hrequestSchemas, -⟩ := built.requestProvider hmem hrequest
    obtain ⟨schema', -, htableSchemas, -⟩ := built.tableProvider hmem' hprovider
    cases left with
    | mk number op schemas producers unions =>
    cases right with
    | mk number' op' schemas' producers' unions' =>
      cases hop
      cases hop'
      cases hinput
      cases hinput'
      obtain ⟨⟨item, i⟩, hitem, hcarried⟩ := mem_filterMap.mp hcarried
      obtain ⟨x, hfound, heq⟩ := map_eq_some_iff.mp hcarried
      obtain ⟨q, hq, hx⟩ := bind_eq_some_iff.mp hfound
      cases heq
      have hitem := mem_zipIdx_iff_getElem?.mp hitem
      obtain ⟨q', y, hq', hy⟩ := hitems hitem (newIDs_of_position hq)
      obtain ⟨t₀, ht₀, rfl⟩ := List.mem_map.mp ht
      have hname : y.name = x.name :=
        built.name_eq_of_position hmem hmem' hrequest hprovider hq hq' hx hy
      cases provider with
      | mk number'' op'' schemas'' producers'' unions'' =>
        cases hprovider
        obtain ⟨row, -, rfl⟩ := List.mem_map.mp ht₀
        refine List.mem_map.mpr ⟨(q', y), NodeSchemas.mem_columns.mpr hy, ?_⟩
        rw [get_simpleProjectRow hitem hq' row, hname, hrequestSchemas.name,
          show schemas''.name = table from htableSchemas.name]

end Built

end HybridSE.Vm
