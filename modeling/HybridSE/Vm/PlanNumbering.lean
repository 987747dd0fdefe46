import HybridSE.Lib.MapOption
import HybridSE.Vm.ColumnIds

/-!
# HybridSE.Vm.PlanNumbering

The ids of a plan are one-to-one with the origins of its columns.

`Registered` pairs an id with its origin: the ids of a table are those of the plan context,
the ids of a node those of its new columns. Whatever `CreateOp` adds has an id that is not in
use and an origin that is new, so that the pairing stays one-to-one.
-/

namespace HybridSE.Vm

open HybridSE.Codec List Option

/-- A one-to-one relation stays one-to-one if pairs of new elements are added. -/
theorem biUnique_extend {α β : Type} {R R' N : α → β → Prop} (hR : Relator.BiUnique R)
    (hN : Relator.BiUnique N) (hcases : ∀ a b, R' a b → R a b ∨ N a b)
    (hleft : ∀ {a b b'}, R a b → N a b' → False) (hright : ∀ {a a' b}, R a b → N a' b → False) :
    Relator.BiUnique R' := by
  constructor
  · intro a a' b hab hab'
    rcases hcases a b hab with h | h <;> rcases hcases a' b hab' with h' | h'
    · exact hR.1 h h'
    · exact (hright h h').elim
    · exact (hright h' h).elim
    · exact hN.1 h h'
  · intro a b b' hab hab'
    rcases hcases a b hab with h | h <;> rcases hcases a b' hab' with h' | h'
    · exact hR.2 h h'
    · exact (hleft h h').elim
    · exact (hleft h' h).elim
    · exact hN.2 h h'

/-- The id of an origin, once a plan context and its nodes have it. -/
def PhysicalPlanContext.Registered (ctx : PhysicalPlanContext) (nodes : List PhysicalOpNode)
    (id : Nat) : ColumnOrigin → Prop
  | .table table column => ctx.getSourceID table column = some id
  | .request table column => ctx.getRequestSourceID table column = some id
  | .node node index =>
    ∃ n ∈ nodes, ∃ pos x, n.schemas.columnAt pos = some x ∧ x.id = id ∧
      x.origin = .node node index

/-- The numbering of the columns of the nodes that were created with a plan context. -/
structure Numbered (ctx : PhysicalPlanContext) (nodes : List PhysicalOpNode) : Prop where
  biUnique : Relator.BiUnique (ctx.Registered nodes)
  lt : ∀ {id : Nat} {origin : ColumnOrigin}, ctx.Registered nodes id origin →
    id < ctx.columnIdCounter
  node_lt : ∀ {id node index : Nat}, ctx.Registered nodes id (.node node index) →
    node < nodes.length
  column : ∀ {node : PhysicalOpNode}, node ∈ nodes → ∀ {pos : ColumnPos} {x : NodeColumn},
    node.schemas.columnAt pos = some x → ctx.Registered nodes x.id x.origin
  /-- Both ids of a table are made together. -/
  lookup_request : ∀ {table : String}, ctx.tableColumnIdMap.lookup table = none →
    ctx.requestColumnIdMap.lookup table = none
  slices_pos : ∀ {node : PhysicalOpNode}, node ∈ nodes → 0 < node.schemas.slices

theorem numbered_new : Numbered .new [] := by
  have hnone : ∀ {id : Nat} {origin : ColumnOrigin},
      ¬ PhysicalPlanContext.new.Registered [] id origin := by
    intro id origin h
    cases origin with
    | table table column => cases h
    | request table column => cases h
    | node node index =>
      obtain ⟨n, hn, -⟩ := h
      cases hn
  exact
    { biUnique := ⟨fun _ _ _ h => (hnone h).elim, fun _ _ _ h => (hnone h).elim⟩
      lt := fun h => (hnone h).elim
      node_lt := fun h => (hnone h).elim
      column := fun h => nomatch h
      lookup_request := fun _ => rfl
      slices_pos := fun h => nomatch h }

namespace Numbered

variable {ctx ctx' : PhysicalPlanContext} {nodes : List PhysicalOpNode}

/-- Two columns have the same id exactly if they have the same origin. -/
theorem id_eq_iff (h : Numbered ctx nodes) {n n'} (hn : n ∈ nodes) (hn' : n' ∈ nodes)
    {pos pos' x x'} (hx : n.schemas.columnAt pos = some x)
    (hx' : n'.schemas.columnAt pos' = some x') : x.id = x'.id ↔ x.origin = x'.origin := by
  have hreg := h.column hn hx
  have hreg' := h.column hn' hx'
  constructor
  · intro hid
    rw [← hid] at hreg'
    exact h.biUnique.2 hreg hreg'
  · intro horigin
    rw [← horigin] at hreg'
    exact h.biUnique.1 hreg hreg'

theorem idsBelow (h : Numbered ctx nodes) : IdsBelow ctx.columnIdCounter nodes :=
  fun _ hn _ _ hx => h.lt (h.column hn hx)

/-- A node without a provider's columns: what it adds is new. -/
theorem derive (h : Numbered ctx nodes) {count : Nat} {op : PhysicalOp} {schemas : NodeSchemas}
    {producers unions : List PhysicalOpNode} {copied : ColumnPos → Option (Nat × ColumnPos)}
    (hproducers : ∀ producer ∈ producers, producer ∈ nodes)
    (hderived : Derived nodes.length ctx.columnIdCounter (ctx.columnIdCounter + count) producers
      schemas copied) (hslices : 0 < schemas.slices) :
    Numbered (ctx.advance count) (.mk nodes.length op schemas producers unions :: nodes) := by
  have hnew : ∀ {pos : ColumnPos} {x : NodeColumn}, schemas.columnAt pos = some x →
      ctx.Registered nodes x.id x.origin ∨
      ∃ index, x.origin = .node nodes.length index ∧ x.id = ctx.columnIdCounter + index ∧
        x.id < ctx.columnIdCounter + count := by
    intro pos x hx
    cases hderived.columnFrom hx with
    | passed hcopied hproducer hcolumn hsource hid horigin =>
      rw [hid, horigin]
      exact .inl (h.column (hproducers _ (mem_of_getElem? hproducer)) hcolumn)
    | renewed hcopied hproducer hcolumn hsource hid horigin =>
      exact .inr ⟨_, horigin, hid, hderived.lt_stop hx (by omega)⟩
    | computed hcopied hsource hid horigin =>
      exact .inr ⟨_, horigin, hid, hderived.lt_stop hx (by omega)⟩
  -- a registered pair is an old one, or a new column of the node
  have hcases : ∀ {id : Nat} {origin : ColumnOrigin},
      (ctx.advance count).Registered (.mk nodes.length op schemas producers unions :: nodes) id
        origin → ctx.Registered nodes id origin ∨
      ∃ index, origin = .node nodes.length index ∧ id = ctx.columnIdCounter + index ∧
        id < ctx.columnIdCounter + count := by
    intro id origin hreg
    cases origin with
    | table table column => exact .inl hreg
    | request table column => exact .inl hreg
    | node node index =>
      obtain ⟨n, hn, pos, x, hx, rfl, horigin⟩ := hreg
      rcases mem_cons.mp hn with rfl | hn
      · rw [← horigin]
        exact hnew hx
      · exact .inl ⟨n, hn, pos, x, hx, rfl, horigin⟩
  have hmono : ∀ {id : Nat} {origin : ColumnOrigin}, ctx.Registered nodes id origin →
      (ctx.advance count).Registered (.mk nodes.length op schemas producers unions :: nodes) id
        origin := by
    intro id origin hreg
    cases origin with
    | table table column => exact hreg
    | request table column => exact hreg
    | node node index =>
      obtain ⟨n, hn, rest⟩ := hreg
      exact ⟨n, mem_cons_of_mem _ hn, rest⟩
  refine
    { biUnique := ?_
      lt := ?_
      node_lt := ?_
      column := ?_
      lookup_request := h.lookup_request
      slices_pos := ?_ }
  · refine biUnique_extend (N := fun id origin => ∃ index, origin = .node nodes.length index ∧
      id = ctx.columnIdCounter + index) h.biUnique ⟨?_, ?_⟩ ?_ ?_ ?_
    · rintro a a' _ ⟨index, rfl, rfl⟩ ⟨index', heq, rfl⟩
      cases heq
      rfl
    · rintro _ b b' ⟨index, rfl, rfl⟩ ⟨index', rfl, hid⟩
      rw [Nat.add_left_cancel hid]
    · intro id origin hreg
      rcases hcases hreg with hreg | ⟨index, horigin, hid, -⟩
      · exact .inl hreg
      · exact .inr ⟨index, horigin, hid⟩
    · rintro id origin _ hreg ⟨index, -, rfl⟩
      exact absurd (h.lt hreg) (Nat.not_lt.mpr (Nat.le_add_right _ _))
    · rintro id _ _ hreg ⟨index, rfl, -⟩
      exact absurd (h.node_lt hreg) (Nat.lt_irrefl _)
  · intro id origin hreg
    rcases hcases hreg with hreg | ⟨index, -, -, hlt⟩
    · exact Nat.lt_of_lt_of_le (h.lt hreg) (Nat.le_add_right _ _)
    · exact hlt
  · intro id node index hreg
    rcases hcases hreg with hreg | ⟨index', horigin, -⟩
    · exact Nat.lt_succ_of_lt (h.node_lt hreg)
    · cases horigin
      exact Nat.lt_succ_self _
  · intro n hn pos x hx
    rcases mem_cons.mp hn with rfl | hn
    · rcases hnew hx with hreg | ⟨index, horigin, -, -⟩
      · exact hmono hreg
      · rw [horigin]
        exact ⟨_, mem_cons_self, pos, x, hx, rfl, horigin⟩
    · exact hmono (h.column hn hx)
  · intro n hn
    rcases mem_cons.mp hn with rfl | hn
    · exact hslices
    · exact h.slices_pos hn

/-- `InitializeSourceIdMappings` adds the ids of one table, or nothing. -/
theorem initializeSourceIdMappings (h : Numbered ctx nodes) {catalog} {table : String}
    (hinit : ctx.initializeSourceIdMappings catalog table = some ctx') : Numbered ctx' nodes := by
  unfold PhysicalPlanContext.initializeSourceIdMappings at hinit
  by_cases hinitialised : (ctx.tableColumnIdMap.lookup table).isSome = true
  · rw [if_pos hinitialised] at hinit
    cases hinit
    exact h
  rw [if_neg hinitialised] at hinit
  obtain ⟨schema, -, rfl⟩ := map_eq_some_iff.mp hinit
  have hnone : ctx.tableColumnIdMap.lookup table = none :=
    not_isSome_iff_eq_none.mp hinitialised
  have hrequest := h.lookup_request hnone
  -- the new pairs
  let N : Nat → ColumnOrigin → Prop := fun id origin =>
    (∃ column, origin = .table table column ∧
      (PhysicalPlanContext.columnDict ctx.columnIdCounter schema).lookup column = some id) ∨
    ∃ column, origin = .request table column ∧
      (PhysicalPlanContext.columnDict (ctx.columnIdCounter + schema.length) schema).lookup column =
        some id
  have hrange : ∀ {id : Nat} {origin : ColumnOrigin}, N id origin →
      ctx.columnIdCounter ≤ id ∧ id < ctx.columnIdCounter + schema.length + schema.length := by
    rintro id origin (⟨column, -, hlookup⟩ | ⟨column, -, hlookup⟩)
    · have := lookup_columnDict hlookup
      omega
    · have := lookup_columnDict hlookup
      omega
  have hcases : ∀ {id : Nat} {origin : ColumnOrigin},
      PhysicalPlanContext.Registered
        { columnIdCounter := ctx.columnIdCounter + schema.length + schema.length
          tableColumnIdMap :=
            (table, PhysicalPlanContext.columnDict ctx.columnIdCounter schema) ::
              ctx.tableColumnIdMap
          requestColumnIdMap :=
            (table, PhysicalPlanContext.columnDict (ctx.columnIdCounter + schema.length) schema) ::
              ctx.requestColumnIdMap } nodes id origin ↔
      ctx.Registered nodes id origin ∨ N id origin := by
    intro id origin
    cases origin with
    | table table' column =>
      by_cases htable : table' = table
      · subst htable
        simp [PhysicalPlanContext.Registered, PhysicalPlanContext.getSourceID, N, hnone]
      · have hne : (table' == table) = false := beq_false_of_ne htable
        simp [PhysicalPlanContext.Registered, PhysicalPlanContext.getSourceID, N,
          lookup_cons, hne, htable]
    | request table' column =>
      by_cases htable : table' = table
      · subst htable
        simp [PhysicalPlanContext.Registered, PhysicalPlanContext.getRequestSourceID, N,
          hrequest]
      · have hne : (table' == table) = false := beq_false_of_ne htable
        simp [PhysicalPlanContext.Registered, PhysicalPlanContext.getRequestSourceID, N,
          lookup_cons, hne, htable]
    | node node index => simp [PhysicalPlanContext.Registered, N]
  refine
    { biUnique := ?_
      lt := ?_
      node_lt := ?_
      column := fun hn _ _ hx => hcases.mpr (.inl (h.column hn hx))
      lookup_request := ?_
      slices_pos := h.slices_pos }
  · refine biUnique_extend (N := N) h.biUnique ⟨?_, ?_⟩ (fun _ _ => hcases.mp) ?_ ?_
    · rintro a a' origin (⟨column, rfl, ha⟩ | ⟨column, rfl, ha⟩)
        (⟨column', heq, ha'⟩ | ⟨column', heq, ha'⟩) <;> cases heq
      · exact Option.some.inj (ha.symm.trans ha')
      · exact Option.some.inj (ha.symm.trans ha')
    · rintro id origin origin' (⟨column, rfl, ha⟩ | ⟨column, rfl, ha⟩)
        (⟨column', rfl, ha'⟩ | ⟨column', rfl, ha'⟩)
      · rw [eq_of_lookup_columnDict ha ha']
      · have h₁ := lookup_columnDict ha
        have h₂ := lookup_columnDict ha'
        omega
      · have h₁ := lookup_columnDict ha
        have h₂ := lookup_columnDict ha'
        omega
      · rw [eq_of_lookup_columnDict ha ha']
    · intro id origin origin' hreg hN
      exact absurd (h.lt hreg) (Nat.not_lt.mpr (hrange hN).1)
    · rintro id id' origin hreg (⟨column, rfl, -⟩ | ⟨column, rfl, -⟩)
      · simp [PhysicalPlanContext.Registered, PhysicalPlanContext.getSourceID, hnone] at hreg
      · simp [PhysicalPlanContext.Registered, PhysicalPlanContext.getRequestSourceID,
          hrequest] at hreg
  · intro id origin hreg
    show id < ctx.columnIdCounter + schema.length + schema.length
    rcases hcases.mp hreg with hreg | hN
    · have := h.lt hreg
      omega
    · exact (hrange hN).2
  · intro id node index hreg
    rcases hcases.mp hreg with hreg | ⟨column, heq, -⟩ | ⟨column, heq, -⟩
    · exact h.node_lt hreg
    · cases heq
    · cases heq
  · intro table' hlookup
    rw [lookup_cons] at hlookup ⊢
    by_cases htable : (table' == table) = true
    · rw [htable] at hlookup
      cases hlookup
    · rw [Bool.not_eq_true] at htable
      rw [htable] at hlookup ⊢
      exact h.lookup_request hlookup

/-- A provider's columns have the ids of the plan context. -/
theorem provide (h : Numbered ctx nodes) {op : PhysicalOp} {schemas : NodeSchemas}
    {producers unions : List PhysicalOpNode}
    (hcolumns : ∀ {pos : ColumnPos} {x : NodeColumn}, schemas.columnAt pos = some x →
      (∀ node index, x.origin ≠ .node node index) ∧ ctx.Registered nodes x.id x.origin)
    (hslices : 0 < schemas.slices) :
    Numbered ctx (.mk nodes.length op schemas producers unions :: nodes) := by
  have hcases : ∀ {id : Nat} {origin : ColumnOrigin},
      ctx.Registered (.mk nodes.length op schemas producers unions :: nodes) id origin ↔
        ctx.Registered nodes id origin := by
    intro id origin
    cases origin with
    | table table column => exact Iff.rfl
    | request table column => exact Iff.rfl
    | node node index =>
      constructor
      · rintro ⟨n, hn, pos, x, hx, hid, horigin⟩
        rcases mem_cons.mp hn with rfl | hn
        · exact absurd horigin ((hcolumns hx).1 node index)
        · exact ⟨n, hn, pos, x, hx, hid, horigin⟩
      · rintro ⟨n, hn, rest⟩
        exact ⟨n, mem_cons_of_mem _ hn, rest⟩
  refine
    { biUnique := ⟨fun _ _ _ ha ha' => h.biUnique.1 (hcases.mp ha) (hcases.mp ha'),
        fun _ _ _ ha ha' => h.biUnique.2 (hcases.mp ha) (hcases.mp ha')⟩
      lt := fun hreg => h.lt (hcases.mp hreg)
      node_lt := fun hreg => Nat.lt_succ_of_lt (h.node_lt (hcases.mp hreg))
      column := ?_
      lookup_request := h.lookup_request
      slices_pos := ?_ }
  · intro n hn pos x hx
    rcases mem_cons.mp hn with rfl | hn
    · exact hcases.mpr (hcolumns hx).2
    · exact hcases.mpr (h.column hn hx)
  · intro n hn
    rcases mem_cons.mp hn with rfl | hn
    · exact hslices
    · exact h.slices_pos hn

end Numbered

/-! ### Providers -/

/-- A column of a provider. -/
theorem columnAt_providerColumns {schema getID origin columns}
    (h : providerColumns schema getID origin = some columns) {name pos x}
    (hx : (NodeSchemas.mk name [columns]).columnAt pos = some x) :
    pos.1 = 0 ∧ ∃ column, schema[pos.2]? = some column ∧ x.name = column.1 ∧
      getID column.1 = some x.id ∧ x.origin = origin column.1 := by
  obtain ⟨slice, col⟩ := pos
  cases slice with
  | succ slice => cases hx
  | zero =>
    obtain ⟨column, hcolumn, hmap⟩ := Lib.getElem?_of_forall₂ (Lib.forall₂_of_mapM h) hx
    obtain ⟨id, hid, rfl⟩ := map_eq_some_iff.mp hmap
    exact ⟨rfl, column, hcolumn, rfl, hid, rfl⟩

variable {catalog : PlanCatalog} {ctx ctx' : PhysicalPlanContext} {schemas : NodeSchemas}

/-- The columns of a table provider and the plan context after it. -/
theorem tableSchema_eq_some {table} (h : tableSchema catalog table ctx = some (schemas, ctx')) :
    ctx.initializeSourceIdMappings catalog table = some ctx' ∧ ∃ schema columns,
      catalog table = some schema ∧
      providerColumns schema (ctx'.getSourceID table) (.table table) = some columns ∧
      schemas = ⟨table, [columns]⟩ := by
  obtain ⟨ctx', hctx, h⟩ := bind_eq_some_iff.mp h
  obtain ⟨schema, hschema, h⟩ := bind_eq_some_iff.mp h
  obtain ⟨columns, hcolumns, heq⟩ := map_eq_some_iff.mp h
  cases heq
  exact ⟨hctx, schema, columns, hschema, hcolumns, rfl⟩

/-- The columns of a request provider and the plan context after it. -/
theorem requestSchema_eq_some {table} (h : requestSchema catalog table ctx = some (schemas, ctx')) :
    ctx.initializeSourceIdMappings catalog table = some ctx' ∧ ∃ schema columns,
      catalog table = some schema ∧
      providerColumns schema (ctx'.getRequestSourceID table) (.request table) = some columns ∧
      schemas = ⟨table, [columns]⟩ := by
  obtain ⟨ctx', hctx, h⟩ := bind_eq_some_iff.mp h
  obtain ⟨schema, hschema, h⟩ := bind_eq_some_iff.mp h
  obtain ⟨columns, hcolumns, heq⟩ := map_eq_some_iff.mp h
  cases heq
  exact ⟨hctx, schema, columns, hschema, hcolumns, rfl⟩

/-- Every context has a slice. -/
theorem Initialised.slices_pos {node op producers}
    (h : Initialised catalog node ctx op producers schemas ctx')
    (hproducers : ∀ producer ∈ producers, 0 < producer.schemas.slices) : 0 < schemas.slices := by
  unfold NodeSchemas.slices at hproducers ⊢
  cases h with
  | tableProvider h =>
    obtain ⟨-, schema, columns, -, -, rfl⟩ := tableSchema_eq_some h
    exact Nat.zero_lt_one
  | requestProvider h =>
    obtain ⟨-, schema, columns, -, -, rfl⟩ := requestSchema_eq_some h
    exact Nat.zero_lt_one
  | select keep input =>
    rw [length_mergeColumns]
    exact hproducers input mem_cons_self
  | rename name input =>
    rw [length_mergeColumns]
    exact hproducers input mem_cons_self
  | constProject => exact Nat.zero_lt_one
  | simpleProject => exact Nat.zero_lt_one
  | project => exact Nat.zero_lt_one
  | windowAggregation => exact Nat.succ_pos _
  | join type tested pairs left right =>
    have hleft : 0 < left.schemas.slices := hproducers left mem_cons_self
    cases type with
    | last =>
      rw [PhysicalOpNode.joinColumns, length_append, length_mergeColumns]
      omega
    | concat =>
      rw [PhysicalOpNode.joinColumns, length_append, length_mergeColumns]
      omega
  | union left right =>
    rw [length_mergeColumnsWithNewID]
    exact hproducers left mem_cons_self
  | requestUnion window left right =>
    rw [length_mergeColumnsWithNewID]
    exact hproducers left mem_cons_self

/-- A node that is no provider only takes new ids. -/
theorem Initialised.eq_advance {node op producers}
    (h : Initialised catalog node ctx op producers schemas ctx') (hop : ¬ op.IsProvider) :
    ∃ count, ctx' = ctx.advance count := by
  cases h with
  | tableProvider => exact absurd trivial hop
  | requestProvider => exact absurd trivial hop
  | select => exact ⟨0, rfl⟩
  | rename => exact ⟨0, rfl⟩
  | constProject => exact ⟨_, rfl⟩
  | simpleProject => exact ⟨_, rfl⟩
  | project => exact ⟨_, rfl⟩
  | windowAggregation => exact ⟨_, rfl⟩
  | join => exact ⟨_, rfl⟩
  | union => exact ⟨_, rfl⟩
  | requestUnion => exact ⟨_, rfl⟩

/-- What `CreateOp` has made is numbered. -/
theorem numbered_of_built {nodes} (h : Built catalog ctx nodes) : Numbered ctx nodes := by
  induction h with
  | new => exact numbered_new
  | @createOp ctx ctx' nodes producers unions op schemas built hproducers hunions allowed init ih =>
    have hinit := initialised_of_initSchema init
    have hslices : 0 < schemas.slices :=
      hinit.slices_pos fun producer hmem => ih.slices_pos (hproducers producer hmem)
    by_cases hop : op.IsProvider
    · cases hinit with
      | tableProvider h =>
        obtain ⟨hctx, schema, columns, -, hcolumns, rfl⟩ := tableSchema_eq_some h
        refine (ih.initializeSourceIdMappings hctx).provide (fun hx => ?_) hslices
        obtain ⟨-, column, -, -, hid, horigin⟩ := columnAt_providerColumns hcolumns hx
        rw [horigin]
        exact ⟨fun _ _ => nofun, hid⟩
      | requestProvider h =>
        obtain ⟨hctx, schema, columns, -, hcolumns, rfl⟩ := requestSchema_eq_some h
        refine (ih.initializeSourceIdMappings hctx).provide (fun hx => ?_) hslices
        obtain ⟨-, column, -, -, hid, horigin⟩ := columnAt_providerColumns hcolumns hx
        rw [horigin]
        exact ⟨fun _ _ => nofun, hid⟩
      | _ => exact hop.elim
    · have hderived := hinit.derived hop (idsBelow_of_mem_nodes hproducers ih.idsBelow)
      obtain ⟨count, rfl⟩ := hinit.eq_advance hop
      exact ih.derive hproducers hderived hslices

end HybridSE.Vm
