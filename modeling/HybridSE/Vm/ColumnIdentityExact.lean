import HybridSE.Vm.ColumnIdentity

/-!
# HybridSE.Vm.ColumnIdentityExact

The contexts of a plan are right about its rows exactly if the rows that meet agree.

By induction over the creation of the nodes, one case for each operator: the context of the
new node is right about a row if the contexts of its producers are right about the rows it was
made from. Only the joins need the condition.
-/

namespace HybridSE.Vm

open HybridSE.Codec List Option

section Rows

variable {db : Database}

/-- The pairs of a join, with its rows. -/
theorem exists_of_mem_joinedPairs {node left right : PhysicalOpNode}
    (hproducers : node.producers = [left, right]) {pair} (hpair : pair ∈ node.joinedPairs db) :
    ∃ i j, pair = (.pick left (left.run db) i, .pick right (right.run db) j) := by
  cases node with
  | mk id op schemas producers unions =>
    cases hproducers
    cases op with
    | join type tested pairs =>
      rcases mem_append.mp hpair with hpair | hpair
      · obtain ⟨ij, -, rfl⟩ := List.mem_map.mp hpair
        exact ⟨_, _, rfl⟩
      · obtain ⟨ij, -, rfl⟩ := List.mem_map.mp hpair
        exact ⟨_, _, rfl⟩
    | _ => cases hpair

end Rows

section Step

variable {catalog : PlanCatalog} {ctx : PhysicalPlanContext} {nodes : List PhysicalOpNode}
  {db : Database}

variable {node : PhysicalOpNode}

/-- Two rows that a join brings together agree on the columns of one id. -/
theorem PhysicalOpNode.RowsAgree.get_eq {left right} (hagree : node.RowsAgree db)
    (hnumbered : Numbered ctx nodes) (hleft : left ∈ nodes) (hright : right ∈ nodes)
    (hproducers : node.producers = [left, right]) {pair} (hpair : pair ∈ node.joinedPairs db)
    {pos pos' x y} (hx : left.schemas.columnAt pos = some x)
    (hy : right.schemas.columnAt pos' = some y) (hid : x.id = y.id) :
    pair.1.row.get pos = pair.2.row.get pos' :=
  hagree.2 left right hproducers pair hpair pos pos' x y hx hy
    ((hnumbered.id_eq_iff hleft hright hx hy).mp hid)

theorem faithful_project {input : PhysicalOpNode} {node start stop : Nat}
    {items : List ProjectItem} {columns : List NodeColumn}
    (hderived : Derived node start stop [input] ⟨"", [columns]⟩
      fun pos => itemFrom input items pos)
    (hbelow : IdsBelow start [input]) {t₀ : TracedRow} {row : Row}
    (hrow : Faithful input.schemas input.producers t₀)
    (hget : ∀ {i : Nat} {item : ProjectItem} {pos : ColumnPos}, items[i]? = some item →
      input.schemas.position input.producers item.expr = some pos →
      row.get (0, i) = t₀.row.get pos) :
    Faithful ⟨"", [columns]⟩ [input] ⟨row, t₀.relations⟩ := by
  refine hderived.faithful_of_copy hbelow (fun h => absurd rfl h) hrow (List.Subset.refl _) ?_
  intro pos q x hx hcopied
  obtain ⟨slice, col⟩ := pos
  cases slice with
  | succ slice => cases hx
  | zero =>
    obtain ⟨item, hitem, hfrom⟩ := bind_eq_some_iff.mp hcopied
    obtain ⟨pos, hpos, heq⟩ := map_eq_some_iff.mp hfrom
    cases heq
    exact hget hitem hpos

/-- The context of a new node is right about the rows of the node, if those of its producers
are right about theirs. -/
theorem faithful_createOp {ctx' : PhysicalPlanContext} {producers unions : List PhysicalOpNode}
    {op : PhysicalOp} {schemas : NodeSchemas} (built : Built catalog ctx nodes)
    (hproducers : ∀ producer ∈ producers, producer ∈ nodes)
    (hunions : ∀ union ∈ unions, union ∈ nodes) (allowed : op.Allowed producers unions)
    (init : initSchema catalog nodes.length op producers ctx = some (schemas, ctx'))
    (hagree : (PhysicalOpNode.mk nodes.length op schemas producers unions).RowsAgree db)
    (hfaithful : ∀ producer ∈ producers, ∀ t ∈ producer.run db,
      Faithful producer.schemas producer.producers t)
    {t : TracedRow} (ht : t ∈ (PhysicalOpNode.mk nodes.length op schemas producers unions).run db) :
    Faithful schemas producers t := by
  have hnumbered := numbered_of_built built
  have hbelow := idsBelow_of_mem_nodes hproducers hnumbered.idsBelow
  have built' := Built.createOp built hproducers hunions allowed init
  have hinit := initialised_of_initSchema init
  have hderived := fun hop => hinit.derived hop hbelow
  cases hinit with
  | tableProvider h =>
    obtain ⟨schema, -, hprovider, -⟩ := built'.tableProvider mem_cons_self rfl
    obtain ⟨row, hrow, rfl⟩ := List.mem_map.mp ht
    exact hprovider.faithful fun pos pos' x x' hx hx' hname =>
      hagree.1 trivial _ ht pos pos' x x' hx hx' hname
  | requestProvider h =>
    obtain ⟨schema, -, hprovider, -⟩ := built'.requestProvider mem_cons_self rfl
    cases mem_singleton.mp ht
    exact hprovider.faithful fun pos pos' x x' hx hx' hname =>
      hagree.1 trivial _ ht pos pos' x x' hx hx' hname
  | select keep input =>
    obtain ⟨i, -, hi⟩ := mem_filterMap.mp ht
    have hrow := hfaithful input mem_cons_self t (mem_of_getElem? hi)
    refine (hderived id).faithful_of_copy hbelow (fun h => absurd rfl h) hrow
      (List.Subset.refl _) ?_
    intro pos q x _ hcopied
    cases hcopied
    rfl
  | rename name input =>
    obtain ⟨t₀, ht₀, rfl⟩ := List.mem_map.mp ht
    have hrow := hfaithful input mem_cons_self t₀ ht₀
    refine (hderived id).faithful_of_copy hbelow (fun _ => subset_append_left _ _) hrow
      (subset_append_right _ _) ?_
    intro pos q x _ hcopied
    cases hcopied
    rfl
  | constProject h =>
    refine (hderived id).faithful hbelow (fun h => absurd rfl h) ?_ ?_
    · intro relation column childIdx childId producer pos x _ hproducer
      cases hproducer
    · intro childIdx pos pos' x x' hx _ hlt
      cases (hderived id).columnFrom hx with
      | passed _ hproducer => cases hproducer
      | renewed _ hproducer => cases hproducer
      | computed _ _ hid => omega
  | @simpleProject items input columns h =>
    obtain ⟨t₀, ht₀, rfl⟩ := List.mem_map.mp ht
    exact faithful_project (hderived id) hbelow (hfaithful input mem_cons_self t₀ ht₀)
      fun hitem hpos => get_simpleProjectRow hitem hpos t₀.row
  | @project items frames input columns h =>
    obtain ⟨frame, -, rfl⟩ := List.mem_map.mp ht
    exact faithful_project (hderived id) hbelow
      (faithful_pick (hfaithful input mem_cons_self) frame.1)
      fun hitem hpos => get_projectRow hitem hpos _ frame.2
  | @windowAggregation items frames input columns appendInput h =>
    obtain ⟨frame, -, rfl⟩ := List.mem_map.mp ht
    refine (hderived id).faithful_of_copy hbelow (fun h => absurd rfl h)
      (faithful_pick (hfaithful input mem_cons_self) frame.1) (List.Subset.refl _) ?_
    intro pos q x hx hcopied
    obtain ⟨slice, col⟩ := pos
    cases slice with
    | zero =>
      obtain ⟨item, hitem, hfrom⟩ := bind_eq_some_iff.mp hcopied
      obtain ⟨pos, hpos, heq⟩ := map_eq_some_iff.mp hfrom
      cases heq
      exact get_windowRow hitem hpos appendInput _ frame.2
    | succ slice =>
      cases hcopied
      cases appendInput with
      | false => cases hx
      | true =>
        have hx : atPos (mergeColumns 0 input.schemas) (slice, col) = some x := hx
        have hlt := lt_length_of_atPos hx
        rw [length_mergeColumns] at hlt
        exact get_windowRow_succ hlt _ frame.2
  | join type tested pairs left right =>
    have hleft := hproducers left mem_cons_self
    have hright := hproducers right (mem_cons_of_mem _ mem_cons_self)
    obtain ⟨ij, hij, rfl⟩ := List.mem_map.mp ht
    have hpair : (TracedRow.pick left (left.run db) ij.1, TracedRow.pick right (right.run db) ij.2) ∈
        (PhysicalOpNode.mk nodes.length (.join type tested pairs)
          ⟨"", PhysicalOpNode.joinColumns nodes.length ctx.columnIdCounter left right type⟩
          [left, right] unions).joinedPairs db :=
      mem_append_right _ (List.mem_map_of_mem hij)
    have hl := faithful_pick (hfaithful left mem_cons_self) ij.1
    have hr := faithful_pick
      (hfaithful right (mem_cons_of_mem _ mem_cons_self)) ij.2
    cases type with
    | last =>
      exact faithful_join (hderived id) hbelow rfl (hnumbered.slices_pos hleft)
        (length_mergeColumns _ _) (length_mergeColumnsWithNewID _ _ _ _ _) hl hr
        fun hx hy hid => hagree.get_eq hnumbered hleft hright rfl hpair hx hy hid
    | concat =>
      exact faithful_join (hderived id) hbelow rfl (hnumbered.slices_pos hleft)
        (length_mergeColumns _ _) (length_mergeColumns _ _) hl hr
        fun hx hy hid => hagree.get_eq hnumbered hleft hright rfl hpair hx hy hid
  | union left right => cases ht
  | requestUnion window left right =>
    obtain ⟨left', right', heq, hsides, -⟩ := allowed
    cases heq
    have hleft := hproducers left mem_cons_self
    have hright := hproducers right (mem_cons_of_mem _ mem_cons_self)
    obtain ⟨row, -, hrow⟩ := mem_filterMap.mp ht
    refine (hderived id).faithful hbelow (fun h => absurd rfl h) ?_ ?_
    · intro relation column childIdx childId producer pos x hrelation hproducer hchild hx hsource
      -- the column has the place of one of the left side
      have hfrom : childIdx = 0 ∧ ∃ y, left.schemas.columnAt pos = some y ∧ y.id = childId := by
        cases (hderived id).columnFrom hx with
        | passed hcopied hproducer hcolumn hsource' _ _ =>
          rw [hsource] at hsource'
          cases hsource'
          cases hcopied
          cases hproducer
          exact ⟨rfl, _, hcolumn, rfl⟩
        | renewed hcopied hproducer hcolumn hsource' _ _ =>
          rw [hsource] at hsource'
          cases hsource'
          cases hcopied
          cases hproducer
          exact ⟨rfl, _, hcolumn, rfl⟩
        | computed _ hsource' _ _ =>
          rw [hsource] at hsource'
          cases hsource'
      obtain ⟨rfl, y, hy, hid⟩ := hfrom
      cases hproducer
      have hcarried := built.mem_carriedColumns hleft hsides hrelation hchild hy hid
      cases row with
      | request i =>
        have hfaith := hfaithful left mem_cons_self t (mem_of_getElem? hrow)
        rw [PhysicalOpNode.resolveColumnID_eq] at hchild
        exact hfaith.reference hrelation hchild hy hid
      | table i =>
        exact built.mem_relations_of_carried hleft hright hsides db
          (mem_of_getElem? hrow) hcarried
      | union index i =>
        obtain ⟨t₀, -, rfl⟩ := map_eq_some_iff.mp hrow
        exact List.mem_map.mpr ⟨_, hcarried, rfl⟩
    · intro childIdx pos pos' x x' hx _ hlt
      rw [NodeSchemas.columnAt_eq, atPos_mergeColumnsWithNewID] at hx
      obtain ⟨y, -, rfl⟩ := map_eq_some_iff.mp hx
      exact absurd hlt (Nat.not_lt.mpr (Nat.le_add_right _ _))

/-- The contexts of a plan are right about its rows, if the rows that meet agree. -/
theorem Built.faithful (built : Built catalog ctx nodes) (hnode : node ∈ nodes)
    (hagree : ∀ other ∈ node.nodes, other.RowsAgree db) {t} (ht : t ∈ node.run db) :
    Faithful node.schemas node.producers t := by
  induction built generalizing node t with
  | new => cases hnode
  | createOp built hproducers hunions allowed init ih =>
    rcases mem_cons.mp hnode with rfl | hnode
    · refine faithful_createOp built hproducers hunions allowed init
        (hagree _ (PhysicalOpNode.mem_nodes.mpr (.inl rfl))) ?_ ht
      intro producer hproducer t' ht'
      refine ih (hproducers producer hproducer) (fun other hother => hagree other ?_) ht'
      exact PhysicalOpNode.mem_nodes.mpr
        (.inr ⟨producer, mem_append_left _ hproducer, hother⟩)
    · exact ih hnode hagree ht

/-- The nodes below a node are below everything that is above it. -/
theorem Built.mem_nodes_trans (built : Built catalog ctx nodes) {root other} (hroot : root ∈ nodes)
    (hnode : node ∈ root.nodes) (hother : other ∈ node.nodes) : other ∈ root.nodes := by
  induction built generalizing root with
  | new => cases hroot
  | createOp built hproducers hunions allowed init ih =>
    rcases mem_cons.mp hroot with rfl | hroot
    · rcases PhysicalOpNode.mem_nodes.mp hnode with rfl | ⟨child, hchild, hnode⟩
      · exact hother
      · refine PhysicalOpNode.mem_nodes.mpr (.inr ⟨child, hchild, ih ?_ hnode⟩)
        rcases mem_append.mp hchild with hchild | hchild
        · exact hproducers child hchild
        · exact hunions child hchild
    · exact ih hroot hnode

/-- The contexts of a node are right, if the rows that meet in the plan below it agree. -/
theorem Built.identitySound (built : Built catalog ctx nodes) (hnode : node ∈ nodes)
    (hagree : ∀ other ∈ node.nodes, other.RowsAgree db) : node.IdentitySound db := by
  refine ⟨fun t ht => (built.faithful hnode hagree ht).readsRelations, ?_⟩
  intro left right hproducers pair hpair
  have hnumbered := numbered_of_built built
  have hchild : ∀ child ∈ [left, right], child ∈ nodes ∧ ∀ t ∈ child.run db,
      Faithful child.schemas child.producers t := by
    intro child hmem
    have hmem' : child ∈ node.producers ++ node.unions :=
      mem_append_left _ (hproducers ▸ hmem)
    refine ⟨(built.initialised hnode).2 child hmem', fun t ht => ?_⟩
    refine built.faithful ((built.initialised hnode).2 child hmem') (fun other hother => ?_) ht
    exact hagree other (PhysicalOpNode.mem_nodes.mpr (.inr ⟨child, hmem', hother⟩))
  obtain ⟨hleft, hleftRows⟩ := hchild left mem_cons_self
  obtain ⟨hright, hrightRows⟩ := hchild right (mem_cons_of_mem _ mem_cons_self)
  have hbelow : IdsBelow ctx.columnIdCounter [left, right] :=
    idsBelow_of_mem_nodes (fun child hmem => (hchild child hmem).1) hnumbered.idsBelow
  have hself : node.RowsAgree db := hagree node (PhysicalOpNode.mem_nodes.mpr (.inl rfl))
  obtain ⟨i, j, rfl⟩ := exists_of_mem_joinedPairs hproducers hpair
  have hderived : Derived 0 ctx.columnIdCounter ctx.columnIdCounter [left, right]
      (PhysicalOpNode.joinedSchemas left right) fun pos => some (joinFrom left pos) :=
    derived_joinedSchemas hbelow
  rw [hproducers]
  exact (faithful_join hderived hbelow rfl (hnumbered.slices_pos hleft) (length_mergeColumns _ _)
    (length_mergeColumns _ _) (faithful_pick hleftRows i) (faithful_pick hrightRows j)
    fun hx hy hid => hself.get_eq hnumbered hleft hright hproducers hpair hx hy hid).readsRelations

/-- Where the contexts of a node are right, the rows that meet in it agree. -/
theorem Built.rowsAgree (built : Built catalog ctx nodes) (hnode : node ∈ nodes)
    (hsound : node.IdentitySound db) : node.RowsAgree db := by
  have hnumbered := numbered_of_built built
  constructor
  · intro hprovider t ht pos pos' x x' hx hx' hname
    refine (hsound.1 t ht).same_id hx hx' ((hnumbered.id_eq_iff hnode hnode hx hx').mpr ?_)
    cases hop : node.op with
    | tableProvider table =>
      obtain ⟨schema, -, -, horigin⟩ := built.tableProvider hnode hop
      rw [horigin hx, horigin hx', hname]
    | requestProvider table =>
      obtain ⟨schema, -, -, horigin⟩ := built.requestProvider hnode hop
      rw [horigin hx, horigin hx', hname]
    | _ =>
      rw [hop] at hprovider
      exact hprovider.elim
  · intro left right hproducers pair hpair pos pos' x y hx hy horigin
    have hmem : ∀ child ∈ [left, right], child ∈ nodes := fun child hchild =>
      (built.initialised hnode).2 child (mem_append_left _ (hproducers ▸ hchild))
    have hleft := hmem left mem_cons_self
    have hright := hmem right (mem_cons_of_mem _ mem_cons_self)
    have hid := (hnumbered.id_eq_iff hleft hright hx hy).mpr horigin
    -- the two columns stand in `joined_schemas_ctx_`, with the same id
    have hx' : (PhysicalOpNode.joinedSchemas left right).columnAt pos =
        some { x with source := some (0, x.id) } := by
      rw [NodeSchemas.columnAt_eq, PhysicalOpNode.joinedSchemas,
        atPos_append_left (by rw [length_mergeColumns]; exact lt_length_of_atPos hx),
        atPos_mergeColumns, hx]
      rfl
    have hy' : (PhysicalOpNode.joinedSchemas left right).columnAt
        (left.schemas.slices + pos'.1, pos'.2) = some { y with source := some (1, y.id) } := by
      rw [NodeSchemas.columnAt_eq, PhysicalOpNode.joinedSchemas,
        atPos_append_right (by rw [length_mergeColumns]; exact Nat.le_add_right _ _),
        length_mergeColumns, Nat.add_sub_cancel_left, atPos_mergeColumns, hy]
      rfl
    have hsame := (hsound.2 left right hproducers pair hpair).same_id hx' hy' hid
    have hfrom : joinFrom left pos = (0, pos) := if_pos (lt_length_of_atPos hx)
    have hfrom' : joinFrom left (left.schemas.slices + pos'.1, pos'.2) = (1, pos') := by
      rw [joinFrom, if_neg (Nat.not_lt.mpr (Nat.le_add_right _ _)), Nat.add_sub_cancel_left]
    have hslices := hnumbered.slices_pos hleft
    rw [get_join hslices (length_mergeColumns _ _) (length_mergeColumns _ _) hx' hfrom,
      get_join hslices (length_mergeColumns _ _) (length_mergeColumns _ _) hy' hfrom'] at hsame
    exact hsame

/-- Column identity: for every plan that a transformer has built and every database, all
contexts of the plan are right about its rows exactly if the rows that meet in it agree. -/
theorem PhysicalOpNode.identitySound_iff (built : Built catalog ctx nodes) {root : PhysicalOpNode}
    (hroot : root ∈ nodes) (db : Database) :
    (∀ node ∈ root.nodes, node.IdentitySound db) ↔ ∀ node ∈ root.nodes, node.RowsAgree db := by
  constructor
  · intro hsound node hnode
    exact built.rowsAgree (built.mem_of_mem_nodes hroot hnode) (hsound node hnode)
  · intro hagree node hnode
    exact built.identitySound (built.mem_of_mem_nodes hroot hnode) fun other hother =>
      hagree other (built.mem_nodes_trans hroot hnode hother)

end Step

/-! ### A table joined with itself

`SELECT b.v FROM t1 LAST JOIN t1 AS b ON t1.k = b.k` in batch mode. Both sides of the condition
are resolved to the key of `b`, so that the first row is the partner of every row; and `b.v` is
resolved to the value of `t1`. -/

namespace SelfJoin

/-- One table `t1` with the columns `k` and `v`. -/
def catalog : PlanCatalog := fun table =>
  if table = "t1" then some [("k", .kInt32), ("v", .kInt32)] else none

/-- The plan context once `t1` has its ids. -/
def tableCtx : PhysicalPlanContext :=
  ⟨5, [("t1", [("v", 2), ("k", 1)])], [("t1", [("v", 4), ("k", 3)])]⟩

def t1 : PhysicalOpNode :=
  .mk 0 (.tableProvider "t1")
    ⟨"t1", [[⟨⟨"k", .kInt32, 1⟩, none, .table "t1" "k"⟩, ⟨⟨"v", .kInt32, 2⟩, none, .table "t1" "v"⟩]]⟩
    [] []

def b : PhysicalOpNode := .mk 1 (.rename "b") ⟨"b", mergeColumns 0 t1.schemas⟩ [t1] []

/-- `t1.k = b.k`, compiled under `joined_schemas_ctx_`. -/
def condition (row : Row) : Bool :=
  ((PhysicalOpNode.joinedSchemas t1 b).resolveColumnIndexByName [t1, b] "t1" "k").map row.get =
    ((PhysicalOpNode.joinedSchemas t1 b).resolveColumnIndexByName [t1, b] "b" "k").map row.get

/-- The condition is evaluated on the pairs of rows in order. -/
def tested (left right : List Row) : List (Nat × Nat) :=
  (List.range left.length).flatMap fun i => (List.range right.length).map fun j => (i, j)

/-- Every row is put out with the first row that satisfies the condition. -/
def pairs (left right : List Row) : List (Option Nat × Option Nat) :=
  left.zipIdx.map fun l => (some l.2, right.findIdx? fun r => condition (Row.join 1 l.1 1 r))

def join : PhysicalOpNode :=
  .mk 2 (.join .last tested pairs) ⟨"", PhysicalOpNode.joinColumns 2 5 t1 b .last⟩ [t1, b] []

theorem built_t1 : Built catalog tableCtx [t1] :=
  .createOp .new (fun _ h => nomatch h) (fun _ h => nomatch h) rfl rfl

theorem built_b : Built catalog tableCtx [b, t1] :=
  .createOp built_t1 (fun _ h => h) (fun _ h => nomatch h) rfl rfl

theorem built_join : Built catalog (tableCtx.advance 2) [join, b, t1] := by
  refine .createOp built_b (fun producer hproducer => ?_) (fun _ h => nomatch h) rfl rfl
  rcases mem_cons.mp hproducer with rfl | hproducer
  · exact mem_cons_of_mem _ mem_cons_self
  · cases mem_singleton.mp hproducer
    exact mem_cons_self

/-- A row of `t1`. -/
def row (k v : BitVec 32) : Row := Row.ofSlice (some [.int32 k, .int32 v])

/-- A database with these rows in `t1`. -/
def database (rows : List Row) : Database := ⟨fun _ => rows, fun _ => Row.new⟩

/-- The columns of both sides stand at the same positions. -/
theorem eq_pos_of_columnAt {node} (hnode : node = t1 ∨ node = b) {pos x}
    (hx : node.schemas.columnAt pos = some x) :
    x.origin = .table "t1" x.name ∧ pos = (0, if x.name = "k" then 0 else 1) := by
  rw [← NodeSchemas.mem_columns] at hx
  have hall : ∀ n, n = t1 ∨ n = b → ∀ c ∈ n.schemas.columns,
      c.2.origin = .table "t1" c.2.name ∧ c.1 = (0, if c.2.name = "k" then 0 else 1) := by
    rintro n (rfl | rfl)
    · decide
    · decide
  exact hall node hnode _ hx

/-- The only row of `t1` only meets itself. -/
theorem rowsAgree_join : ∀ node ∈ join.nodes, node.RowsAgree (database [row 1 10]) := by
  have ht1 : t1.RowsAgree (database [row 1 10]) := by
    refine ⟨fun _ t _ pos pos' x x' hx hx' hname => ?_, fun _ _ h => nomatch h⟩
    rw [(eq_pos_of_columnAt (.inl rfl) hx).2, (eq_pos_of_columnAt (.inl rfl) hx').2, hname]
  have hjoin : join.RowsAgree (database [row 1 10]) := by
    refine ⟨fun h => h.elim, ?_⟩
    intro left right hproducers pair hpair pos pos' x y hx hy horigin
    cases hproducers
    obtain ⟨hox, hpos⟩ := eq_pos_of_columnAt (.inl rfl) hx
    obtain ⟨hoy, hpos'⟩ := eq_pos_of_columnAt (.inr rfl) hy
    rw [hox, hoy] at horigin
    have hname : x.name = y.name := (ColumnOrigin.table.inj horigin).2
    have hrows : ∀ pair ∈ join.joinedPairs (database [row 1 10]), pair.1.row = pair.2.row := by
      decide
    rw [hpos, hpos', hname, hrows pair hpair]
  intro node hnode
  rcases PhysicalOpNode.mem_nodes.mp hnode with rfl | ⟨child, hchild, hnode⟩
  · exact hjoin
  rcases mem_cons.mp hchild with rfl | hchild
  · rcases PhysicalOpNode.mem_nodes.mp hnode with rfl | ⟨child, hchild, -⟩
    · exact ht1
    · cases hchild
  · cases mem_singleton.mp hchild
    rcases PhysicalOpNode.mem_nodes.mp hnode with rfl | ⟨child, hchild, hnode⟩
    · exact ⟨fun h => h.elim, fun _ _ h => nomatch h⟩
    · cases mem_singleton.mp hchild
      rcases PhysicalOpNode.mem_nodes.mp hnode with rfl | ⟨child, hchild, -⟩
      · exact ht1
      · cases hchild

end SelfJoin

/-- A join of a table with one row with itself: its contexts are right. -/
theorem PhysicalOpNode.identitySound_selfJoin :
    (∀ node ∈ SelfJoin.join.nodes, node.RowsAgree (SelfJoin.database [SelfJoin.row 1 10])) ∧
    ∀ node ∈ SelfJoin.join.nodes, node.IdentitySound (SelfJoin.database [SelfJoin.row 1 10]) :=
  ⟨SelfJoin.rowsAgree_join,
    (identitySound_iff SelfJoin.built_join mem_cons_self _).mpr SelfJoin.rowsAgree_join⟩

/-- With two rows `b.v` is accepted and shows `t1.v`. -/
theorem PhysicalOpNode.not_identitySound_selfJoin :
    Built SelfJoin.catalog (SelfJoin.tableCtx.advance 2)
      [SelfJoin.join, SelfJoin.b, SelfJoin.t1] ∧
    SelfJoin.join.schemas.resolveColumnIndexByName SelfJoin.join.producers "b" "v" = some (0, 1) ∧
    ¬ ∀ node ∈ SelfJoin.join.nodes,
      node.IdentitySound (SelfJoin.database [SelfJoin.row 1 10, SelfJoin.row 2 20]) := by
  have hresolve : SelfJoin.join.schemas.resolveColumnIndexByName SelfJoin.join.producers "b" "v" =
      some (0, 1) := by decide
  refine ⟨SelfJoin.built_join, hresolve, fun hsound => ?_⟩
  have hjoin := hsound SelfJoin.join (mem_nodes.mpr (.inl rfl))
  -- the second row of `t1` with the first one as `b`
  have hmem : TracedRow.join SelfJoin.t1 SelfJoin.b
      ⟨SelfJoin.row 2 20, SelfJoin.t1.schemas.relations (SelfJoin.row 2 20)⟩
      ⟨SelfJoin.row 1 10, SelfJoin.b.schemas.relations (SelfJoin.row 1 10) ++
        SelfJoin.t1.schemas.relations (SelfJoin.row 1 10)⟩ ∈
      SelfJoin.join.run (SelfJoin.database [SelfJoin.row 1 10, SelfJoin.row 2 20]) := by
    decide
  have hreads := (hjoin.1 _ hmem).reference (by decide : "b" ≠ "") hresolve
  revert hreads
  decide

end HybridSE.Vm
