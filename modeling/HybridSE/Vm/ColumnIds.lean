import Mathlib.Logic.Relator
import HybridSE.Vm.PlanRows

/-!
# HybridSE.Vm.ColumnIds

What the ids of the columns of a plan mean: two columns of the nodes that a transformer has
created have the same id exactly if they have the same origin.

A column of a node is passed on from a producer, with its id; or it is made by the node, from
a column of a producer or from an expression, and then its id was not in use before. `Derived`
says this of one context; it also says from where the values of a column are copied. The
providers take their ids from the tables of the plan context.
-/

namespace HybridSE.Vm

open HybridSE.Codec List Option

/-! ### Positions -/

section Positions

variable {α β : Type}

/-- The element of a list of lists at a position. -/
def atPos (sources : List (List α)) (pos : ColumnPos) : Option α :=
  (sources[pos.1]?).bind (·[pos.2]?)

theorem atPos_map (f : α → β) (sources : List (List α)) (pos : ColumnPos) :
    atPos (sources.map (List.map f)) pos = (atPos sources pos).map f := by
  unfold atPos
  rw [getElem?_map]
  cases sources[pos.1]? with
  | none => rfl
  | some source => simp

variable {pos : ColumnPos} {sources : List (List α)} {x : α}

theorem atPos_append_left {left right : List (List α)} (h : pos.1 < left.length) :
    atPos (left ++ right) pos = atPos left pos := by
  unfold atPos
  rw [getElem?_append_left h]

theorem atPos_append_right {left right : List (List α)} (h : left.length ≤ pos.1) :
    atPos (left ++ right) pos = atPos right (pos.1 - left.length, pos.2) := by
  unfold atPos
  rw [getElem?_append_right h]

theorem lt_length_of_atPos (h : atPos sources pos = some x) : pos.1 < sources.length := by
  obtain ⟨source, hsource, -⟩ := bind_eq_some_iff.mp h
  exact (List.getElem?_eq_some_iff.mp hsource).1

/-- The index of a position among all elements. -/
def posIndex : List (List α) → ColumnPos → Nat
  | [], pos => pos.2
  | _ :: _, (0, col) => col
  | source :: rest, (slice + 1, col) => source.length + posIndex rest (slice, col)

theorem posIndex_lt (h : atPos sources pos = some x) :
    posIndex sources pos < (sources.map List.length).sum := by
  induction sources generalizing pos with
  | nil => cases h
  | cons source rest ih =>
    obtain ⟨slice, col⟩ := pos
    cases slice with
    | zero =>
      have hcol : col < source.length := (List.getElem?_eq_some_iff.mp h).1
      exact Nat.lt_of_lt_of_le hcol (Nat.le_add_right _ _)
    | succ slice =>
      have hrest : posIndex rest (slice, col) < (rest.map List.length).sum := ih h
      exact Nat.add_lt_add_left hrest _

theorem posIndex_inj {pos' x'} (h : atPos sources pos = some x) (h' : atPos sources pos' = some x')
    (heq : posIndex sources pos = posIndex sources pos') : pos = pos' := by
  induction sources generalizing pos pos' with
  | nil => cases h
  | cons source rest ih =>
    obtain ⟨slice, col⟩ := pos
    obtain ⟨slice', col'⟩ := pos'
    cases slice with
    | zero =>
      cases slice' with
      | zero => exact congrArg _ heq
      | succ slice' =>
        have hcol : col < source.length := (List.getElem?_eq_some_iff.mp h).1
        have hindex : col = source.length + posIndex rest (slice', col') := heq
        omega
    | succ slice =>
      cases slice' with
      | zero =>
        have hcol : col' < source.length := (List.getElem?_eq_some_iff.mp h').1
        have hindex : source.length + posIndex rest (slice, col) = col' := heq
        omega
      | succ slice' =>
        have hpos : (slice, col) = (slice', col') := ih h h' (Nat.add_left_cancel heq)
        rw [Prod.mk.injEq] at hpos ⊢
        exact ⟨congrArg _ hpos.1, hpos.2⟩

end Positions

theorem NodeSchemas.columnAt_eq (ctx : NodeSchemas) (pos : ColumnPos) :
    ctx.columnAt pos = atPos ctx.sources pos := rfl

/-! ### Merged columns -/

theorem atPos_mergeColumns (childIdx : Nat) (child : NodeSchemas) (pos : ColumnPos) :
    atPos (mergeColumns childIdx child) pos =
      (child.columnAt pos).map fun c => { c with source := some (childIdx, c.id) } :=
  atPos_map _ _ _

@[simp] theorem length_mergeColumns (childIdx : Nat) (child : NodeSchemas) :
    (mergeColumns childIdx child).length = child.slices := by
  simp [mergeColumns, NodeSchemas.slices]

@[simp] theorem length_mergeColumnsWithNewID (node start childIdx index : Nat)
    (sources : List (List NodeColumn)) :
    (mergeColumnsWithNewID node start childIdx index sources).length = sources.length := by
  induction sources generalizing index with
  | nil => rfl
  | cons source rest ih => rw [mergeColumnsWithNewID, length_cons, ih, length_cons]

theorem atPos_mergeColumnsWithNewID (node start childIdx index : Nat)
    (sources : List (List NodeColumn)) (pos : ColumnPos) :
    atPos (mergeColumnsWithNewID node start childIdx index sources) pos =
      (atPos sources pos).map fun c =>
        { c with
          id := start + (index + posIndex sources pos)
          source := some (childIdx, c.id)
          origin := .node node (index + posIndex sources pos) } := by
  induction sources generalizing index pos with
  | nil => rfl
  | cons source rest ih =>
    obtain ⟨slice, col⟩ := pos
    cases slice with
    | zero =>
      show ((source.zipIdx index).map _)[col]? = (source[col]?).map _
      rw [getElem?_map, getElem?_zipIdx]
      cases source[col]? with
      | none => rfl
      | some c => rfl
    | succ slice =>
      show atPos (mergeColumnsWithNewID node start childIdx _ rest) (slice, col) =
        (atPos rest (slice, col)).map _
      simp [ih, posIndex, Nat.add_assoc]

/-! ### Where a column comes from -/

/-- The side of a join and the position there. -/
def joinFrom (left : PhysicalOpNode) (pos : ColumnPos) : Nat × ColumnPos :=
  if pos.1 < left.schemas.slices then (0, pos) else (1, (pos.1 - left.schemas.slices, pos.2))

/-- The column of the producer that an item of a projection is. -/
def itemFrom (input : PhysicalOpNode) (items : List ProjectItem) (pos : ColumnPos) :
    Option (Nat × ColumnPos) :=
  (items[pos.2]?).bind fun item =>
    (input.schemas.position input.producers item.expr).map fun pos => (0, pos)

/-- The producer and the position there from which the values of a column are copied. -/
def PhysicalOp.copiedFrom (op : PhysicalOp) (producers : List PhysicalOpNode) (pos : ColumnPos) :
    Option (Nat × ColumnPos) :=
  match op, producers with
  | .select _, [_] | .rename _, [_] | .union, [_, _] | .requestUnion _, [_, _] => some (0, pos)
  | .simpleProject items, [input] | .project items _, [input] => itemFrom input items pos
  | .windowAggregation items _ _, [input] =>
    if pos.1 = 0 then itemFrom input items pos else some (0, (pos.1 - 1, pos.2))
  | .join _ _ _, [left, _] => some (joinFrom left pos)
  | _, _ => none

/-- A column of the node `node`, whose new ids begin at `start`. -/
inductive ColumnFrom (node start : Nat) (producers : List PhysicalOpNode)
    (copied : Option (Nat × ColumnPos)) (x : NodeColumn) : Prop
  /-- A column that is passed on keeps its id. -/
  | passed {childIdx : Nat} {pos : ColumnPos} {producer : PhysicalOpNode} {y : NodeColumn}
      (hcopied : copied = some (childIdx, pos)) (hproducer : producers[childIdx]? = some producer)
      (hcolumn : producer.schemas.columnAt pos = some y)
      (hsource : x.source = some (childIdx, y.id)) (hid : x.id = y.id)
      (horigin : x.origin = y.origin)
  /-- A column with the values of a producer's column and a new id. -/
  | renewed {childIdx index : Nat} {pos : ColumnPos} {producer : PhysicalOpNode} {y : NodeColumn}
      (hcopied : copied = some (childIdx, pos)) (hproducer : producers[childIdx]? = some producer)
      (hcolumn : producer.schemas.columnAt pos = some y)
      (hsource : x.source = some (childIdx, y.id)) (hid : x.id = start + index)
      (horigin : x.origin = .node node index)
  /-- The column of an expression. -/
  | computed {index : Nat} (hcopied : copied = none) (hsource : x.source = none)
      (hid : x.id = start + index) (horigin : x.origin = .node node index)

/-- The columns of a context that a node makes from its producers. -/
structure Derived (node start stop : Nat) (producers : List PhysicalOpNode) (ctx : NodeSchemas)
    (copied : ColumnPos → Option (Nat × ColumnPos)) : Prop where
  columnFrom : ∀ {pos : ColumnPos} {x : NodeColumn}, ctx.columnAt pos = some x →
    ColumnFrom node start producers (copied pos) x
  /-- The new ids are in use afterwards. -/
  lt_stop : ∀ {pos : ColumnPos} {x : NodeColumn}, ctx.columnAt pos = some x → start ≤ x.id →
    x.id < stop
  /-- Every new id is given once. -/
  eq_of_id : ∀ {pos pos' : ColumnPos} {x x' : NodeColumn}, ctx.columnAt pos = some x →
    ctx.columnAt pos' = some x' → start ≤ x.id → x.id = x'.id → pos = pos'
  /-- A producer's column whose id the context has too is in the context itself. -/
  exists_source : ∀ {pos pos' : ColumnPos} {x y : NodeColumn} {childIdx : Nat}
    {producer : PhysicalOpNode}, ctx.columnAt pos = some x → producers[childIdx]? = some producer →
    producer.schemas.columnAt pos' = some y → x.id = y.id →
    ∃ pos'' x'', ctx.columnAt pos'' = some x'' ∧ x''.source = some (childIdx, y.id)

/-- The ids of the producers were given before. -/
def IdsBelow (start : Nat) (producers : List PhysicalOpNode) : Prop :=
  ∀ producer ∈ producers, ∀ {pos : ColumnPos} {y : NodeColumn},
    producer.schemas.columnAt pos = some y → y.id < start

variable {start node id : Nat} {producers : List PhysicalOpNode}
  {schema : List (String × ColumnType)} {name : String}

theorem idsBelow_of_mem_nodes {nodes} (hproducers : ∀ producer ∈ producers, producer ∈ nodes)
    (h : IdsBelow start nodes) : IdsBelow start producers :=
  fun producer hmem => h producer (hproducers producer hmem)

section Unary

variable {node start : Nat} {input : PhysicalOpNode}

/-- A node that passes on its only producer. -/
theorem derived_mergeColumns (hbelow : IdsBelow start [input]) (name : String) {copied}
    (hcopied : ∀ pos, copied pos = some (0, pos)) :
    Derived node start start [input] ⟨name, mergeColumns 0 input.schemas⟩ copied := by
  have hinv : ∀ {pos : ColumnPos} {x : NodeColumn},
      (NodeSchemas.mk name (mergeColumns 0 input.schemas)).columnAt pos = some x →
      ∃ y, input.schemas.columnAt pos = some y ∧ { y with source := some (0, y.id) } = x := by
    intro pos x hx
    rw [NodeSchemas.columnAt_eq, atPos_mergeColumns] at hx
    exact map_eq_some_iff.mp hx
  have hlt : ∀ {pos : ColumnPos} {x : NodeColumn},
      (NodeSchemas.mk name (mergeColumns 0 input.schemas)).columnAt pos = some x →
      x.id < start := by
    intro pos x hx
    obtain ⟨y, hy, rfl⟩ := hinv hx
    have hlt : y.id < start := hbelow input mem_cons_self hy
    exact hlt
  refine ⟨?_, ?_, ?_, ?_⟩
  · intro pos x hx
    obtain ⟨y, hy, rfl⟩ := hinv hx
    exact .passed (hcopied pos) rfl hy rfl rfl rfl
  · intro pos x hx hle
    exact hlt hx
  · intro pos pos' x x' hx _ hle _
    exact absurd (hlt hx) (Nat.not_lt.mpr hle)
  · intro pos pos' x y childIdx producer hx hproducer _ hid
    obtain ⟨y', hy', rfl⟩ := hinv hx
    obtain ⟨hidx, -⟩ := List.getElem?_eq_some_iff.mp hproducer
    cases Nat.lt_one_iff.mp hidx
    exact ⟨pos, _, hx, congrArg (fun id => some (0, id)) hid⟩

/-- A node that gives new ids to the columns of its first producer. -/
theorem derived_mergeColumnsWithNewID {rest} (hbelow : IdsBelow start (input :: rest))
    (name : String) {copied} (hcopied : ∀ pos, copied pos = some (0, pos)) :
    Derived node start (start + input.schemas.columnNum) (input :: rest)
      ⟨name, mergeColumnsWithNewID node start 0 0 input.schemas.sources⟩ copied := by
  have hinv : ∀ {pos : ColumnPos} {x : NodeColumn},
      (NodeSchemas.mk name (mergeColumnsWithNewID node start 0 0 input.schemas.sources)).columnAt
        pos = some x →
      ∃ y, input.schemas.columnAt pos = some y ∧ x.source = some (0, y.id) ∧
        x.id = start + posIndex input.schemas.sources pos ∧
        x.origin = .node node (posIndex input.schemas.sources pos) := by
    intro pos x hx
    rw [NodeSchemas.columnAt_eq, atPos_mergeColumnsWithNewID] at hx
    obtain ⟨y, hy, rfl⟩ := map_eq_some_iff.mp hx
    exact ⟨y, hy, rfl, by rw [Nat.zero_add], by rw [Nat.zero_add]⟩
  refine ⟨?_, ?_, ?_, ?_⟩
  · intro pos x hx
    obtain ⟨y, hy, hsource, hid, horigin⟩ := hinv hx
    exact .renewed (hcopied pos) rfl hy hsource hid horigin
  · intro pos x hx _
    obtain ⟨y, hy, -, hid, -⟩ := hinv hx
    rw [hid]
    exact Nat.add_lt_add_left (posIndex_lt hy) _
  · intro pos pos' x x' hx hx' _ heq
    obtain ⟨y, hy, -, hid, -⟩ := hinv hx
    obtain ⟨y', hy', -, hid', -⟩ := hinv hx'
    rw [hid, hid'] at heq
    exact posIndex_inj hy hy' (Nat.add_left_cancel heq)
  · intro pos pos' x y childIdx producer hx hproducer hy hid
    obtain ⟨y', -, -, hid', -⟩ := hinv hx
    have hlt : y.id < start := hbelow producer (mem_of_getElem? hproducer) hy
    omega

end Unary

/-! ### Projected columns -/

section Project

variable {node start : Nat} {input : NodeSchemas} {producers : List PhysicalOpNode}

theorem newIDs_cons (item : ProjectItem) (items : List ProjectItem) :
    newIDs (item :: items) = item.newIDs + newIDs items := by
  simp [newIDs]

variable {index i : Nat} {items : List ProjectItem} {columns : List NodeColumn} {x : NodeColumn}

/-- The column of an item, and the number of new columns before it. -/
theorem getElem?_projectColumns
    (h : projectColumns node start input producers index items = some columns)
    (hx : columns[i]? = some x) :
    ∃ item, items[i]? = some item ∧
      projectColumn node start input producers (index + newIDs (items.take i)) item = some x := by
  induction items generalizing index columns i with
  | nil =>
    cases h
    cases hx
  | cons item items ih =>
    obtain ⟨column, hcolumn, hrest⟩ := bind_eq_some_iff.mp h
    obtain ⟨columns', hcolumns', rfl⟩ := map_eq_some_iff.mp hrest
    cases i with
    | zero =>
      cases hx
      exact ⟨item, rfl, hcolumn⟩
    | succ i =>
      obtain ⟨item', hitem', hproject⟩ := ih hcolumns' hx
      refine ⟨item', hitem', ?_⟩
      rw [take_succ_cons, newIDs_cons, ← Nat.add_assoc]
      exact hproject

theorem length_projectColumns
    (h : projectColumns node start input producers index items = some columns) :
    columns.length = items.length := by
  induction items generalizing index columns with
  | nil =>
    cases h
    rfl
  | cons item items ih =>
    obtain ⟨column, -, hrest⟩ := bind_eq_some_iff.mp h
    obtain ⟨columns', hcolumns', rfl⟩ := map_eq_some_iff.mp hrest
    rw [length_cons, length_cons, ih hcolumns']

/-- An item is a column of the input or has a new one. -/
theorem projectColumn_cases {item}
    (h : projectColumn node start input producers index item = some x) :
    (∃ pos y, input.position producers item.expr = some pos ∧ input.columnAt pos = some y ∧
      x.source = some (0, y.id) ∧ x.id = y.id ∧ x.origin = y.origin) ∨
    (input.position producers item.expr = none ∧ item.newIDs = 1 ∧ x.source = none ∧
      x.id = start + index ∧ x.origin = .node node index) := by
  obtain ⟨name, expr⟩ := item
  cases expr with
  | other type value =>
    cases h
    exact .inr ⟨rfl, rfl, rfl, rfl, rfl⟩
  | columnRef relation column =>
    obtain ⟨y, hy, rfl⟩ := map_eq_some_iff.mp h
    obtain ⟨pos, hpos, hy⟩ := bind_eq_some_iff.mp hy
    exact .inl ⟨pos, y, hpos, hy, rfl, rfl, rfl⟩
  | columnId id =>
    obtain ⟨y, hy, rfl⟩ := map_eq_some_iff.mp h
    obtain ⟨pos, hpos, hy⟩ := bind_eq_some_iff.mp hy
    exact .inl ⟨pos, y, hpos, hy, rfl, rfl, rfl⟩

/-- A computed item takes the id of its index. -/
theorem newIDs_take_lt {j item} (hitem : items[i]? = some item) (hnew : item.newIDs = 1)
    (hlt : i < j) : newIDs (items.take i) < newIDs (items.take j) := by
  induction items generalizing i j with
  | nil => cases hitem
  | cons first items ih =>
    cases j with
    | zero => exact absurd hlt (Nat.not_lt_zero _)
    | succ j =>
      cases i with
      | zero =>
        cases hitem
        rw [take_succ_cons, newIDs_cons, hnew]
        simp [newIDs]
      | succ i =>
        exact Nat.add_lt_add_left (ih hitem (Nat.lt_of_succ_lt_succ hlt)) _

/-- A new id of a projection belongs to a computed item. -/
theorem newIDs_of_projectColumns
    (h : projectColumns node start input producers 0 items = some columns)
    (hbelow : ∀ {pos : ColumnPos} {y : NodeColumn}, input.columnAt pos = some y → y.id < start)
    (hx : columns[i]? = some x) (hle : start ≤ x.id) :
    ∃ item, items[i]? = some item ∧ item.newIDs = 1 ∧ x.id = start + newIDs (items.take i) := by
  obtain ⟨item, hitem, hproject⟩ := getElem?_projectColumns h hx
  rw [Nat.zero_add] at hproject
  rcases projectColumn_cases hproject with ⟨pos, y, -, hy, -, hid, -⟩ | ⟨-, hnew, -, hid, -⟩
  · exact absurd (hbelow hy) (by omega)
  · exact ⟨item, hitem, hnew, hid⟩

theorem lt_of_projectColumns (h : projectColumns node start input producers 0 items = some columns)
    (hbelow : ∀ {pos : ColumnPos} {y : NodeColumn}, input.columnAt pos = some y → y.id < start)
    (hx : columns[i]? = some x) (hle : start ≤ x.id) : x.id < start + newIDs items := by
  obtain ⟨item, hitem, hnew, hid⟩ := newIDs_of_projectColumns h hbelow hx hle
  have hlt := newIDs_take_lt hitem hnew (List.getElem?_eq_some_iff.mp hitem).1
  rw [take_length] at hlt
  omega

theorem eq_of_projectColumns (h : projectColumns node start input producers 0 items = some columns)
    (hbelow : ∀ {pos : ColumnPos} {y : NodeColumn}, input.columnAt pos = some y → y.id < start)
    {j x'} (hx : columns[i]? = some x) (hx' : columns[j]? = some x') (hle : start ≤ x.id)
    (heq : x.id = x'.id) : i = j := by
  obtain ⟨item, hitem, hnew, hid⟩ := newIDs_of_projectColumns h hbelow hx hle
  obtain ⟨item', hitem', hnew', hid'⟩ := newIDs_of_projectColumns h hbelow hx' (heq ▸ hle)
  rcases Nat.lt_trichotomy i j with hlt | heq | hlt
  · have := newIDs_take_lt hitem hnew hlt
    omega
  · exact heq
  · have := newIDs_take_lt hitem' hnew' hlt
    omega

end Project

/-- The context of a projection; a window aggregation may append its input. -/
theorem derived_project {input : PhysicalOpNode} {items : List ProjectItem}
    {columns : List NodeColumn} {appended : List (List NodeColumn)}
    {copied : ColumnPos → Option (Nat × ColumnPos)} (hbelow : IdsBelow start [input])
    (h : projectColumns node start input.schemas input.producers 0 items = some columns)
    (happended : appended = [] ∨ appended = mergeColumns 0 input.schemas)
    (hitem : ∀ col, copied (0, col) = itemFrom input items (0, col))
    (hinput : ∀ slice col, slice < appended.length → copied (slice + 1, col) = some (0, (slice,
      col))) :
    Derived node start (start + newIDs items) [input] ⟨"", columns :: appended⟩ copied := by
  have hlt : ∀ {pos : ColumnPos} {y : NodeColumn}, input.schemas.columnAt pos = some y →
      y.id < start := fun hy => hbelow input mem_cons_self hy
  have hzero : ∀ {col : Nat} {x : NodeColumn},
      (NodeSchemas.mk "" (columns :: appended)).columnAt (0, col) = some x →
      columns[col]? = some x := fun hx => hx
  have hsucc : ∀ {slice col : Nat} {x : NodeColumn},
      (NodeSchemas.mk "" (columns :: appended)).columnAt (slice + 1, col) = some x →
      slice < appended.length ∧ ∃ y, input.schemas.columnAt (slice, col) = some y ∧
        { y with source := some (0, y.id) } = x := by
    intro slice col x hx
    have hx : atPos appended (slice, col) = some x := hx
    refine ⟨lt_length_of_atPos hx, ?_⟩
    rcases happended with rfl | rfl
    · cases hx
    · rw [atPos_mergeColumns] at hx
      exact map_eq_some_iff.mp hx
  -- a column that is passed on has the id of its source
  have hsource : ∀ {pos : ColumnPos} {x : NodeColumn},
      (NodeSchemas.mk "" (columns :: appended)).columnAt pos = some x → x.id < start →
      x.source = some (0, x.id) := by
    intro pos x hx hltx
    obtain ⟨slice, col⟩ := pos
    cases slice with
    | zero =>
      obtain ⟨item, -, hproject⟩ := getElem?_projectColumns h (hzero hx)
      rcases projectColumn_cases hproject with
        ⟨pos, y, -, -, hsource, hid, -⟩ | ⟨-, -, -, hid, -⟩
      · rw [hsource, hid]
      · omega
    | succ slice =>
      obtain ⟨-, y, -, rfl⟩ := hsucc hx
      rfl
  refine ⟨?_, ?_, ?_, ?_⟩
  · intro pos x hx
    obtain ⟨slice, col⟩ := pos
    cases slice with
    | zero =>
      obtain ⟨item, hat, hproject⟩ := getElem?_projectColumns h (hzero hx)
      rw [hitem, itemFrom]
      rw [hat]
      rcases projectColumn_cases hproject with
        ⟨pos, y, hpos, hy, hsource, hid, horigin⟩ | ⟨hpos, -, hsource, hid, horigin⟩
      · exact .passed (by rw [bind_some, hpos]; rfl) rfl hy hsource hid horigin
      · exact .computed (by rw [bind_some, hpos]; rfl) hsource hid horigin
    | succ slice =>
      obtain ⟨hslice, y, hy, rfl⟩ := hsucc hx
      exact .passed (hinput slice col hslice) rfl hy rfl rfl rfl
  · intro pos x hx hle
    obtain ⟨slice, col⟩ := pos
    cases slice with
    | zero => exact lt_of_projectColumns h hlt (hzero hx) hle
    | succ slice =>
      obtain ⟨-, y, hy, rfl⟩ := hsucc hx
      exact absurd (hlt hy) (Nat.not_lt.mpr hle)
  · intro pos pos' x x' hx hx' hle heq
    obtain ⟨slice, col⟩ := pos
    obtain ⟨slice', col'⟩ := pos'
    cases slice with
    | succ slice =>
      obtain ⟨-, y, hy, rfl⟩ := hsucc hx
      exact absurd (hlt hy) (Nat.not_lt.mpr hle)
    | zero =>
      cases slice' with
      | succ slice' =>
        obtain ⟨-, y, hy, rfl⟩ := hsucc hx'
        exact absurd (hlt hy) (Nat.not_lt.mpr (heq ▸ hle))
      | zero => exact congrArg _ (eq_of_projectColumns h hlt (hzero hx) (hzero hx') hle heq)
  · intro pos pos' x y childIdx producer hx hproducer hy hid
    obtain ⟨hidx, hinput'⟩ := List.getElem?_eq_some_iff.mp hproducer
    cases Nat.lt_one_iff.mp hidx
    cases hinput'
    exact ⟨pos, x, hx, hid ▸ hsource hx (hid ▸ hlt hy)⟩

/-- The context of a projection without a table. -/
theorem derived_constProject {items columns}
    (h : projectColumns node start .empty [] 0 items = some columns) {copied}
    (hcopied : ∀ pos, copied pos = none) :
    Derived node start (start + newIDs items) [] ⟨"", [columns]⟩ copied := by
  have hempty : ∀ {pos : ColumnPos} {y : NodeColumn},
      NodeSchemas.empty.columnAt pos = some y → y.id < start := fun hy => nomatch hy
  have hzero : ∀ {pos : ColumnPos} {x : NodeColumn},
      (NodeSchemas.mk "" [columns]).columnAt pos = some x →
      pos.1 = 0 ∧ columns[pos.2]? = some x := by
    intro pos x hx
    obtain ⟨slice, col⟩ := pos
    cases slice with
    | zero => exact ⟨rfl, hx⟩
    | succ slice => cases hx
  refine ⟨?_, ?_, ?_, ?_⟩
  · intro pos x hx
    obtain ⟨item, -, hproject⟩ := getElem?_projectColumns h (hzero hx).2
    rcases projectColumn_cases hproject with ⟨pos', y, -, hy, -⟩ | ⟨-, -, hsource, hid, horigin⟩
    · cases hy
    · exact .computed (hcopied pos) hsource hid horigin
  · intro pos x hx hle
    exact lt_of_projectColumns h hempty (hzero hx).2 hle
  · intro pos pos' x x' hx hx' hle heq
    have hcol := eq_of_projectColumns h hempty (hzero hx).2 (hzero hx').2 hle heq
    exact Prod.ext ((hzero hx).1.trans (hzero hx').1.symm) hcol
  · intro pos pos' x y childIdx producer hx hproducer
    cases hproducer

/-! ### Joined columns -/

section Join

variable {node start : Nat} {left right : PhysicalOpNode}

variable {pos : ColumnPos} {childIdx : Nat} {y : NodeColumn}

/-- The column of the left side at a position, or that of the right. -/
theorem columnAt_append {name : String} {leftColumns rightColumns}
    (hlength : leftColumns.length = left.schemas.slices) {x}
    (hx : (NodeSchemas.mk name (leftColumns ++ rightColumns)).columnAt pos = some x) :
    (joinFrom left pos = (0, pos) ∧ atPos leftColumns pos = some x) ∨
    (joinFrom left pos = (1, (pos.1 - left.schemas.slices, pos.2)) ∧ left.schemas.slices ≤ pos.1 ∧
      atPos rightColumns (pos.1 - left.schemas.slices, pos.2) = some x) := by
  rw [NodeSchemas.columnAt_eq] at hx
  unfold joinFrom
  by_cases hpos : pos.1 < left.schemas.slices
  · rw [if_pos hpos]
    exact .inl ⟨rfl, by rwa [atPos_append_left (hlength ▸ hpos)] at hx⟩
  · rw [if_neg hpos]
    have hle : left.schemas.slices ≤ pos.1 := Nat.not_lt.mp hpos
    rw [atPos_append_right (hlength ▸ hle), hlength] at hx
    exact .inr ⟨rfl, hle, hx⟩

/-- The columns of both sides are in the context of a join. -/
theorem exists_columnAt_append {name : String} {leftColumns rightColumns : List (List NodeColumn)}
    (hleft : ∀ {pos : ColumnPos} {y : NodeColumn}, left.schemas.columnAt pos = some y → ∃ x, atPos
      leftColumns pos = some x ∧ x.source = some (0, y.id))
    (hright : ∀ {pos : ColumnPos} {y : NodeColumn}, right.schemas.columnAt pos = some y → ∃ x, atPos
      rightColumns pos = some x ∧ x.source = some (1, y.id)) {producer : PhysicalOpNode}
    (hproducer : [left, right][childIdx]? = some producer)
    (hy : producer.schemas.columnAt pos = some y) :
    ∃ pos' x, (NodeSchemas.mk name (leftColumns ++ rightColumns)).columnAt pos' = some x ∧
      x.source = some (childIdx, y.id) := by
  obtain ⟨hidx, hproducer⟩ := List.getElem?_eq_some_iff.mp hproducer
  match childIdx, hidx, hproducer with
  | 0, _, rfl =>
    obtain ⟨x, hx, hsource⟩ := hleft hy
    exact ⟨pos, x, by rw [NodeSchemas.columnAt_eq, atPos_append_left (lt_length_of_atPos hx), hx],
      hsource⟩
  | 1, _, rfl =>
    obtain ⟨x, hx, hsource⟩ := hright hy
    refine ⟨(leftColumns.length + pos.1, pos.2), x, ?_, hsource⟩
    rw [NodeSchemas.columnAt_eq, atPos_append_right (Nat.le_add_right _ _),
      Nat.add_sub_cancel_left, hx]

theorem exists_atPos_mergeColumns {child} (hy : child.columnAt pos = some y) :
    ∃ x, atPos (mergeColumns childIdx child) pos = some x ∧ x.source = some (childIdx, y.id) := by
  simp [atPos_mergeColumns, hy]

theorem exists_atPos_mergeColumnsWithNewID {child : NodeSchemas} (hy : child.columnAt pos = some y)
    :
    ∃ x, atPos (mergeColumnsWithNewID node start childIdx 0 child.sources) pos = some x ∧
      x.source = some (childIdx, y.id) := by
  have hy : atPos child.sources pos = some y := hy
  simp [atPos_mergeColumnsWithNewID, hy]

/-- The context in which both sides keep their ids. -/
theorem derived_joinedSchemas (hbelow : IdsBelow start [left, right]) :
    Derived node start start [left, right] (PhysicalOpNode.joinedSchemas left right)
      fun pos => some (joinFrom left pos) := by
  have hfrom : ∀ {pos : ColumnPos} {x : NodeColumn},
      (PhysicalOpNode.joinedSchemas left right).columnAt pos = some x →
      ColumnFrom node start [left, right] (some (joinFrom left pos)) x := by
    intro pos x hx
    rcases columnAt_append (length_mergeColumns 0 left.schemas) hx with
      ⟨hfrom, hx⟩ | ⟨hfrom, -, hx⟩
    all_goals
      rw [atPos_mergeColumns] at hx
      obtain ⟨y, hy, rfl⟩ := map_eq_some_iff.mp hx
      exact .passed (congrArg some hfrom) rfl hy rfl rfl rfl
  have hlt : ∀ {pos : ColumnPos} {x : NodeColumn},
      (PhysicalOpNode.joinedSchemas left right).columnAt pos = some x → x.id < start := by
    intro pos x hx
    rcases columnAt_append (length_mergeColumns 0 left.schemas) hx with ⟨-, hx⟩ | ⟨-, -, hx⟩
    all_goals
      rw [atPos_mergeColumns] at hx
      obtain ⟨y, hy, rfl⟩ := map_eq_some_iff.mp hx
      have hlt : y.id < start := hbelow _ (by simp) hy
      exact hlt
  refine ⟨hfrom, fun hx _ => hlt hx, ?_, ?_⟩
  · intro pos pos' x x' hx _ hle _
    exact absurd (hlt hx) (Nat.not_lt.mpr hle)
  · intro pos pos' x y childIdx producer _ hproducer hy _
    exact exists_columnAt_append exists_atPos_mergeColumns exists_atPos_mergeColumns hproducer hy

/-- The context of a last join: the right side has new ids. -/
theorem derived_joinColumns_last (hbelow : IdsBelow start [left, right]) :
    Derived node start (start + right.schemas.columnNum) [left, right]
      ⟨"", PhysicalOpNode.joinColumns node start left right .last⟩
      fun pos => some (joinFrom left pos) := by
  have hinv : ∀ {pos : ColumnPos} {x : NodeColumn},
      (NodeSchemas.mk "" (PhysicalOpNode.joinColumns node start left right .last)).columnAt pos =
        some x →
      (joinFrom left pos = (0, pos) ∧
        ∃ y, left.schemas.columnAt pos = some y ∧ { y with source := some (0, y.id) } = x) ∨
      (∃ q, joinFrom left pos = (1, q) ∧ pos = (left.schemas.slices + q.1, q.2) ∧
        ∃ y, right.schemas.columnAt q = some y ∧ x.source = some (1, y.id) ∧
          x.id = start + posIndex right.schemas.sources q ∧
          x.origin = .node node (posIndex right.schemas.sources q)) := by
    intro pos x hx
    rcases columnAt_append (length_mergeColumns 0 left.schemas) hx with
      ⟨hfrom, hx⟩ | ⟨hfrom, hle, hx⟩
    · rw [atPos_mergeColumns] at hx
      exact .inl ⟨hfrom, map_eq_some_iff.mp hx⟩
    · rw [atPos_mergeColumnsWithNewID] at hx
      obtain ⟨y, hy, rfl⟩ := map_eq_some_iff.mp hx
      refine .inr ⟨_, hfrom, ?_, y, hy, rfl, by rw [Nat.zero_add], by rw [Nat.zero_add]⟩
      exact Prod.ext (Nat.add_sub_cancel' hle).symm rfl
  have hleft : ∀ {pos : ColumnPos} {y : NodeColumn}, left.schemas.columnAt pos = some y →
      y.id < start := fun hy => hbelow left (by simp) hy
  refine ⟨?_, ?_, ?_, ?_⟩
  · intro pos x hx
    rcases hinv hx with ⟨hfrom, y, hy, rfl⟩ | ⟨q, hfrom, -, y, hy, hsource, hid, horigin⟩
    · exact .passed (congrArg some hfrom) rfl hy rfl rfl rfl
    · exact .renewed (congrArg some hfrom) rfl hy hsource hid horigin
  · intro pos x hx hle
    rcases hinv hx with ⟨-, y, hy, rfl⟩ | ⟨q, -, -, y, hy, -, hid, -⟩
    · exact absurd (hleft hy) (Nat.not_lt.mpr hle)
    · rw [hid]
      exact Nat.add_lt_add_left (posIndex_lt hy) _
  · intro pos pos' x x' hx hx' hle heq
    rcases hinv hx with ⟨-, y, hy, rfl⟩ | ⟨q, -, hpos, y, hy, -, hid, -⟩
    · exact absurd (hleft hy) (Nat.not_lt.mpr hle)
    · rcases hinv hx' with ⟨-, y', hy', rfl⟩ | ⟨q', -, hpos', y', hy', -, hid', -⟩
      · exact absurd (hleft hy') (Nat.not_lt.mpr (heq ▸ hle))
      · rw [hid, hid'] at heq
        rw [hpos, hpos', posIndex_inj hy hy' (Nat.add_left_cancel heq)]
  · intro pos pos' x y childIdx producer _ hproducer hy _
    exact exists_columnAt_append exists_atPos_mergeColumns exists_atPos_mergeColumnsWithNewID
      hproducer hy

end Join

/-! ### Nodes -/

/-- What `initSchema` can do. -/
inductive Initialised (catalog : PlanCatalog) (node : Nat) (ctx : PhysicalPlanContext) :
    PhysicalOp → List PhysicalOpNode → NodeSchemas → PhysicalPlanContext → Prop
  | tableProvider {table : String} {schemas : NodeSchemas} {ctx' : PhysicalPlanContext}
      (h : tableSchema catalog table ctx = some (schemas, ctx')) :
      Initialised catalog node ctx (.tableProvider table) [] schemas ctx'
  | requestProvider {table : String} {schemas : NodeSchemas} {ctx' : PhysicalPlanContext}
      (h : requestSchema catalog table ctx = some (schemas, ctx')) :
      Initialised catalog node ctx (.requestProvider table) [] schemas ctx'
  | select (keep : List Row → List Nat) (input : PhysicalOpNode) :
      Initialised catalog node ctx (.select keep) [input] ⟨"", mergeColumns 0 input.schemas⟩ ctx
  | rename (name : String) (input : PhysicalOpNode) :
      Initialised catalog node ctx (.rename name) [input] ⟨name, mergeColumns 0 input.schemas⟩ ctx
  | constProject {items : List ProjectItem} {columns : List NodeColumn}
      (h : projectColumns node ctx.columnIdCounter .empty [] 0 items = some columns) :
      Initialised catalog node ctx (.constProject items) [] ⟨"", [columns]⟩
        (ctx.advance (newIDs items))
  | simpleProject {items : List ProjectItem} {input : PhysicalOpNode} {columns : List NodeColumn}
      (h : projectColumns node ctx.columnIdCounter input.schemas input.producers 0 items =
        some columns) :
      Initialised catalog node ctx (.simpleProject items) [input] ⟨"", [columns]⟩
        (ctx.advance (newIDs items))
  | project {items : List ProjectItem} {frames : List Row → List (Option Nat × List Row)}
      {input : PhysicalOpNode} {columns : List NodeColumn}
      (h : projectColumns node ctx.columnIdCounter input.schemas input.producers 0 items =
        some columns) :
      Initialised catalog node ctx (.project items frames) [input] ⟨"", [columns]⟩
        (ctx.advance (newIDs items))
  | windowAggregation {items : List ProjectItem}
      {frames : List Row → List (Option Nat × List Row)} {input : PhysicalOpNode}
      {columns : List NodeColumn} (appendInput : Bool)
      (h : projectColumns node ctx.columnIdCounter input.schemas input.producers 0 items =
        some columns) :
      Initialised catalog node ctx (.windowAggregation items frames appendInput) [input]
        ⟨"", columns :: if appendInput then mergeColumns 0 input.schemas else []⟩
        (ctx.advance (newIDs items))
  | join (type : JoinType) (tested : List Row → List Row → List (Nat × Nat))
      (pairs : List Row → List Row → List (Option Nat × Option Nat))
      (left right : PhysicalOpNode) :
      Initialised catalog node ctx (.join type tested pairs) [left, right]
        ⟨"", PhysicalOpNode.joinColumns node ctx.columnIdCounter left right type⟩
        (ctx.advance (type.newIDs right))
  | union (left right : PhysicalOpNode) :
      Initialised catalog node ctx .union [left, right]
        ⟨"", mergeColumnsWithNewID node ctx.columnIdCounter 0 0 left.schemas.sources⟩
        (ctx.advance left.schemas.columnNum)
  | requestUnion (window : List Row → List Row → List (List Row) → List UnionRow)
      (left right : PhysicalOpNode) :
      Initialised catalog node ctx (.requestUnion window) [left, right]
        ⟨"", mergeColumnsWithNewID node ctx.columnIdCounter 0 0 left.schemas.sources⟩
        (ctx.advance left.schemas.columnNum)

theorem initialised_of_initSchema {catalog op ctx ctx' schemas}
    (h : initSchema catalog node op producers ctx = some (schemas, ctx')) :
    Initialised catalog node ctx op producers schemas ctx' := by
  unfold initSchema at h
  split at h
  case h_1 => exact .tableProvider h
  case h_2 => exact .requestProvider h
  case h_3 =>
    cases h
    exact .select _ _
  case h_4 =>
    cases h
    exact .rename _ _
  case h_5 =>
    obtain ⟨columns, hcolumns, heq⟩ := map_eq_some_iff.mp h
    cases heq
    exact .constProject hcolumns
  case h_6 =>
    obtain ⟨columns, hcolumns, heq⟩ := map_eq_some_iff.mp h
    cases heq
    exact .simpleProject hcolumns
  case h_7 =>
    obtain ⟨columns, hcolumns, heq⟩ := map_eq_some_iff.mp h
    cases heq
    exact .project hcolumns
  case h_8 =>
    obtain ⟨columns, hcolumns, heq⟩ := map_eq_some_iff.mp h
    cases heq
    exact .windowAggregation _ hcolumns
  case h_9 =>
    cases h
    exact .join _ _ _ _ _
  case h_10 =>
    cases h
    exact .union _ _
  case h_11 =>
    cases h
    exact .requestUnion _ _ _
  case h_12 => cases h

/-- A provider reads a table or the request row. -/
def PhysicalOp.IsProvider : PhysicalOp → Prop
  | .tableProvider _ | .requestProvider _ => True
  | _ => False

/-- The columns of a node that is no provider. -/
theorem Initialised.derived {catalog op ctx ctx' schemas}
    (h : Initialised catalog node ctx op producers schemas ctx') (hop : ¬ op.IsProvider)
    (hbelow : IdsBelow ctx.columnIdCounter producers) :
    Derived node ctx.columnIdCounter ctx'.columnIdCounter producers schemas
      (op.copiedFrom producers) := by
  cases h with
  | tableProvider => exact absurd trivial hop
  | requestProvider => exact absurd trivial hop
  | select keep input => exact derived_mergeColumns hbelow _ fun _ => rfl
  | rename name input => exact derived_mergeColumns hbelow _ fun _ => rfl
  | constProject h => exact derived_constProject h fun _ => rfl
  | simpleProject h =>
    exact derived_project hbelow h (.inl rfl) (fun _ => rfl)
      fun _ _ hlt => absurd hlt (Nat.not_lt_zero _)
  | project h =>
    exact derived_project hbelow h (.inl rfl) (fun _ => rfl)
      fun _ _ hlt => absurd hlt (Nat.not_lt_zero _)
  | windowAggregation appendInput h =>
    refine derived_project hbelow h ?_ (fun _ => rfl) fun _ _ _ => rfl
    cases appendInput with
    | false => exact .inl rfl
    | true => exact .inr rfl
  | join type tested pairs left right =>
    cases type with
    | last => exact derived_joinColumns_last hbelow
    | concat => exact derived_joinedSchemas hbelow
  | union left right => exact derived_mergeColumnsWithNewID hbelow _ fun _ => rfl
  | requestUnion window left right => exact derived_mergeColumnsWithNewID hbelow _ fun _ => rfl

/-! ### Tables -/

/-- An entry of the ids of a table belongs to one of its columns. -/
theorem mem_columnDict {entry} :
    entry ∈ PhysicalPlanContext.columnDict start schema ↔
      ∃ i column, schema[i]? = some column ∧ entry = (column.1, start + i) := by
  unfold PhysicalPlanContext.columnDict
  rw [mem_reverse, List.mem_map]
  constructor
  · rintro ⟨⟨column, i⟩, hmem, rfl⟩
    obtain ⟨hle, hcolumn⟩ := mem_zipIdx_iff_le_and_getElem?_sub.mp hmem
    exact ⟨i - start, column, hcolumn, by rw [Nat.add_sub_cancel' hle]⟩
  · rintro ⟨i, column, hcolumn, rfl⟩
    refine ⟨(column, start + i), ?_, rfl⟩
    rw [mem_zipIdx_iff_le_and_getElem?_sub]
    exact ⟨Nat.le_add_right _ _, by rwa [Nat.add_sub_cancel_left]⟩

theorem mem_of_lookup {entries : List (String × Nat)} (h : entries.lookup name = some id) :
    (name, id) ∈ entries := by
  obtain ⟨before, after, rfl, -⟩ := lookup_eq_some_iff.mp h
  exact mem_append_right _ mem_cons_self

/-- The ids of a table lie in one range, and each belongs to one name. -/
theorem lookup_columnDict (h : (PhysicalPlanContext.columnDict start schema).lookup name = some id)
    :
    start ≤ id ∧ id < start + schema.length := by
  obtain ⟨i, column, hcolumn, heq⟩ := mem_columnDict.mp (mem_of_lookup h)
  have hlt := (List.getElem?_eq_some_iff.mp hcolumn).1
  cases heq
  omega

theorem eq_of_lookup_columnDict {name'}
    (h : (PhysicalPlanContext.columnDict start schema).lookup name = some id)
    (h' : (PhysicalPlanContext.columnDict start schema).lookup name' = some id) : name = name' := by
  obtain ⟨i, column, hcolumn, heq⟩ := mem_columnDict.mp (mem_of_lookup h)
  obtain ⟨j, column', hcolumn', heq'⟩ := mem_columnDict.mp (mem_of_lookup h')
  cases heq
  obtain ⟨rfl, hij⟩ := Prod.mk.inj heq'
  obtain rfl : i = j := Nat.add_left_cancel hij
  rw [hcolumn] at hcolumn'
  cases hcolumn'
  rfl

end HybridSE.Vm
