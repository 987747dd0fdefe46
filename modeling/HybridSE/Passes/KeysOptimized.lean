import HybridSE.Passes.MatchBestIndex
import HybridSE.Vm.SimpleCatalog

/-!
# HybridSE.Passes.KeysOptimized

`GroupAndSortOptimized::KeysOptimized` and `TransformKeysAndOrderExpr` of
`src/passes/physical/group_and_sort_optimized.cc`. The keys of a join or a filter come as two
lists, the left and the right sides of equalities; if an index serves some of the right sides
the provider of the table becomes the provider of the index's partition, and the left sides
that it serves become the index keys, in the order in which the query has them.

`keysOptimized_eq` says what the recursion through projects and renames does, and
`indexed_transformKeysAndOrderExpr` what the chosen index and the bits have to do with each
other.
-/

namespace HybridSE.Passes.GroupAndSort

open HybridSE.Codec HybridSE.Vm List Option

variable {E E' : Type*}

/-! ### The pass -/

/-- A key or order expression: a column with the source column it resolves to, or another
expression. -/
inductive KeyExpr
  | column (source : Option String)
  | expr
  deriving DecidableEq

/-- An `OrderExpression`; the pass leaves one without an expression behind. -/
structure OrderExpression where
  expr : Option KeyExpr
  isAsc : Bool

/-- The source columns of the columns among the expressions; `none` if one does not resolve. -/
def sourceColumns : List KeyExpr → Option (List String)
  | [] => some []
  | .column none :: _ => none
  | .column (some c) :: es => (sourceColumns es).map (c :: ·)
  | .expr :: es => sourceColumns es

/-- `output_bitmap`: the bits of the columns at the places of the columns. -/
def spreadBits : List KeyExpr → List Bool → List Bool
  | .column _ :: es, b :: bs => b :: spreadBits es bs
  | _ :: es, bs => false :: spreadBits es bs
  | [], _ => []

/-- `TransformKeysAndOrderExpr`: the name of the index and `output_bitmap`. -/
def transformKeysAndOrderExpr (groups : List KeyExpr) (order : Option (List OrderExpression))
    (hint : IndexHint) : Option (String × List Bool) := do
  let columns ← sourceColumns groups
  let orderColumns ← sourceColumns ((order.getD []).filterMap OrderExpression.expr)
  if columns = [] then none
  else
    let found := (matchAll columns orderColumns hint).1
    if found.found = false then none
    else if found.indexBitmap.length ≠ columns.length then none
    else some (found.indexName, spreadBits groups found.indexBitmap)

/-- The name of a column of a table. -/
def columnName (t : TableDef) (pos : Nat) : String := ((t.columns[pos]?).map ColumnDef.name).getD ""

/-- The names of the key columns of an index. -/
def keyNames (t : TableDef) (st : Vm.IndexSt) : List String :=
  st.keys.map fun c => columnName t c.1

/-- An index with the names of its columns. -/
def tableIndex (t : TableDef) (st : Vm.IndexSt) : TableIndex where
  name := st.name
  keys := keyNames t st
  ts := st.tsPos.map (columnName t)

theorem nodup_initIndexes (t : TableDef) {ds hint} (h : (hint.map Vm.IndexSt.name).Nodup) :
    ((t.initIndexes ds hint).2.map Vm.IndexSt.name).Nodup := by
  induction ds generalizing hint with
  | nil => exact h
  | cons d ds ih =>
    unfold TableDef.initIndexes
    cases t.indexSt d.2 d.1 with
    | none => exact h
    | some st =>
      refine ih ?_
      split
      · exact h
      · next hnew =>
          rw [map_append, nodup_append]
          refine ⟨h, nodup_singleton _, fun name hname other hother => ?_⟩
          obtain rfl : other = st.name := by simpa using hother
          rintro rfl
          obtain ⟨ix, hix, hsame⟩ := List.mem_map.mp hname
          exact hnew (List.any_eq_true.mpr ⟨ix, hix, beq_iff_eq.mpr hsame⟩)

/-- `index_hint_` of a table, in the order of the map. -/
def plannerHint (t : TableDef) : IndexHint where
  entries := (t.indexHint.map (tableIndex t)).mergeSort fun a b => decide (a.name ≤ b.name)
  nodup := by
    refine ((mergeSort_perm _ _).map TableIndex.name).nodup_iff.mpr ?_
    rw [List.map_map]
    exact nodup_initIndexes t nodup_nil

/-- The operators that the pass looks through. -/
inductive Scan
  | tableProvider (t : TableDef)
  | partitionProvider (t : TableDef) (indexName : String)
  | requestProvider
  | simpleProject (input : Scan)
  | rename (input : Scan)
  | other

/-- The keys of a join or a filter; without right keys (`right_key == nullptr`) they are those of a
group. -/
structure Keys (E : Type*) where
  left : List E
  index : List E
  right : Option (List KeyExpr)
  sort : Option (List OrderExpression)

/-- The elements with the given bit. -/
def withBit (value : Bool) (xs : List E) (bitmap : List Bool) : List E :=
  (xs.zip bitmap).filterMap fun e => if e.2 = value then some e.1 else none

/-- The order that is left: its direction. -/
def clearOrders : List OrderExpression → List OrderExpression
  | [] => []
  | first :: _ => [⟨none, first.isAsc⟩]

/-- The keys after the pass. -/
def Keys.split (keys : Keys E) (bitmap : List Bool) : Keys E where
  left := withBit false keys.left bitmap
  index := withBit true keys.left bitmap
  right := keys.right.map fun right => withBit false right bitmap
  sort := keys.sort.map clearOrders

/-- `KeysOptimized`; `asKey` is how a left expression counts as a key of the table. -/
def keysOptimized (asKey : E → KeyExpr) : Scan → Keys E → Option (Scan × Keys E)
  | scan, keys =>
    if keys.left = [] ∨ keys.right = some [] then none
    else
      match scan with
      | .tableProvider t =>
        (transformKeysAndOrderExpr (keys.right.getD (keys.left.map asKey)) keys.sort
          (plannerHint t)).map fun found => (.partitionProvider t found.1, keys.split found.2)
      | .simpleProject input =>
        (keysOptimized asKey input keys).map fun r => (.simpleProject r.1, r.2)
      | .rename input => (keysOptimized asKey input keys).map fun r => (.rename r.1, r.2)
      | .partitionProvider _ _ | .requestProvider | .other => none

/-! ### What it returns -/

namespace Scan

/-- The table below projects and renames. -/
def table : Scan → Option TableDef
  | tableProvider t => some t
  | simpleProject input | rename input => input.table
  | partitionProvider _ _ | requestProvider | other => none

/-- The same operators over the partition of an index. -/
def withIndex (indexName : String) : Scan → Scan
  | tableProvider t => partitionProvider t indexName
  | simpleProject input => simpleProject (input.withIndex indexName)
  | rename input => rename (input.withIndex indexName)
  | scan => scan

/-- The table and the index of the partition below projects and renames. -/
def partition : Scan → Option (TableDef × String)
  | partitionProvider t indexName => some (t, indexName)
  | simpleProject input | rename input => input.partition
  | tableProvider _ | requestProvider | other => none

theorem partition_withIndex {scan : Scan} {t} (h : scan.table = some t) (indexName : String) :
    (scan.withIndex indexName).partition = some (t, indexName) := by
  induction scan with
  | tableProvider t' =>
    cases h
    rfl
  | simpleProject input ih => exact ih h
  | rename input ih => exact ih h
  | partitionProvider t' indexName' => cases h
  | requestProvider => cases h
  | other => cases h

end Scan

theorem keysOptimized_eq (asKey : E → KeyExpr) (scan : Scan) (keys : Keys E) :
    keysOptimized asKey scan keys =
      if keys.left = [] ∨ keys.right = some [] then none
      else scan.table.bind fun t =>
        (transformKeysAndOrderExpr (keys.right.getD (keys.left.map asKey)) keys.sort
          (plannerHint t)).map fun found => (scan.withIndex found.1, keys.split found.2) := by
  induction scan with
  | tableProvider t =>
    unfold keysOptimized
    split
    · rfl
    · rfl
  | simpleProject input ih | rename input ih =>
    unfold keysOptimized
    split
    · rfl
    · next hkeys =>
        dsimp only [Scan.table]
        rw [ih, if_neg hkeys]
        cases input.table with
        | none => rfl
        | some t =>
          dsimp only [bind_some]
          rw [Option.map_map]
          rfl
  | partitionProvider t indexName =>
    unfold keysOptimized
    split <;> rfl
  | requestProvider | other =>
    unfold keysOptimized
    split <;> rfl

/-! ### The index and its bits -/

/-- A match names an index, and the marked columns are its key columns. -/
def Indexed (columns : List String) (hint : IndexHint) (m : Match) (ix : TableIndex) : Prop :=
  ix ∈ hint.entries ∧ m.indexName = ix.name ∧ m.indexBitmap.length = columns.length ∧
    columnSet columns m.indexBitmap = ix.keys.toFinset

theorem improve_cases (hint : IndexHint) (best new : Match) :
    improve hint best new = best ∨
      improve hint best new = ⟨true, best.indexName, best.indexBitmap⟩ ∧ best.indexName ≠ "" ∨
      improve hint best new = new := by
  obtain ⟨found, name, bitmap⟩ := new
  unfold improve
  cases found with
  | false => exact .inl rfl
  | true =>
    rw [if_pos rfl]
    split
    · exact .inr (.inr rfl)
    · next hname =>
        split
        · exact .inr (.inr rfl)
        · exact .inr (.inl ⟨rfl, hname⟩)

/-- Whatever a call finds is an index with its key columns. -/
theorem matchBestIndex_indexed (columns orderColumns : List String) (hint : IndexHint) (n : Nat) :
    ∀ bitmap : List Bool, bitmap.length = columns.length →
      (matchBestIndex columns orderColumns hint n bitmap).1 = .none ∨
        (matchBestIndex columns orderColumns hint n bitmap).1.found = true ∧
          ∃ ix, Indexed columns hint (matchBestIndex columns orderColumns hint n bitmap).1 ix := by
  induction n with
  | zero => exact fun _ _ => .inl rfl
  | succ n ih =>
    intro bitmap hlen
    rw [matchBestIndex]
    split
    · exact .inl rfl
    · cases hexact : exactMatch hint orderColumns (columnSet columns bitmap) with
      | some ix =>
        have htest := find?_some hexact
        rw [Bool.and_eq_true, decide_eq_true_eq] at htest
        exact .inr ⟨rfl, ix, mem_of_find?_eq_some hexact, rfl, hlen, htest.2⟩
      | none =>
        rw [matchLoop_eq (matchBestIndex_bitmap columns orderColumns hint n)]
        -- the loop holds nothing, or a result of one of the calls
        refine List.foldlRecOn (motive := fun out : Match =>
          out = .none ∨ out.found = true ∧ ∃ ix, Indexed columns hint out ix) _ _ (.inl rfl) ?_
        intro best hbest i _
        split
        · rcases improve_cases hint best (matchBestIndex columns orderColumns hint n
            (bitmap.set i false)).1 with hsame | ⟨hkeep, hname⟩ | hnew
          · simp [hsame, hbest]
          · rw [hkeep]
            rcases hbest with hnone | ⟨-, hindexed⟩
            · exact absurd (by rw [hnone]; rfl) hname
            · exact .inr ⟨rfl, hindexed⟩
          · rw [hnew]
            exact ih (bitmap.set i false) (by rw [length_set, hlen])
        · exact hbest

/-- The index that `TransformKeysAndOrderExpr` returns, and the bits of the columns. -/
theorem indexed_transformKeysAndOrderExpr {groups order hint name bitmap}
    (h : transformKeysAndOrderExpr groups order hint = some (name, bitmap)) :
    ∃ columns m ix, sourceColumns groups = some columns ∧ Indexed columns hint m ix ∧
      name = ix.name ∧ bitmap = spreadBits groups m.indexBitmap := by
  obtain ⟨columns, hcolumns, h⟩ := bind_eq_some_iff.mp h
  obtain ⟨orderColumns, -, h⟩ := bind_eq_some_iff.mp h
  split at h
  · cases h
  · dsimp only at h
    split at h
    · cases h
    · next hfound =>
        split at h
        · cases h
        · cases h
          rcases matchBestIndex_indexed columns orderColumns hint (columns.length + 1)
            (List.replicate columns.length true) (by simp) with hnone | ⟨-, ix, hindexed⟩
          · exact absurd (congrArg Match.found hnone) hfound
          · exact ⟨columns, _, ix, hcolumns, hindexed, hindexed.2.1, rfl⟩

/-- The bit of a key expression whose column has the bit `f`. -/
def KeyExpr.bit (f : String → Bool) : KeyExpr → Bool
  | column (some c) => f c
  | column none => false
  | expr => false

theorem spreadBits_map {groups columns} (h : sourceColumns groups = some columns)
    (f : String → Bool) : spreadBits groups (columns.map f) = groups.map (KeyExpr.bit f) := by
  induction groups generalizing columns with
  | nil => rfl
  | cons e es ih =>
    cases e with
    | expr => exact congrArg (false :: ·) (ih h)
    | column source =>
      cases source with
      | none => cases h
      | some c =>
        obtain ⟨rest, hrest, rfl⟩ := map_eq_some_iff.mp h
        exact congrArg (f c :: ·) (ih hrest)

end HybridSE.Passes.GroupAndSort
