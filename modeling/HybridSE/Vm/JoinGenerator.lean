import HybridSE.Vm.DataHandler
import HybridSE.Vm.KeyGenerator

/-!
# HybridSE.Vm.JoinGenerator

`PartitionGenerator`, `SortGenerator`, `JoinGenerator` and `LastJoinRunner::Run` of
`src/vm/runner.cc`.

A generator that is not valid is `none`. A key generator gives the key values of a row,
`none` for a row of size zero; `gen` makes the string of them. The order column is an
`int64_t`, which `SortGenerator` casts to `uint64_t`. `std::sort` is not stable: it is a
parameter of which only the order of the result is known (`StdSort`).

However a table reaches the last join, the loop over it picks the first row of the
sorted table that it accepts (`joinTable_eq`, `rowLastJoinTable_eq`).
-/

namespace HybridSE.Vm

open HybridSE.Lib HybridSE.Codec

variable {L R : Type*}

/-! ### Partitions -/

/-- The key values that a `KeyGenerator` computes from a row. -/
abbrev KeyGen (R : Type*) : Type _ := R → Option (List Value)

/-- `PartitionGenerator::Partition` of a table. -/
def partitionTable (keyGen : KeyGen R) (table : TableHandler R) : Option (PartitionHandler R) :=
  table.iterator.map fun rows =>
    { added := rows.map fun x => (gen (keyGen x.2), x.1, x.2)
      orderType := table.orderType }

/-- `PartitionGenerator::Partition` of a partition. -/
def partitionPartition (keyGen : KeyGen R) (p : PartitionHandler R) : PartitionHandler R :=
  { added := p.addAll fun key x => (key ++ keySep :: gen (keyGen x.2), x.1, x.2)
    orderType := p.orderType }

/-- `PartitionGenerator::Partition`. -/
def partitionInput (keyGen : KeyGen R) : DataHandler R → Option (PartitionHandler R)
  | .partition p => some (partitionPartition keyGen p)
  | .table t => partitionTable keyGen t
  | .row _ => none

/-! ### Sorting -/

/-- `std::sort` with `AscComparor` or `DescComparor`. -/
structure StdSort (R : Type*) where
  sort : Bool → List (Nat × R) → List (Nat × R)
  perm : ∀ (isAsc : Bool) (rows : List (Nat × R)), (sort isAsc rows).Perm rows
  sorted : ∀ (isAsc : Bool) (rows : List (Nat × R)),
    (sort isAsc rows).Pairwise fun x y => if isAsc then x.1 ≤ y.1 else y.1 ≤ x.1

/-- A stable sort. -/
def stableSort : StdSort R where
  sort isAsc rows := rows.mergeSort fun x y => if isAsc then decide (x.1 ≤ y.1) else decide (y.1 ≤ x.1)
  perm _ _ := List.mergeSort_perm _ _
  sorted isAsc rows := by
    refine (List.pairwise_mergeSort ?_ ?_ _).imp fun {x y} hxy => ?_
    · intro x y z hxy hyz
      cases isAsc <;> simp only [decide_eq_true_eq, Bool.false_eq_true, if_false, if_true] at hxy hyz ⊢ <;>
        omega
    · intro x y
      cases isAsc <;> simp only [Bool.or_eq_true, decide_eq_true_eq, Bool.false_eq_true, if_false,
        if_true] <;> omega
    · cases isAsc <;> simpa using hxy

@[simp] theorem StdSort.sort_nil (std : StdSort R) (isAsc : Bool) : std.sort isAsc [] = [] :=
  (std.perm isAsc []).eq_nil

/-- `SortGenerator`. -/
structure SortGenerator (R : Type*) where
  isValid : Bool
  isAsc : Bool
  orderGen : Option (R → BitVec 64)

/-- `SortGenerator::Sort` of a table; `none` is a null pointer. -/
def SortGenerator.sort (s : SortGenerator R) (std : StdSort R) (table : Option (TableHandler R))
    (reverse : Bool) : Option (TableHandler R) :=
  let isAsc := if reverse then !s.isAsc else s.isAsc
  match table with
  | none => none
  | some t =>
    if !s.isValid then some t
    else if s.orderGen.isNone && (isAsc == decide (t.orderType = .kAscOrder)) then some t
    else
      match t.iterator with
      | none => none
      | some rows =>
        match s.orderGen with
        | some order => some
            { iterator := some (std.sort isAsc (rows.map fun x => ((order x.2).toNat, x.2)))
              orderType := if isAsc then .kAscOrder else .kDescOrder }
        | none =>
          match t.orderType with
          | .kDescOrder => some
              { iterator := some (if isAsc then rows.reverse else rows)
                orderType := if isAsc then t.orderType.flip else t.orderType }
          | .kAscOrder => some
              { iterator := some (if isAsc then rows else rows.reverse)
                orderType := if isAsc then t.orderType else t.orderType.flip }
          | .kNoneOrder => none

/-! ### The last join -/

/-- A row of the join: `Row(left_slices, left, right_slices, right)`, where the right
slices may be empty, or `Row()`. -/
inductive JoinedRow (L R : Type*)
  | row (left : L) (right : Option R)
  | empty
  deriving DecidableEq

/-- `JoinGenerator`. -/
structure JoinGenerator (L R : Type*) where
  conditionGen : Option (L → R → Bool)
  leftKeyGen : Option (KeyGen L)
  rightGroupGen : Option (KeyGen R)
  indexKeyGen : Option (KeyGen L)
  rightSortGen : SortGenerator R

/-- `Runner::RowLastJoinTable`. -/
def joinTable (sort : SortGenerator R) (cond : Option (L → R → Bool)) (std : StdSort R) (left : L)
    (right : Option (TableHandler R)) : JoinedRow L R :=
  match sort.sort std right true with
  | none => .row left none
  | some table =>
    match table.iterator with
    | none => .row left none
    | some [] => .row left none
    | some (x :: xs) =>
      match cond with
      | none => .row left (some x.2)
      | some c => .row left (((x :: xs).map Prod.snd).find? (c left))

namespace JoinGenerator

variable (g : JoinGenerator L R) (std : StdSort R)

/-- Does the loop of `JoinGenerator::RowLastJoinTable` return at this row? -/
def accepts (left : L) (right : R) : Bool :=
  (match g.rightGroupGen, g.leftKeyGen with
    | some rightKey, some leftKey => gen (leftKey left) == gen (rightKey right)
    | _, _ => true) &&
  (match g.conditionGen with
    | some c => c left right
    | none => true)

/-- `JoinGenerator::RowLastJoinTable`. -/
def rowLastJoinTable (left : L) (right : Option (TableHandler R)) : JoinedRow L R :=
  match (if g.rightSortGen.isValid then g.rightSortGen.sort std right true else right) with
  | none => .row left none
  | some table =>
    match table.iterator with
    | none => .row left none
    | some [] => .row left none
    | some (x :: xs) =>
      if g.leftKeyGen.isNone && g.conditionGen.isNone then .row left (some x.2)
      else .row left (((x :: xs).map Prod.snd).find? (g.accepts left))

/-- `JoinGenerator::RowLastJoinPartition`. -/
def rowLastJoinPartition (left : L) (right : PartitionHandler R) : JoinedRow L R :=
  match g.indexKeyGen with
  | none => .empty
  | some indexKey => g.rowLastJoinTable std left (some (right.getSegment (gen (indexKey left))))

/-- `JoinGenerator::RowLastJoin`. -/
def rowLastJoin (left : L) : DataHandler R → JoinedRow L R
  | .partition p => g.rowLastJoinPartition std left p
  | .table t => g.rowLastJoinTable std left (some t)
  | .row r => g.rowLastJoinTable std left
      (some { iterator := some [(0, r)], orderType := .kNoneOrder })

/-- The key that `TableJoin` looks up in a right partition. -/
def tableLookup (left : L) : List Byte :=
  let keyStr := match g.indexKeyGen with
    | some indexKey => gen (indexKey left)
    | none => []
  match g.leftKeyGen with
  | some leftKey => if keyStr = [] then gen (leftKey left) else keyStr ++ keySep :: gen (leftKey left)
  | none => keyStr

/-- The key that `PartitionJoin` looks up in a right partition. -/
def partitionLookup (leftKey : KeyGen L) (left : L) : List Byte :=
  match g.indexKeyGen with
  | some indexKey => gen (indexKey left) ++ keySep :: gen (leftKey left)
  | none => gen (leftKey left)

/-- The loop of `TableJoin` over the left rows. -/
def joinRows (left : TableHandler L) (join : L → JoinedRow L R) :
    Option (TableHandler (JoinedRow L R)) :=
  left.iterator.map fun rows =>
    { iterator := some (rows.map fun x => (x.1, join x.2))
      orderType := left.orderType }

/-- `JoinGenerator::TableJoin` with a right table. -/
def tableJoinTable (left : TableHandler L) (right : TableHandler R) :
    Option (TableHandler (JoinedRow L R)) :=
  joinRows left fun l => joinTable g.rightSortGen g.conditionGen std l (some right)

/-- `JoinGenerator::TableJoin` with a right partition. -/
def tableJoinPartition (left : TableHandler L) (right : PartitionHandler R) :
    Option (TableHandler (JoinedRow L R)) :=
  if g.leftKeyGen.isNone && g.indexKeyGen.isNone then none
  else joinRows left fun l =>
    joinTable g.rightSortGen g.conditionGen std l (some (right.getSegment (g.tableLookup l)))

/-- The loop of `PartitionJoin` over the left segments. -/
def joinSegments (left : PartitionHandler L) (join : L → JoinedRow L R) :
    PartitionHandler (JoinedRow L R) :=
  { added := left.addAll fun key x => (key, x.1, join x.2)
    orderType := left.orderType }

/-- `JoinGenerator::PartitionJoin` with a right table. -/
def partitionJoinTable (left : PartitionHandler L) (right : TableHandler R) :
    Option (PartitionHandler (JoinedRow L R)) :=
  some (joinSegments left fun l => joinTable g.rightSortGen g.conditionGen std l (some right))

/-- `JoinGenerator::PartitionJoin` with a right partition. -/
def partitionJoinPartition (left : PartitionHandler L) (right : PartitionHandler R) :
    Option (PartitionHandler (JoinedRow L R)) :=
  match g.leftKeyGen with
  | none => none
  | some leftKey => some (joinSegments left fun l =>
    joinTable g.rightSortGen g.conditionGen std l
      (some (right.getSegment (g.partitionLookup leftKey l))))

/-- The right input of a join over tables and partitions, grouped if there are keys to
group by. -/
def groupedRight (right : DataHandler R) : Option (DataHandler R) :=
  match g.rightGroupGen with
  | some rightKey => (partitionInput rightKey right).map .partition
  | none => some right

/-- `LastJoinRunner::Run`; a row as the right input of a table or a partition is a null
table to it. -/
def run (left : DataHandler L) (right : DataHandler R) : Option (DataHandler (JoinedRow L R)) :=
  match left with
  | .table l =>
    match g.groupedRight right with
    | some (.partition r) => (g.tableJoinPartition std l r).map .table
    | some (.table r) => (g.tableJoinTable std l r).map .table
    | some (.row _) =>
      (joinRows l fun x => joinTable g.rightSortGen g.conditionGen std x none).map .table
    | none => none
  | .partition l =>
    match g.groupedRight right with
    | some (.partition r) => (g.partitionJoinPartition std l r).map .partition
    | some (.table r) => (g.partitionJoinTable std l r).map .partition
    | some (.row _) => some (.partition
        (joinSegments l fun x => joinTable g.rightSortGen g.conditionGen std x none))
    | none => none
  | .row l => some (.row (g.rowLastJoin std l right))

end JoinGenerator

/-! ### What the loops pick -/

/-- Accepted by the condition, if there is one. -/
def condHolds (cond : Option (L → R → Bool)) (left : L) (right : R) : Bool :=
  match cond with
  | some c => c left right
  | none => true

theorem joinTable_eq (sort : SortGenerator R) (cond : Option (L → R → Bool)) (std : StdSort R)
    (left : L) (right : Option (TableHandler R)) :
    joinTable sort cond std left right =
      .row left ((TableHandler.visited (sort.sort std right true)).find? (condHolds cond left)) := by
  unfold joinTable TableHandler.visited
  rcases sort.sort std right true with _ | ⟨_ | _ | ⟨x, xs⟩, o⟩
  · rfl
  · rfl
  · rfl
  · cases cond with
    | none => rfl
    | some c => rfl

theorem JoinGenerator.rowLastJoinTable_eq (g : JoinGenerator L R) (std : StdSort R) (left : L)
    (right : Option (TableHandler R)) :
    g.rowLastJoinTable std left right =
      .row left ((TableHandler.visited (g.rightSortGen.sort std right true)).find?
        (g.accepts left)) := by
  have hsort : (if g.rightSortGen.isValid then g.rightSortGen.sort std right true else right) =
      g.rightSortGen.sort std right true := by
    split
    case isTrue => rfl
    case isFalse h =>
      cases right with
      | none => rfl
      | some t => simp [SortGenerator.sort, h]
  unfold rowLastJoinTable TableHandler.visited
  rw [hsort]
  rcases g.rightSortGen.sort std right true with _ | ⟨_ | _ | ⟨x, xs⟩, o⟩
  · rfl
  · rfl
  · rfl
  · dsimp only
    split
    case isFalse => rfl
    case isTrue h =>
      -- without keys and condition every row is accepted
      obtain ⟨hkey, hcond⟩ := Bool.and_eq_true _ _ ▸ h
      have haccepts : g.accepts left x.2 = true := by
        simp [accepts, Option.isNone_iff_eq_none.mp hkey, Option.isNone_iff_eq_none.mp hcond]
      simp [haccepts]

end HybridSE.Vm
