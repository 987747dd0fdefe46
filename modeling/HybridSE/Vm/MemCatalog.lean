import HybridSE.Lib.StepRun
import HybridSE.Vm.JoinGenerator

/-!
# HybridSE.Vm.MemCatalog

`MemTimeTableHandler` and `MemPartitionHandler` of `src/vm/mem_catalog.cc`, with the
operations that change them.

Both keep a flag `order_type_`, which `Sort` sets and `Reverse` turns around. The operations
that add a row do not look at it. So the flag tells the truth throughout a run of calls
exactly if every row that is added while the flag is set belongs where it is put
(`orderType_honest_iff`).
-/

namespace HybridSE.Vm

open HybridSE.Lib List

variable {R : Type*}

/-! ### Tables -/

/-- `MemTimeTableHandler`. -/
structure MemTimeTableHandler (R : Type*) where
  table : List (Nat × R)
  orderType : OrderType
  deriving DecidableEq

/-- A call that changes a table. -/
inductive TableCall (R : Type*)
  | addRow (key : Nat) (row : R)
  | addFrontRow (key : Nat) (row : R)
  | popFrontRow
  | popBackRow
  | sort (isAsc : Bool)
  | reverse

/-- The flag that `Sort` sets. -/
def OrderType.ofAsc (isAsc : Bool) : OrderType := if isAsc then .kAscOrder else .kDescOrder

namespace MemTimeTableHandler

/-- A new table. -/
def empty : MemTimeTableHandler R := ⟨[], .kNoneOrder⟩

/-- `AddRow`. -/
def addRow (t : MemTimeTableHandler R) (key : Nat) (row : R) : MemTimeTableHandler R :=
  { t with table := t.table ++ [(key, row)] }

/-- `AddFrontRow`. -/
def addFrontRow (t : MemTimeTableHandler R) (key : Nat) (row : R) : MemTimeTableHandler R :=
  { t with table := (key, row) :: t.table }

/-- `PopFrontRow` of a table with a row; of an empty `std::deque` it is undefined. -/
def popFrontRow (t : MemTimeTableHandler R) : MemTimeTableHandler R :=
  { t with table := t.table.tail }

/-- `PopBackRow` of a table with a row. -/
def popBackRow (t : MemTimeTableHandler R) : MemTimeTableHandler R :=
  { t with table := t.table.dropLast }

/-- `Sort`. -/
def sort (std : StdSort R) (t : MemTimeTableHandler R) (isAsc : Bool) : MemTimeTableHandler R where
  table := std.sort isAsc t.table
  orderType := .ofAsc isAsc

/-- `Reverse`. -/
def reverse (t : MemTimeTableHandler R) : MemTimeTableHandler R where
  table := t.table.reverse
  orderType := t.orderType.flip

/-- One call. -/
def call (std : StdSort R) (t : MemTimeTableHandler R) : TableCall R → MemTimeTableHandler R
  | .addRow key row => t.addRow key row
  | .addFrontRow key row => t.addFrontRow key row
  | .popFrontRow => t.popFrontRow
  | .popBackRow => t.popBackRow
  | .sort isAsc => t.sort std isAsc
  | .reverse => t.reverse

end MemTimeTableHandler

/-! ### Partitions -/

/-- The segments of a partition, in the order of `std::greater` on their keys. -/
def KeysDescend (partitions : List (List Byte × List (Nat × R))) : Prop :=
  partitions.Pairwise fun a b => b.1 < a.1

/-- `MemPartitionHandler`. -/
structure MemPartitionHandler (R : Type*) where
  partitions : List (List Byte × List (Nat × R))
  orderType : OrderType
  descend : KeysDescend partitions

/-- A call that changes a partition. -/
inductive PartitionCall (R : Type*)
  | addRow (key : List Byte) (ts : Nat) (row : R)
  | sort (isAsc : Bool)
  | reverse

/-- A row is appended to the segment of its key, which is inserted if it is not there. -/
def addToSegment (key : List Byte) (x : Nat × R) :
    List (List Byte × List (Nat × R)) → List (List Byte × List (Nat × R))
  | [] => [(key, [x])]
  | (k, rows) :: rest =>
    if k = key then (k, rows ++ [x]) :: rest
    else if k < key then (key, [x]) :: (k, rows) :: rest
    else (k, rows) :: addToSegment key x rest

/-- The rows under a key. -/
def segmentOf (partitions : List (List Byte × List (Nat × R))) (key : List Byte) :
    List (Nat × R) :=
  (partitions.lookup key).getD []

variable {partitions : List (List Byte × List (Nat × R))}

theorem KeysDescend.map {S : Type*} (h : KeysDescend partitions)
    (f : List (Nat × R) → List (Nat × S)) : KeysDescend (partitions.map fun s => (s.1, f s.2)) :=
  pairwise_map.mpr h

theorem ne_of_key_lt {a b : List Byte} (h : a < b) : a ≠ b := by
  rintro rfl
  exact List.lt_irrefl a h

theorem segmentOf_cons (k : List Byte) (rows : List (Nat × R))
    (rest : List (List Byte × List (Nat × R))) (key : List Byte) :
    segmentOf ((k, rows) :: rest) key = if key = k then rows else segmentOf rest key := by
  unfold segmentOf
  by_cases h : key = k
  · rw [if_pos h, lookup_cons, beq_iff_eq.mpr h]
    rfl
  · rw [if_neg h, lookup_cons, beq_eq_false_iff_ne.mpr h]

/-- A key that is above all others has no segment. -/
theorem segmentOf_eq_nil {key} (h : ∀ s ∈ partitions, s.1 ≠ key) :
    segmentOf partitions key = [] := by
  induction partitions with
  | nil => rfl
  | cons s rest ih =>
    obtain ⟨k, rows⟩ := s
    rw [segmentOf_cons, if_neg fun heq => h (k, rows) mem_cons_self heq.symm]
    exact ih fun s hs => h s (mem_cons_of_mem _ hs)

/-- The rows under a key are those of a segment, or there are none. -/
theorem segmentOf_mem (partitions : List (List Byte × List (Nat × R))) (key : List Byte) :
    segmentOf partitions key = [] ∨ (key, segmentOf partitions key) ∈ partitions := by
  induction partitions with
  | nil => exact .inl rfl
  | cons s rest ih =>
    obtain ⟨k, rows⟩ := s
    rw [segmentOf_cons]
    by_cases h : key = k
    · simp [h]
    · rw [if_neg h]
      exact ih.imp_right (mem_cons_of_mem _)

/-- The segments after a row is added. -/
theorem mem_addToSegment (h : KeysDescend partitions) {key : List Byte} {x s} :
    s ∈ addToSegment key x partitions ↔
      (s ∈ partitions ∧ s.1 ≠ key) ∨ s = (key, segmentOf partitions key ++ [x]) := by
  induction partitions with
  | nil => simp [addToSegment, segmentOf]
  | cons t rest ih =>
    obtain ⟨k, rows⟩ := t
    obtain ⟨hk, hrest⟩ := pairwise_cons.mp h
    rw [addToSegment, segmentOf_cons]
    by_cases heq : k = key
    · subst heq
      have hne : ∀ s ∈ rest, s.1 ≠ k := fun s hs => ne_of_key_lt (hk s hs)
      rw [if_pos rfl, if_pos rfl, mem_cons, mem_cons]
      constructor
      · rintro (rfl | hs)
        · exact .inr rfl
        · exact .inl ⟨.inr hs, hne s hs⟩
      · rintro (⟨rfl | hs, hs'⟩ | rfl)
        · exact absurd rfl hs'
        · exact .inr hs
        · exact .inl rfl
    · rw [if_neg heq, if_neg (Ne.symm heq)]
      by_cases hlt : k < key
      · have hne : ∀ s ∈ rest, s.1 ≠ key := fun s hs => ne_of_key_lt (List.lt_trans (hk s hs) hlt)
        rw [if_pos hlt, segmentOf_eq_nil hne, mem_cons, mem_cons]
        constructor
        · rintro (rfl | rfl | hs)
          · exact .inr rfl
          · exact .inl ⟨.inl rfl, heq⟩
          · exact .inl ⟨.inr hs, hne s hs⟩
        · rintro (⟨hs, -⟩ | rfl)
          · exact .inr hs
          · exact .inl rfl
      · rw [if_neg hlt, mem_cons, mem_cons, ih hrest]
        constructor
        · rintro (rfl | ⟨hs, hs'⟩ | rfl)
          · exact .inl ⟨.inl rfl, heq⟩
          · exact .inl ⟨.inr hs, hs'⟩
          · exact .inr rfl
        · rintro (⟨rfl | hs, hs'⟩ | rfl)
          · exact .inl rfl
          · exact .inr (.inl ⟨hs, hs'⟩)
          · exact .inr (.inr rfl)

theorem KeysDescend.addToSegment (h : KeysDescend partitions) (key : List Byte) (x : Nat × R) :
    KeysDescend (addToSegment key x partitions) := by
  induction partitions with
  | nil => exact pairwise_singleton _ _
  | cons t rest ih =>
    obtain ⟨k, rows⟩ := t
    obtain ⟨hk, hrest⟩ := pairwise_cons.mp h
    rw [Vm.addToSegment]
    by_cases heq : k = key
    · rw [if_pos heq]
      exact pairwise_cons.mpr ⟨hk, hrest⟩
    · rw [if_neg heq]
      by_cases hlt : k < key
      · rw [if_pos hlt]
        refine pairwise_cons.mpr ⟨fun s hs => ?_, h⟩
        rcases mem_cons.mp hs with rfl | hs
        · exact hlt
        · exact List.lt_trans (hk s hs) hlt
      · rw [if_neg hlt]
        refine pairwise_cons.mpr ⟨fun s hs => ?_, ih hrest⟩
        rcases (mem_addToSegment hrest).mp hs with ⟨hs, -⟩ | rfl
        · exact hk s hs
        · by_contra hle
          exact heq (List.le_antisymm hle hlt)

namespace MemPartitionHandler

/-- A new partition. -/
def empty : MemPartitionHandler R := ⟨[], .kNoneOrder, List.Pairwise.nil⟩

/-- `AddRow`. -/
def addRow (p : MemPartitionHandler R) (key : List Byte) (ts : Nat) (row : R) :
    MemPartitionHandler R where
  partitions := addToSegment key (ts, row) p.partitions
  orderType := p.orderType
  descend := p.descend.addToSegment key (ts, row)

/-- `Sort`. -/
def sort (std : StdSort R) (p : MemPartitionHandler R) (isAsc : Bool) : MemPartitionHandler R where
  partitions := p.partitions.map fun s => (s.1, std.sort isAsc s.2)
  orderType := .ofAsc isAsc
  descend := p.descend.map _

/-- `Reverse`. -/
def reverse (p : MemPartitionHandler R) : MemPartitionHandler R where
  partitions := p.partitions.map fun s => (s.1, s.2.reverse)
  orderType := p.orderType.flip
  descend := p.descend.map _

/-- One call. -/
def call (std : StdSort R) (p : MemPartitionHandler R) : PartitionCall R → MemPartitionHandler R
  | .addRow key ts row => p.addRow key ts row
  | .sort isAsc => p.sort std isAsc
  | .reverse => p.reverse

end MemPartitionHandler

/-! ### The order flag -/

/-- The order that a flag stands for. -/
def OrderType.InOrder : OrderType → Nat → Nat → Prop
  | .kNoneOrder, _, _ => True
  | .kAscOrder, a, b => a ≤ b
  | .kDescOrder, a, b => b ≤ a

/-- The keys of some rows are in the order that a flag names. -/
def OrderType.Describes (o : OrderType) (rows : List (Nat × R)) : Prop :=
  (o = .kAscOrder → rows.Pairwise fun x y => x.1 ≤ y.1) ∧
    (o = .kDescOrder → rows.Pairwise fun x y => y.1 ≤ x.1)

namespace OrderType

variable {o : OrderType} {rows : List (Nat × R)} {x : Nat × R}

theorem describes_iff : o.Describes rows ↔ rows.Pairwise fun x y => o.InOrder x.1 y.1 := by
  cases o with
  | kNoneOrder => exact iff_of_true ⟨nofun, nofun⟩ (pairwise_of_forall fun _ _ => trivial)
  | kDescOrder => exact ⟨fun h => h.2 rfl, fun h => ⟨nofun, fun _ => h⟩⟩
  | kAscOrder => exact ⟨fun h => h.1 rfl, fun h => ⟨fun _ => h, nofun⟩⟩

theorem describes_nil (o : OrderType) : o.Describes ([] : List (Nat × R)) :=
  describes_iff.mpr List.Pairwise.nil

theorem Describes.sublist {rows'} (h : o.Describes rows) (hsub : rows'.Sublist rows) :
    o.Describes rows' :=
  describes_iff.mpr ((describes_iff.mp h).sublist hsub)

theorem describes_concat (h : o.Describes rows) :
    o.Describes (rows ++ [x]) ↔ ∀ y ∈ rows, o.InOrder y.1 x.1 := by
  rw [describes_iff, pairwise_append]
  constructor
  · exact fun h y hy => h.2.2 y hy x mem_cons_self
  · refine fun hx => ⟨describes_iff.mp h, pairwise_singleton _ _, fun y hy z hz => ?_⟩
    rw [mem_singleton.mp hz]
    exact hx y hy

theorem describes_cons (h : o.Describes rows) :
    o.Describes (x :: rows) ↔ ∀ y ∈ rows, o.InOrder x.1 y.1 := by
  rw [describes_iff, pairwise_cons]
  exact ⟨fun h => h.1, fun hx => ⟨hx, describes_iff.mp h⟩⟩

theorem Describes.reverse (h : o.Describes rows) : o.flip.Describes rows.reverse := by
  refine describes_iff.mpr (pairwise_reverse.mpr ((describes_iff.mp h).imp ?_))
  cases o <;> exact id

theorem describes_sort (std : StdSort R) (isAsc : Bool) (rows : List (Nat × R)) :
    (ofAsc isAsc).Describes (std.sort isAsc rows) := by
  refine describes_iff.mpr ((std.sorted isAsc rows).imp ?_)
  cases isAsc <;> exact id

end OrderType

namespace MemTimeTableHandler

/-- The flag of a table tells the truth. -/
def Honest (t : MemTimeTableHandler R) : Prop := t.orderType.Describes t.table

/-- A row that a call adds belongs at the end at which it is added. -/
def Fits (t : MemTimeTableHandler R) : TableCall R → Prop
  | .addRow key _ => ∀ x ∈ t.table, t.orderType.InOrder x.1 key
  | .addFrontRow key _ => ∀ x ∈ t.table, t.orderType.InOrder key x.1
  | _ => True

/-- A call leaves an honest flag honest exactly if its row fits. -/
theorem honest_call_iff (std : StdSort R) (t : MemTimeTableHandler R) (c : TableCall R)
    (h : t.Honest) : (t.call std c).Honest ↔ t.Fits c := by
  cases c with
  | addRow key row => exact OrderType.describes_concat h
  | addFrontRow key row => exact OrderType.describes_cons h
  | popFrontRow => exact iff_of_true (h.sublist (tail_sublist _)) trivial
  | popBackRow => exact iff_of_true (h.sublist (dropLast_sublist _)) trivial
  | sort isAsc => exact iff_of_true (OrderType.describes_sort std isAsc _) trivial
  | reverse => exact iff_of_true h.reverse trivial

end MemTimeTableHandler

namespace MemPartitionHandler

/-- The flag of a partition tells the truth about every segment. -/
def Honest (p : MemPartitionHandler R) : Prop :=
  ∀ s ∈ p.partitions, p.orderType.Describes s.2

/-- A row that a call adds belongs at the end of its segment. -/
def Fits (p : MemPartitionHandler R) : PartitionCall R → Prop
  | .addRow key ts _ => ∀ x ∈ segmentOf p.partitions key, p.orderType.InOrder x.1 ts
  | _ => True

theorem Honest.segmentOf {p : MemPartitionHandler R} (h : p.Honest) (key : List Byte) :
    p.orderType.Describes (segmentOf p.partitions key) := by
  rcases segmentOf_mem p.partitions key with hnil | hmem
  · rw [hnil]
    exact OrderType.describes_nil _
  · exact h _ hmem

/-- A call leaves an honest flag honest exactly if its row fits. -/
theorem honest_call_iff (std : StdSort R) (p : MemPartitionHandler R) (c : PartitionCall R)
    (h : p.Honest) : (p.call std c).Honest ↔ p.Fits c := by
  cases c with
  | addRow key ts row =>
    have hadded := OrderType.describes_concat (x := (ts, row)) (h.segmentOf key)
    refine Iff.trans ?_ hadded
    constructor
    · exact fun hcall => hcall _ ((mem_addToSegment p.descend).mpr (.inr rfl))
    · intro hseg s hs
      rcases (mem_addToSegment p.descend).mp hs with ⟨hs, -⟩ | rfl
      · exact h s hs
      · exact hseg
  | sort isAsc =>
    refine iff_of_true (fun s hs => ?_) trivial
    obtain ⟨t, -, rfl⟩ := List.mem_map.mp hs
    exact OrderType.describes_sort std isAsc _
  | reverse =>
    refine iff_of_true (fun s hs => ?_) trivial
    obtain ⟨t, ht, rfl⟩ := List.mem_map.mp hs
    exact (h t ht).reverse

end MemPartitionHandler

/-- The order flags tell the truth in every state of a run of calls on a new handler exactly
if every row that is added while the flag is set belongs where it is put. -/
theorem orderType_honest_iff (std : StdSort R) :
    (∀ calls : List (TableCall R),
      Throughout MemTimeTableHandler.Honest (MemTimeTableHandler.call std) .empty calls ↔
        EachStep MemTimeTableHandler.Fits (MemTimeTableHandler.call std) .empty calls) ∧
    ∀ calls : List (PartitionCall R),
      Throughout MemPartitionHandler.Honest (MemPartitionHandler.call std) .empty calls ↔
        EachStep MemPartitionHandler.Fits (MemPartitionHandler.call std) .empty calls :=
  ⟨throughout_iff_eachStep (MemTimeTableHandler.honest_call_iff std) (OrderType.describes_nil _),
    throughout_iff_eachStep (MemPartitionHandler.honest_call_iff std) nofun⟩

/-- A row of a smaller key after an ascending sort: the flag is still ascending. -/
theorem not_honest_after_sort :
    ¬ Throughout MemTimeTableHandler.Honest (MemTimeTableHandler.call stableSort) .empty
      [.addRow 2 (), .sort true, .addRow 1 ()] := by
  intro h
  have hlast := h.2.2.2.1 rfl
  simp [MemTimeTableHandler.call, MemTimeTableHandler.addRow, MemTimeTableHandler.sort,
    MemTimeTableHandler.empty, stableSort] at hlast

end HybridSE.Vm
