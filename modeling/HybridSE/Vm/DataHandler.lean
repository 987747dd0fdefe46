import Mathlib.Data.List.Dedup
import Mathlib.Data.List.Flatten
import HybridSE.Lib.ByteBuffer

/-!
# HybridSE.Vm.DataHandler

Tables, partitions and rows as the runners pass them on (`include/vm/catalog.h`,
`include/vm/mem_catalog.h`).

A table is what its iterator yields, each row with its `uint64_t` key; `none` is a
null iterator. A partition is the sequence of its `AddRow` calls: the segment of a key
holds the rows added under it in that order (`segment`), and the window iterator visits
the keys of the underlying map, which is ordered by `std::greater` (`keys`).
-/

namespace HybridSE.Vm

open HybridSE.Lib List Option

variable {R S : Type*}

/-- `OrderType`. -/
inductive OrderType
  | kNoneOrder
  | kDescOrder
  | kAscOrder
  deriving DecidableEq, Repr

/-- `OrderType` after `Reverse`. -/
def OrderType.flip : OrderType → OrderType
  | .kAscOrder => .kDescOrder
  | .kDescOrder => .kAscOrder
  | .kNoneOrder => .kNoneOrder

/-- A `TableHandler`. -/
structure TableHandler (R : Type*) where
  iterator : Option (List (Nat × R))
  orderType : OrderType

/-- The rows that a loop over the table visits; a null table or iterator has none. -/
def TableHandler.visited : Option (TableHandler R) → List R
  | none => []
  | some table => (table.iterator.getD []).map Prod.snd

/-- A `MemPartitionHandler`: its `AddRow` calls. -/
structure PartitionHandler (R : Type*) where
  added : List (List Byte × Nat × R)
  orderType : OrderType

namespace PartitionHandler

/-- The keys in the order of the window iterator. -/
def keys (p : PartitionHandler R) : List (List Byte) :=
  (p.added.map Prod.fst).dedup.mergeSort fun a b => !decide (a < b)

/-- The rows of a key. -/
def segment (p : PartitionHandler R) (key : List Byte) : List (Nat × R) :=
  (p.added.filter fun a => a.1 = key).map Prod.snd

/-- `GetSegment`; the segment of a key that is not there has a null iterator. -/
def getSegment (p : PartitionHandler R) (key : List Byte) : TableHandler R :=
  { iterator := if key ∈ p.keys then some (p.segment key) else none
    orderType := p.orderType }

variable {p : PartitionHandler R} {key : List Byte}

theorem mem_keys : key ∈ p.keys ↔ ∃ row, (key, row) ∈ p.added := by
  simp [keys]

theorem nodup_keys (p : PartitionHandler R) : p.keys.Nodup :=
  (mergeSort_perm _ _).nodup_iff.mpr (nodup_dedup _)

theorem mem_segment {x} : x ∈ p.segment key ↔ (key, x) ∈ p.added := by
  simp [segment]

theorem segment_eq_nil (h : key ∉ p.keys) : p.segment key = [] := by
  refine eq_nil_iff_forall_not_mem.mpr fun x hx => h ?_
  exact mem_keys.mpr ⟨x, mem_segment.mp hx⟩

/-- The rows that a loop over all segments adds to another partition. -/
def addAll (p : PartitionHandler R) (f : List Byte → Nat × R → List Byte × Nat × S) :
    List (List Byte × Nat × S) :=
  p.keys.flatMap fun key => (p.segment key).map (f key)

theorem mem_addAll {f} {a : List Byte × Nat × S} :
    a ∈ p.addAll f ↔ ∃ key x, (key, x) ∈ p.added ∧ f key x = a := by
  simp only [addAll, mem_flatMap, List.mem_map, mem_segment]
  constructor
  · rintro ⟨key, -, x, hx, rfl⟩
    exact ⟨key, x, hx, rfl⟩
  · rintro ⟨key, x, hx, rfl⟩
    exact ⟨key, mem_keys.mpr ⟨x, hx⟩, x, hx, rfl⟩

/-- Of a loop over all segments, only one segment adds rows with a given property. -/
theorem filter_addAll {f} {q : List Byte × Nat × S → Bool} (key : List Byte)
    (h : ∀ (k : List Byte) (x : Nat × R), (k, x) ∈ p.added → q (f k x) = true → k = key) :
    (p.addAll f).filter q = ((p.segment key).filter fun x => q (f key x)).map (f key) := by
  have hother : ∀ k, k ≠ key → ((p.segment k).map (f k)).filter q = [] := by
    intro k hk
    refine filter_eq_nil_iff.mpr fun a ha hq => ?_
    obtain ⟨x, hx, rfl⟩ := List.mem_map.mp ha
    exact hk (h k x (mem_segment.mp hx) hq)
  have hkeys : ∀ ks : List (List Byte), ks.Nodup →
      (ks.flatMap fun k => (p.segment k).map (f k)).filter q =
        if key ∈ ks then ((p.segment key).map (f key)).filter q else [] := by
    intro ks hks
    induction ks with
    | nil => rfl
    | cons k ks ih =>
      obtain ⟨hk, hks⟩ := nodup_cons.mp hks
      rw [flatMap_cons, filter_append, ih hks]
      by_cases heq : k = key
      · subst heq
        rw [if_neg hk, if_pos mem_cons_self, append_nil]
      · have hmem : key ∈ k :: ks ↔ key ∈ ks := by
          rw [mem_cons, or_iff_right (Ne.symm heq)]
        simp [hother k heq, nil_append, hmem]
  rw [addAll, hkeys _ p.nodup_keys, List.filter_map]
  split
  case isTrue => rfl
  case isFalse hmem => rw [segment_eq_nil hmem]; rfl

/-- A loop that keeps the key of every row changes the rows of each segment. -/
theorem segment_addAll (p : PartitionHandler R) (f : Nat × R → Nat × S) (o : OrderType)
    (key : List Byte) :
    (⟨p.addAll fun k x => (k, f x), o⟩ : PartitionHandler S).segment key =
      (p.segment key).map f := by
  unfold segment
  rw [filter_addAll key fun k x _ hk => of_decide_eq_true hk]
  rw [filter_eq_self.mpr fun x _ => decide_eq_true rfl, List.map_map]
  rfl

end PartitionHandler

/-- A `DataHandler`. -/
inductive DataHandler (R : Type*)
  | table (t : TableHandler R)
  | partition (p : PartitionHandler R)
  | row (r : R)

/-- What a runner hands on; `none` is a null handler. -/
abbrev Output (R : Type) := Option (DataHandler R)

/-! ### Rows changed in place -/

/-- A table of changed rows: what `TableProjectWrapper` shows. -/
def TableHandler.map (f : R → S) (t : TableHandler R) : TableHandler S where
  iterator := t.iterator.map (List.map fun x => (x.1, f x.2))
  orderType := t.orderType

/-- A partition of changed rows: what `PartitionProjectWrapper` shows. -/
def PartitionHandler.map (f : R → S) (p : PartitionHandler R) : PartitionHandler S where
  added := p.added.map fun a => (a.1, a.2.1, f a.2.2)
  orderType := p.orderType

/-- Rows changed by a projection. -/
def DataHandler.map (f : R → S) : DataHandler R → DataHandler S
  | .table t => .table (t.map f)
  | .partition p => .partition (p.map f)
  | .row r => .row (f r)

/-- All rows. -/
def DataHandler.rows : DataHandler R → List R
  | .table t => (t.iterator.getD []).map Prod.snd
  | .partition p => p.added.map fun a => a.2.2
  | .row r => [r]

theorem DataHandler.map_map {T : Type*} (f : R → S) (g : S → T) (d : DataHandler R) :
    (d.map f).map g = d.map (g ∘ f) := by
  cases d with
  | table t =>
    simp only [DataHandler.map, TableHandler.map]
    cases t.iterator <;> simp [Function.comp_def]
  | partition p => simp [DataHandler.map, PartitionHandler.map, Function.comp_def]
  | row r => rfl

variable {d : DataHandler R}

theorem DataHandler.map_congr {f g : R → S} (h : ∀ r ∈ d.rows, f r = g r) : d.map f = d.map g := by
  cases d with
  | table t =>
    obtain ⟨iterator, orderType⟩ := t
    cases iterator with
    | none => rfl
    | some rows =>
      have hrows : rows.map (fun x => (x.1, f x.2)) = rows.map fun x => (x.1, g x.2) :=
        map_congr_left fun x hx => by rw [h x.2 (List.mem_map.mpr ⟨x, hx, rfl⟩)]
      simp only [DataHandler.map, TableHandler.map, map_some, hrows]
  | partition p =>
    have hrows : p.added.map (fun a => (a.1, a.2.1, f a.2.2)) =
        p.added.map fun a => (a.1, a.2.1, g a.2.2) :=
      map_congr_left fun a ha => by rw [h a.2.2 (List.mem_map.mpr ⟨a, ha, rfl⟩)]
    simp only [DataHandler.map, PartitionHandler.map, hrows]
  | row r => rw [DataHandler.map, DataHandler.map, h r mem_cons_self]

namespace PartitionHandler

variable (f : R → S) (p : PartitionHandler R)

@[simp] theorem keys_map : (p.map f).keys = p.keys := by
  unfold keys map
  rw [List.map_map]
  rfl

theorem segment_map (key : List Byte) :
    (p.map f).segment key = (p.segment key).map fun x => (x.1, f x.2) := by
  unfold segment map
  rw [List.filter_map, List.map_map, List.map_map]
  rfl

theorem getSegment_map (key : List Byte) : (p.map f).getSegment key = (p.getSegment key).map f := by
  unfold getSegment TableHandler.map
  rw [keys_map, segment_map]
  split <;> rfl

theorem addAll_map {T : Type*} (g : List Byte → Nat × S → List Byte × Nat × T) :
    (p.map f).addAll g = p.addAll fun key x => g key (x.1, f x.2) := by
  unfold addAll
  rw [keys_map]
  refine flatMap_congr fun key _ => ?_
  rw [segment_map, List.map_map]
  rfl

end PartitionHandler

/-! ### Partitions in the order of their keys -/

namespace PartitionHandler

/-- The keys are determined by which keys there are. -/
theorem keys_congr {p : PartitionHandler R} {q : PartitionHandler S}
    (h : ∀ key, key ∈ p.keys ↔ key ∈ q.keys) : p.keys = q.keys := by
  have hperm : p.keys.Perm q.keys :=
    (perm_ext_iff_of_nodup p.nodup_keys q.nodup_keys).mpr h
  have hsorted : ∀ ks : List (List Byte),
      (ks.mergeSort fun a b => !decide (a < b)).Pairwise fun a b => b ≤ a := fun ks => by
    refine (pairwise_mergeSort (fun a b c hab hbc => ?_) (fun a b => ?_) ks).imp ?_
    · simp only [Bool.not_eq_true', decide_eq_false_iff_not] at *
      have hcb : c ≤ b := hbc
      exact List.le_trans hcb hab
    · simp only [Bool.or_eq_true, Bool.not_eq_true', decide_eq_false_iff_not]
      exact List.le_total b a
    · intro a b hab
      simpa using hab
  exact hperm.eq_of_pairwise (fun a b _ _ hab hba => List.le_antisymm hba hab)
    (hsorted _) (hsorted _)

/-- The same partition with its rows added key by key. -/
def inKeyOrder (p : PartitionHandler R) : PartitionHandler R where
  added := p.addAll fun key x => (key, x)
  orderType := p.orderType

end PartitionHandler

end HybridSE.Vm
