import HybridSE.Lib.KeySort
import HybridSE.Vm.MemCatalog

/-!
# HybridSE.Vm.SortGenerator

The three overloads of `SortGenerator::Sort` in `src/vm/runner.cc`, with `OrderGenerator`.

The overload for tables is `SortGenerator.sort`. The one for partitions has a loop over the
segments that goes to the next segment only if the iterator of the current one is null:
with a segment in front the loop never ends (`sortSegments_eq_none`). It is given rounds to
run, and `none` says that it needs more. The overload for a `DataHandler` dispatches to the
other two if there is an order expression, and returns its input if there is none.

An order value is an `int64_t` that becomes the `uint64_t` key of its row, so the sorted
rows are in order as signed numbers only if all have one sign. `sorts_iff` says for every
input when a call does what it is for.
-/

namespace HybridSE.Vm

open HybridSE.Lib HybridSE.Codec List Option

variable {R : Type*}

/-! ### The order value -/

/-- `Runner::GetColumnInt64`: NULL, and a column of another type, is `-1`. -/
def getColumnInt64 : Value → BitVec 64
  | .int16 v => v.signExtend 64
  | .int32 v => v.signExtend 64
  | .int64 v => v
  | .timestamp ts => ts
  | _ => -1

/-- The signed number in an order column. -/
def orderNumber : Value → Int
  | .int16 v => v.toInt
  | .int32 v => v.toInt
  | .int64 v => v.toInt
  | .timestamp ts => ts.toInt
  | _ => -1

theorem toInt_getColumnInt64 (v : Value) : (getColumnInt64 v).toInt = orderNumber v := by
  cases v with
  | int16 v => exact BitVec.toInt_signExtend_of_le (by decide)
  | int32 v => exact BitVec.toInt_signExtend_of_le (by decide)
  | int64 v => rfl
  | timestamp ts => rfl
  | null => rfl
  | bool b => rfl
  | float bits => rfl
  | double bits => rfl
  | date code => rfl
  | varchar bytes => rfl

/-! ### The overloads -/

/-- A partition as its window iterator shows it: the keys with the iterators of their
segments. Any iterator may be null. -/
structure WindowedPartition (R : Type*) where
  windowIterator : Option (List (List Byte × Option (List (Nat × R))))
  orderType : OrderType

/-- The iterators of a `MemPartitionHandler`. -/
def MemPartitionHandler.windowed (p : MemPartitionHandler R) : WindowedPartition R where
  windowIterator := some (p.partitions.map fun s => (s.1, some s.2))
  orderType := p.orderType

/-- The inner loop: the rows of a segment are added with their order values. Without an
order expression a null function is called, unless there are no rows. -/
def addOrdered (order : Option (R → BitVec 64)) (key : List Byte) (rows : List (Nat × R))
    (out : MemPartitionHandler R) : Option (MemPartitionHandler R) :=
  rows.foldlM (fun out x => order.map fun gen => out.addRow key (gen x.2).toNat x.2) out

/-- The loop over the segments, for a number of rounds. A segment that is not null is not
left: `iter->Next()` is in the other branch only. -/
def sortSegments (order : Option (R → BitVec 64)) :
    Nat → List (List Byte × Option (List (Nat × R))) → MemPartitionHandler R →
      Option (MemPartitionHandler R)
  | 0, _, _ => none
  | _ + 1, [], out => some out
  | rounds + 1, (_, none) :: rest, out => sortSegments order rounds rest out
  | rounds + 1, (key, some rows) :: rest, out =>
    (addOrdered order key rows out).bind fun out =>
      sortSegments order rounds ((key, some rows) :: rest) out

namespace SortGenerator

/-- The direction of a call. -/
def ascending (s : SortGenerator R) (reverse : Bool) : Bool := if reverse then !s.isAsc else s.isAsc

/-- The end of `Sort`: the rows are sorted, or turned around. -/
def arrange (s : SortGenerator R) (std : StdSort R) (isAsc : Bool) (orderType : OrderType)
    (out : MemPartitionHandler R) : MemPartitionHandler R :=
  if s.orderGen.isSome then out.sort std isAsc
  else if isAsc && decide (orderType = .kDescOrder) then out.reverse
  else out

/-- `SortGenerator::Sort` of a partition; the inner `none` is a null pointer. -/
def sortPartition (s : SortGenerator R) (std : StdSort R) (rounds : Nat)
    (partition : Option (WindowedPartition R)) (reverse : Bool) :
    Option (Option (WindowedPartition R)) :=
  let isAsc := s.ascending reverse
  if !s.isValid then some partition
  else
    match partition with
    | none => some none
    | some p =>
      if s.orderGen.isNone && (isAsc == decide (p.orderType = .kAscOrder)) then some (some p)
      else
        match p.windowIterator with
        | none => some none
        | some segments =>
          (sortSegments s.orderGen rounds segments .empty).map fun out =>
            some (s.arrange std isAsc p.orderType out).windowed

end SortGenerator

/-- A table or a partition. -/
inductive SortInput (R : Type*)
  | table (t : TableHandler R)
  | partition (p : WindowedPartition R)

namespace SortInput

/-- `GetOrderType`. -/
def orderType : SortInput R → OrderType
  | .table t => t.orderType
  | .partition p => p.orderType

end SortInput

namespace SortGenerator

/-- The overload that belongs to a handler. -/
def sortTyped (s : SortGenerator R) (std : StdSort R) (rounds : Nat) (reverse : Bool) :
    SortInput R → Option (Option (SortInput R))
  | .table t => some ((s.sort std (some t) reverse).map .table)
  | .partition p => (s.sortPartition std rounds (some p) reverse).map (Option.map .partition)

/-- `SortGenerator::Sort` of a `DataHandler` that is a table or a partition. -/
def sortData (s : SortGenerator R) (std : StdSort R) (rounds : Nat) (reverse : Bool)
    (input : SortInput R) : Option (Option (SortInput R)) :=
  if !s.isValid || s.orderGen.isNone then some (some input)
  else s.sortTyped std rounds reverse input

/-- A call, through a pointer to a `DataHandler` or not. -/
def sortCall (s : SortGenerator R) (std : StdSort R) (rounds : Nat) (viaData reverse : Bool)
    (input : SortInput R) : Option (Option (SortInput R)) :=
  if viaData then s.sortData std rounds reverse input else s.sortTyped std rounds reverse input

end SortGenerator

/-- The generator of an ORDER BY over a column; without the column the order expression has
been removed. -/
def orderBy (column : Option (R → Value)) (isAsc : Bool) : SortGenerator R where
  isValid := true
  isAsc := isAsc
  orderGen := column.map fun read row => getColumnInt64 (read row)

/-! ### What a call is for -/

/-- The rows that a table shows. -/
def TableHandler.shown (t : TableHandler R) : List (Nat × R) := t.iterator.getD []

/-- The segments that a partition shows. -/
def WindowedPartition.shown (p : WindowedPartition R) : List (List Byte × List (Nat × R)) :=
  (p.windowIterator.getD []).map fun s => (s.1, s.2.getD [])

/-- Two numbers in the direction of a call. -/
def SignedOrder (isAsc : Bool) (a b : Int) : Prop := if isAsc then a ≤ b else b ≤ a

/-- Does the order of the input run in the direction of the call? -/
def SameDirection (isAsc : Bool) (orderType : OrderType) : Prop :=
  isAsc = decide (orderType = .kAscOrder)

instance (isAsc : Bool) (orderType : OrderType) : Decidable (SameDirection isAsc orderType) :=
  inferInstanceAs (Decidable (_ = _))

/-- The rows of a result against those of the input: a permutation in the order of the
column, or, if the order expression has been removed, the rows of the input or their
reversal. -/
def SortedRows (column : Option (R → Value)) (isAsc : Bool) (orderType : OrderType)
    (rows out : List (Nat × R)) : Prop :=
  match column with
  | some read =>
    (out.map Prod.snd).Perm (rows.map Prod.snd) ∧
      (out.map Prod.snd).Pairwise fun x y =>
        SignedOrder isAsc (orderNumber (read x)) (orderNumber (read y))
  | none => out = if SameDirection isAsc orderType then rows else rows.reverse

/-- A result against the input. A null pointer shows nothing. -/
def SortedInput (column : Option (R → Value)) (isAsc : Bool) :
    SortInput R → Option (SortInput R) → Prop
  | .table t, some (.table out) => SortedRows column isAsc t.orderType t.shown out.shown
  | .table t, none => t.shown = []
  | .partition p, some (.partition out) =>
    List.Forall₂ (fun s s' => s.1 = s'.1 ∧ SortedRows column isAsc p.orderType s.2 s'.2)
      p.shown out.shown
  | .partition p, none => p.shown = []
  | _, _ => False

/-- A call returns, and its result is what it should be. -/
def Sorts (column : Option (R → Value)) (isAsc : Bool) (std : StdSort R)
    (viaData reverse : Bool) (input : SortInput R) : Prop :=
  ∃ rounds result,
    (orderBy column isAsc).sortCall std rounds viaData reverse input = some result ∧
      SortedInput column ((orderBy column isAsc).ascending reverse) input result

/-- The order values of some rows have one sign. -/
def OneSign (read : R → Value) (rows : List (Nat × R)) : Prop :=
  (∀ x ∈ rows, 0 ≤ orderNumber (read x.2)) ∨ ∀ x ∈ rows, orderNumber (read x.2) < 0

/-- The inputs on which a call does what it is for: tables with order values of one sign,
and partitions without segments. Without an order expression a table is always turned
around where it must be, unless the call goes through a `DataHandler`. -/
def CanSort (column : Option (R → Value)) (isAsc viaData : Bool) (input : SortInput R) : Prop :=
  match column, input with
  | some read, .table t => OneSign read t.shown
  | some _, .partition p => p.shown = []
  | none, .table t =>
    viaData = true → SameDirection isAsc t.orderType ∨ t.shown.reverse = t.shown
  | none, .partition p =>
    SameDirection isAsc p.orderType ∨
      if viaData then ∀ s ∈ p.shown, s.2.reverse = s.2 else p.shown = []

/-! ### Signed and unsigned order -/

/-- The key of a number. -/
theorem natCast_toNat (a : BitVec 64) :
    (a.toNat : Int) = if 0 ≤ a.toInt then a.toInt else a.toInt + 2 ^ 64 := by
  rw [BitVec.toInt_eq_toNat_cond]
  split <;> split <;> omega

/-- Numbers of one sign compare like their keys. -/
theorem signedOrder_of_key {a b : BitVec 64} (hsign : 0 ≤ a.toInt ↔ 0 ≤ b.toInt) {isAsc : Bool}
    (h : if isAsc then a.toNat ≤ b.toNat else b.toNat ≤ a.toNat) :
    SignedOrder isAsc a.toInt b.toInt := by
  have ha := natCast_toNat a
  have hb := natCast_toNat b
  unfold SignedOrder
  cases isAsc <;> simp only [Bool.false_eq_true, if_false, if_true] at h ⊢ <;> split at ha <;>
    split at hb <;> omega

/-- Numbers of different signs do not. -/
theorem not_signedOrder_of_key {a b : BitVec 64} (ha : 0 ≤ a.toInt) (hb : b.toInt < 0)
    (isAsc : Bool) :
    ¬ ((if isAsc then a.toNat ≤ b.toNat else b.toNat ≤ a.toNat) ∧
      SignedOrder isAsc a.toInt b.toInt) ∧
    ¬ ((if isAsc then b.toNat ≤ a.toNat else a.toNat ≤ b.toNat) ∧
      SignedOrder isAsc b.toInt a.toInt) := by
  have hka := natCast_toNat a
  have hkb := natCast_toNat b
  have hlo := b.le_toInt
  have hhi := a.toInt_lt
  unfold SignedOrder
  cases isAsc <;> simp only [Bool.false_eq_true, if_false, if_true] <;> omega

section Signed

variable (std : StdSort R) (isAsc : Bool) (read : R → Value) (rows : List (Nat × R))

/-- The rows with their keys, as they are sorted. -/
def keyed : List (Nat × R) := rows.map fun x => ((getColumnInt64 (read x.2)).toNat, x.2)

theorem mem_sort_keyed {x} (hx : x ∈ std.sort isAsc (keyed read rows)) :
    x.1 = (getColumnInt64 (read x.2)).toNat ∧ ∃ y ∈ rows, y.2 = x.2 := by
  obtain ⟨y, hy, rfl⟩ := List.mem_map.mp ((std.perm isAsc _).mem_iff.mp hx)
  exact ⟨rfl, y, hy, rfl⟩

theorem exists_mem_sort_keyed {y} (hy : y ∈ rows) :
    ((getColumnInt64 (read y.2)).toNat, y.2) ∈ std.sort isAsc (keyed read rows) :=
  (std.perm isAsc _).mem_iff.mpr (List.mem_map_of_mem hy)

theorem sort_keyed_perm :
    ((std.sort isAsc (keyed read rows)).map Prod.snd).Perm (rows.map Prod.snd) := by
  have h := (std.perm isAsc (keyed read rows)).map Prod.snd
  unfold keyed at h ⊢
  rwa [List.map_map] at h

/-- The sorted rows are in order as signed numbers exactly if these have one sign. -/
theorem sort_keyed_signed_iff :
    ((std.sort isAsc (keyed read rows)).map Prod.snd).Pairwise
        (fun x y => SignedOrder isAsc (orderNumber (read x)) (orderNumber (read y))) ↔
      OneSign read rows := by
  rw [pairwise_map]
  have hsorted := std.sorted isAsc (keyed read rows)
  constructor
  · intro hsigned
    by_contra hmixed
    unfold OneSign at hmixed
    push Not at hmixed
    obtain ⟨⟨y, hy, hneg⟩, x, hx, hpos⟩ := hmixed
    rw [← toInt_getColumnInt64] at hneg hpos
    -- of two rows with different signs one comes first, and either order is wrong
    have hx' := exists_mem_sort_keyed std isAsc read rows hx
    have hy' := exists_mem_sort_keyed std isAsc read rows hy
    have hne : ((getColumnInt64 (read x.2)).toNat, x.2) ≠
        ((getColumnInt64 (read y.2)).toNat, y.2) := by
      intro heq
      rw [(Prod.mk.inj heq).2] at hpos
      exact absurd hneg (not_lt.mpr hpos)
    obtain ⟨hxy, hyx⟩ := not_signedOrder_of_key hpos hneg isAsc
    rw [toInt_getColumnInt64, toInt_getColumnInt64] at hxy hyx
    exact (pairwise_either (hsorted.and hsigned) hx' hy' hne).elim hxy hyx
  · intro hone
    refine hsorted.imp_of_mem fun {x y} hx hy h => ?_
    obtain ⟨hkx, x', hx', hxx⟩ := mem_sort_keyed std isAsc read rows hx
    obtain ⟨hky, y', hy', hyy⟩ := mem_sort_keyed std isAsc read rows hy
    rw [hkx, hky] at h
    rw [← toInt_getColumnInt64, ← toInt_getColumnInt64]
    refine signedOrder_of_key ?_ h
    rw [toInt_getColumnInt64, toInt_getColumnInt64, ← hxx, ← hyy]
    rcases hone with hpos | hneg
    · exact iff_of_true (hpos x' hx') (hpos y' hy')
    · exact iff_of_false (not_le.mpr (hneg x' hx')) (not_le.mpr (hneg y' hy'))

end Signed

/-! ### Partitions -/

section Segments

variable (order : Option (R → BitVec 64)) {segments : List (List Byte × Option (List (Nat × R)))}

/-- The loop does not leave a segment. -/
theorem sortSegments_eq_none (rounds : Nat) (key : List Byte) (rows : List (Nat × R))
    (rest : List (List Byte × Option (List (Nat × R)))) (out : MemPartitionHandler R) :
    sortSegments order rounds ((key, some rows) :: rest) out = none := by
  induction rounds generalizing out with
  | zero => rfl
  | succ rounds ih =>
    rw [sortSegments]
    cases addOrdered order key rows out with
    | none => rfl
    | some out => exact ih out

/-- The loop ends only if there is nothing to sort. -/
theorem sortSegments_eq_some {rounds out result}
    (h : sortSegments order rounds segments out = some result) : result = out := by
  induction rounds generalizing segments with
  | zero => cases h
  | succ rounds ih =>
    cases segments with
    | nil => exact (some_inj.mp h).symm
    | cons s rest =>
      obtain ⟨key, rows⟩ := s
      cases rows with
      | none => exact ih h
      | some rows => rw [sortSegments_eq_none] at h; cases h

end Segments

/-! ### Calls -/

section Calls

variable (std : StdSort R) (isAsc reverse : Bool)

/-- The overload for tables, for a table that is in order. -/
theorem sort_orderBy_none {t} (h : t.orderType ≠ .kNoneOrder) :
    ((orderBy none isAsc).sort std (some t) reverse).elim [] TableHandler.shown =
      if SameDirection ((orderBy none isAsc : SortGenerator R).ascending reverse) t.orderType then
        t.shown
      else t.shown.reverse := by
  obtain ⟨iterator, orderType⟩ := t
  cases iterator <;> cases orderType <;> cases isAsc <;> cases reverse <;>
    first | rfl | exact absurd rfl h

theorem sortedRows_self_iff {orderType} {rows : List (Nat × R)} :
    SortedRows none isAsc orderType rows rows ↔
      SameDirection isAsc orderType ∨ rows.reverse = rows := by
  unfold SortedRows
  dsimp only
  split
  case isTrue h => exact iff_of_true rfl (.inl h)
  case isFalse h => exact ⟨fun heq => .inr heq.symm, fun h' => (h'.resolve_left h).symm⟩

/-- With an order expression both kinds of pointers lead to the same overload. -/
theorem sortCall_orderBy_some (read : R → Value) (rounds : Nat) (viaData : Bool)
    (input : SortInput R) :
    (orderBy (some read) isAsc).sortCall std rounds viaData reverse input =
      (orderBy (some read) isAsc).sortTyped std rounds reverse input := by
  cases viaData <;> rfl

theorem sorts_table_some_iff (read : R → Value) (viaData : Bool) (t : TableHandler R) :
    Sorts (some read) isAsc std viaData reverse (.table t) ↔ OneSign read t.shown := by
  have hcall : ∀ rounds, (orderBy (some read) isAsc).sortCall std rounds viaData reverse
      (.table t) = some (((orderBy (some read) isAsc).sort std (some t) reverse).map .table) :=
    fun rounds => sortCall_orderBy_some std isAsc reverse read rounds viaData _
  unfold Sorts
  simp only [hcall, some_inj, exists_const, exists_eq_left']
  obtain ⟨iterator, orderType⟩ := t
  cases iterator with
  | none => exact iff_of_true rfl (.inl nofun)
  | some rows =>
    have hsigned := sort_keyed_signed_iff std ((orderBy (some read) isAsc).ascending reverse)
      read rows
    exact ⟨fun h => hsigned.mp h.2, fun h => ⟨sort_keyed_perm std _ read rows, hsigned.mpr h⟩⟩

theorem sorts_table_none_iff (viaData : Bool) {t} (h : t.orderType ≠ .kNoneOrder) :
    Sorts none isAsc std viaData reverse (.table t) ↔
      (viaData = true →
        SameDirection ((orderBy none isAsc : SortGenerator R).ascending reverse) t.orderType ∨
          t.shown.reverse = t.shown) := by
  cases viaData with
  | true =>
    have hcall : ∀ rounds, (orderBy none isAsc).sortCall std rounds true reverse
      (.table t) = some (some (.table t)) := fun rounds => rfl
    unfold Sorts
    simp only [hcall, some_inj, exists_const, exists_eq_left', forall_const]
    exact sortedRows_self_iff _
  | false =>
    refine iff_of_true ⟨0, _, rfl, ?_⟩ nofun
    have hshown := sort_orderBy_none std isAsc reverse h
    cases hsort : (orderBy none isAsc).sort std (some t) reverse with
    | none =>
      rw [hsort] at hshown
      split at hshown
      · exact hshown.symm
      · exact reverse_eq_nil_iff.mp hshown.symm
    | some out =>
      rw [hsort] at hshown
      exact hshown

theorem shown_arrange_empty (s : SortGenerator R) (orderType : OrderType) :
    (s.arrange std isAsc orderType .empty).windowed.shown = [] := by
  unfold SortGenerator.arrange
  split
  · rfl
  · split <;> rfl

/-- A partition that is not in order comes back only if it has no segments. -/
theorem sortPartition_sorted_iff (column : Option (R → Value)) (p : WindowedPartition R)
    (h : column = none → ¬ SameDirection ((orderBy column isAsc).ascending reverse) p.orderType) :
    (∃ rounds result, (orderBy column isAsc).sortPartition std rounds (some p) reverse =
        some result ∧
      SortedInput column ((orderBy column isAsc).ascending reverse) (.partition p)
        (result.map .partition)) ↔ p.shown = [] := by
  have hslow : ((orderBy column isAsc).orderGen.isNone &&
      ((orderBy column isAsc).ascending reverse == decide (p.orderType = .kAscOrder))) = false := by
    cases column with
    | some read => rfl
    | none => simpa [SameDirection, orderBy] using h rfl
  unfold SortGenerator.sortPartition
  simp only [hslow]
  obtain ⟨iterator, orderType⟩ := p
  cases iterator with
  | none => exact iff_of_true ⟨0, none, rfl, rfl⟩ rfl
  | some segments =>
    have hempty := shown_arrange_empty std ((orderBy column isAsc).ascending reverse)
      (orderBy column isAsc) orderType
    constructor
    · rintro ⟨rounds, result, hresult, hsorted⟩
      obtain ⟨out, hout, rfl⟩ := map_eq_some_iff.mp hresult
      cases sortSegments_eq_some _ hout
      dsimp only [map_some, SortedInput] at hsorted
      rw [hempty] at hsorted
      exact forall₂_nil_right_iff.mp hsorted
    · intro hshown
      cases map_eq_nil_iff.mp hshown
      refine ⟨1, _, rfl, ?_⟩
      dsimp only [map_some, SortedInput]
      rw [hempty]
      exact List.Forall₂.nil

/-- The same for the call. -/
theorem sortTyped_sorted_iff (column : Option (R → Value)) (p : WindowedPartition R)
    (h : column = none → ¬ SameDirection ((orderBy column isAsc).ascending reverse) p.orderType) :
    (∃ rounds result, (orderBy column isAsc).sortTyped std rounds reverse (.partition p) =
        some result ∧
      SortedInput column ((orderBy column isAsc).ascending reverse) (.partition p) result) ↔
      p.shown = [] := by
  rw [← sortPartition_sorted_iff std isAsc reverse column p h]
  constructor
  · rintro ⟨rounds, result, hresult, hsorted⟩
    obtain ⟨inner, hinner, rfl⟩ := map_eq_some_iff.mp hresult
    exact ⟨rounds, inner, hinner, hsorted⟩
  · rintro ⟨rounds, inner, hinner, hsorted⟩
    exact ⟨rounds, _, map_eq_some_iff.mpr ⟨inner, hinner, rfl⟩, hsorted⟩

theorem sorts_partition_some_iff (read : R → Value) (viaData : Bool) (p : WindowedPartition R) :
    Sorts (some read) isAsc std viaData reverse (.partition p) ↔ p.shown = [] := by
  unfold Sorts
  simp only [sortCall_orderBy_some]
  exact sortTyped_sorted_iff std isAsc reverse (some read) p nofun

theorem sorts_partition_none_iff (viaData : Bool) (p : WindowedPartition R) :
    Sorts none isAsc std viaData reverse (.partition p) ↔
      SameDirection ((orderBy none isAsc : SortGenerator R).ascending reverse) p.orderType ∨
        if viaData then ∀ s ∈ p.shown, s.2.reverse = s.2 else p.shown = [] := by
  by_cases hsame : SameDirection ((orderBy none isAsc : SortGenerator R).ascending reverse)
      p.orderType
  · refine iff_of_true ⟨0, some (.partition p), ?_, ?_⟩ (.inl hsame)
    · cases viaData with
      | true => rfl
      | false =>
        unfold SortGenerator.sortCall SortGenerator.sortTyped SortGenerator.sortPartition
        simp only [show ((orderBy none isAsc : SortGenerator R).ascending reverse ==
            decide (p.orderType = .kAscOrder)) = true from beq_iff_eq.mpr hsame]
        rfl
    · exact forall₂_same.mpr fun s _ => ⟨rfl, (sortedRows_self_iff _).mpr (.inl hsame)⟩
  · rw [or_iff_right hsame]
    cases viaData with
    | true =>
      have hcall : ∀ rounds, (orderBy none isAsc).sortCall std rounds true reverse
        (.partition p) = some (some (.partition p)) := fun rounds => rfl
      unfold Sorts
      simp only [hcall, some_inj, exists_const, exists_eq_left']
      refine forall₂_same.trans (forall₂_congr fun s _ => ?_)
      simp [sortedRows_self_iff, or_iff_right hsame]
    | false => exact sortTyped_sorted_iff std isAsc reverse none p fun _ => hsame

/-- When a call returns, and returns the rows in the order that the query asks for. -/
theorem sorts_iff (column : Option (R → Value)) (viaData : Bool) (input : SortInput R)
    (h : column = none → input.orderType ≠ .kNoneOrder) :
    Sorts column isAsc std viaData reverse input ↔
      CanSort column ((orderBy column isAsc).ascending reverse) viaData input := by
  cases column with
  | some read =>
    cases input with
    | table t => exact sorts_table_some_iff std isAsc reverse read viaData t
    | partition p => exact sorts_partition_some_iff std isAsc reverse read viaData p
  | none =>
    cases input with
    | table t => exact sorts_table_none_iff std isAsc reverse viaData (h rfl)
    | partition p => exact sorts_partition_none_iff std isAsc reverse viaData p

end Calls

/-- A table in descending order, for an ascending ORDER BY whose expression was removed. -/
theorem sorts_descending :
    Sorts (none : Option (Value → Value)) true stableSort false false
      (.table ⟨some [(7, .int64 7), (5, .int64 5)], .kDescOrder⟩) :=
  (sorts_iff stableSort true false none false _ (by decide)).mpr nofun

/-- Sorting a partition of one row by its only column does not end, and a table of the
numbers one and minus one comes back unsorted. -/
theorem not_sorts_partition :
    (∀ rounds, (orderBy (some id) true).sortCall stableSort rounds false false
      (.partition ⟨some [([], some [(0, .int64 5)])], .kNoneOrder⟩) = none) ∧
    ¬ Sorts (some id) true stableSort false false
      (.table ⟨some [(0, .int32 1), (0, .int32 (-1))], .kNoneOrder⟩) := by
  constructor
  · intro rounds
    show ((sortSegments _ rounds _ _).map _).map _ = none
    rw [sortSegments_eq_none]
    rfl
  · rw [sorts_table_some_iff]
    unfold OneSign TableHandler.shown
    decide

end HybridSE.Vm
