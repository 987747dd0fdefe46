import HybridSE.Lib.GroupBy
import HybridSE.Vm.KeyStrings
import HybridSE.Vm.MemCatalog
import HybridSE.Vm.WindowAggRunner

/-!
# HybridSE.Vm.PartitionGenerator

What `PartitionGenerator::Partition` groups.

A list of key columns gives each row a key string, and rows of one string form a segment;
for an input that is a partition, the string is appended to the key of the segment the row
comes from. The groups that are meant are those of equal key values within one segment of
the input. They are the segments of the result if no two different keys of the input have
one string (`exactGroups_iff`), and then it does not matter whether the columns are used in
one step or in two. For which columns this is so, `partition_exact_iff` says by their types
and values.
-/

namespace HybridSE.Vm

open HybridSE.Lib HybridSE.Codec List Option

variable {R : Type*}

/-! ### Partitions as maps -/

namespace PartitionHandler

/-- The segments of a partition. -/
def segments (p : PartitionHandler R) : List (List (Nat × R)) := p.keys.map p.segment

/-- The segments are the groups of rows that were added under one key. -/
theorem segments_perm (p : PartitionHandler R) :
    p.segments.Perm ((groups Prod.fst p.added).map (List.map Prod.snd)) := by
  unfold segments keys groups
  rw [List.map_map]
  exact (mergeSort_perm _ _).map _

theorem addAll_eq_map {S : Type*} (p : PartitionHandler R)
    (f : List Byte → Nat × R → List Byte × Nat × S) :
    p.addAll f = p.inKeyOrder.added.map fun a => f a.1 a.2 := by
  unfold inKeyOrder addAll
  rw [map_flatMap]
  refine flatMap_congr fun key _ => ?_
  simp

theorem segment_inKeyOrder (p : PartitionHandler R) (key : List Byte) :
    p.inKeyOrder.segment key = p.segment key :=
  (segment_addAll p id p.orderType key).trans (List.map_id _)

theorem keys_inKeyOrder (p : PartitionHandler R) : p.inKeyOrder.keys = p.keys := by
  refine keys_congr fun key => ?_
  rw [mem_keys, mem_keys]
  refine exists_congr fun row => ?_
  rw [inKeyOrder, mem_addAll]
  constructor
  · rintro ⟨key', x, hx, heq⟩
    cases heq
    exact hx
  · exact fun hx => ⟨key, row, hx, rfl⟩

theorem segments_inKeyOrder (p : PartitionHandler R) : p.inKeyOrder.segments = p.segments := by
  unfold segments
  rw [keys_inKeyOrder]
  exact map_congr_left fun key _ => segment_inKeyOrder p key

end PartitionHandler

/-! ### Key columns -/

/-- The values of the key columns of a row. -/
def keyOf (columns : List (R → Value)) (row : R) : List Value := columns.map fun read => read row

/-- The key generator of some columns; without columns there is no function to call. -/
def keyGenOf (columns : List (R → Value)) : Option (KeyGen R) :=
  if columns = [] then none else some fun row => some (keyOf columns row)

/-- `PartitionGenerator::Partition` by some columns. -/
def partitionColumns (columns : List (R → Value)) (input : DataHandler R) :
    Option (PartitionHandler R) :=
  partitionOf (keyGenOf columns) input

/-- The rows of an input in the order of its iterators, each with the segment it is in. -/
def occurrences : DataHandler R → List (Option (List Byte) × Nat × R)
  | .table t => (t.iterator.getD []).map fun x => (none, x)
  | .partition p => p.inKeyOrder.added.map fun a => (some a.1, a.2)
  | .row r => [(none, 0, r)]

/-- What tells rows apart: the segment of the input, and the key values. -/
def groupKey (columns : List (R → Value)) (a : Option (List Byte) × Nat × R) :
    Option (List Byte) × List Value :=
  (a.1, keyOf columns a.2.2)

/-- The string under which a row is added. -/
def keyString : Option (List Byte) × List Value → List Byte
  | (none, vals) => gen (some vals)
  | (some segment, vals) => segment ++ keySep :: gen (some vals)

/-- A result against the input: its segments are the groups of the input. A null pointer has
no segments. -/
def ExactGroups (columns : List (R → Value)) (input : DataHandler R) : Prop :=
  match partitionColumns columns input with
  | some out =>
    out.segments.Perm ((groups (groupKey columns) (occurrences input)).map (List.map Prod.snd))
  | none => occurrences input = []

/-- The segments of a partition that may be null. -/
def segmentsOf (p : Option (PartitionHandler R)) : List (List (Nat × R)) :=
  p.elim [] PartitionHandler.segments

/-- Partitioning by one list of columns, by a second list after it, and by both at once gives
exact groups, and the last two the same ones. -/
structure PartitionsExactly (first second : List (R → Value)) (input : DataHandler R) : Prop where
  exact_first : ExactGroups first input
  exact_second : ∀ p, partitionColumns first input = some p → ExactGroups second (.partition p)
  exact_both : ExactGroups (first ++ second) input
  same : (segmentsOf
      ((partitionColumns first input).bind fun p => partitionColumns second (.partition p))).Perm
    (segmentsOf (partitionColumns (first ++ second) input))

/-- No two different keys among the rows of an input have one string. -/
def StringsApart (columns : List (R → Value)) (input : DataHandler R) : Prop :=
  ∀ a ∈ occurrences input, ∀ b ∈ occurrences input,
    keyString (groupKey columns a) = keyString (groupKey columns b) →
      groupKey columns a = groupKey columns b

/-- When the groups are exact: the strings of the keys are apart. A table needs a column, or
there is no result; a partition without columns is returned as it is. -/
def GroupsApart (columns : List (R → Value)) (input : DataHandler R) : Prop :=
  match input with
  | .table _ => (columns = [] → occurrences input = []) ∧ StringsApart columns input
  | .partition _ => columns ≠ [] → StringsApart columns input
  | .row _ => False

/-! ### One step -/

section OneStep

variable {columns : List (R → Value)} {input : DataHandler R}

theorem keyGenOf_of_ne (h : columns ≠ []) :
    keyGenOf columns = some fun row => some (keyOf columns row) := if_neg h

/-- With columns the result is made of the rows with their strings. -/
theorem partitionColumns_eq_some (h : columns ≠ []) {out}
    (hout : partitionColumns columns input = some out) :
    out.added = (occurrences input).map fun a => (keyString (groupKey columns a), a.2) := by
  unfold partitionColumns at hout
  rw [keyGenOf_of_ne h] at hout
  cases input with
  | table t =>
    obtain ⟨rows, hrows, rfl⟩ := map_eq_some_iff.mp hout
    dsimp only [occurrences]
    rw [hrows, List.map_map]
    rfl
  | partition p =>
    cases hout
    unfold partitionPartition occurrences
    rw [PartitionHandler.addAll_eq_map, List.map_map]
    rfl
  | row r => cases hout

/-- With columns only an input without iterator has no result. -/
theorem partitionColumns_eq_none (h : columns ≠ []) (hout : partitionColumns columns input = none)
    (hrow : ∀ r, input ≠ .row r) : occurrences input = [] := by
  unfold partitionColumns at hout
  rw [keyGenOf_of_ne h] at hout
  cases input with
  | table t =>
    have hnone : t.iterator = none := map_eq_none_iff.mp hout
    simp [occurrences, hnone]
  | partition p => cases hout
  | row r => exact absurd rfl (hrow r)

/-- The segments of a result are the groups by the key strings. -/
theorem segments_partitionColumns (h : columns ≠ []) {out}
    (hout : partitionColumns columns input = some out) :
    out.segments.Perm ((groups (fun a => keyString (groupKey columns a))
      (occurrences input)).map (List.map Prod.snd)) := by
  refine out.segments_perm.trans (.of_eq ?_)
  rw [partitionColumns_eq_some h hout, groups_map]
  simp

/-- The groups of an input by its segments only. -/
theorem segments_perm_groups_nil (p : PartitionHandler R) :
    p.segments.Perm ((groups (groupKey []) (occurrences (.partition p))).map
      (List.map Prod.snd)) := by
  rw [← p.segments_inKeyOrder]
  refine p.inKeyOrder.segments_perm.trans ?_
  unfold occurrences
  rw [groups_map, List.map_map]
  refine List.Perm.trans (groups_perm (q := Prod.snd) (fun k => (some k, []))
    (fun x _ x' _ heq => Option.some.inj (Prod.mk.inj heq).1) (fun x hx => ⟨x, hx, rfl⟩)
    (fun x hx => ⟨x, hx, rfl⟩) fun x _ => ?_) (.of_eq (map_congr_left fun group _ => ?_))
  · simp only [Prod.mk.injEq, some_inj, and_true]
  · simp

/-- Exactness of one step. -/
theorem exactGroups_iff : ExactGroups columns input ↔ GroupsApart columns input := by
  by_cases hcols : columns = []
  · subst hcols
    cases input with
    | table t =>
      refine ⟨fun h => ⟨fun _ => h, ?_⟩, fun h => h.1 rfl⟩
      intro a ha
      rw [show occurrences (.table t) = [] from h] at ha
      cases ha
    | partition p => exact iff_of_true (segments_perm_groups_nil p) fun h => absurd rfl h
    | row r => exact iff_of_false (cons_ne_nil _ _) id
  · cases hout : partitionColumns columns input with
    | none =>
      unfold ExactGroups
      rw [hout]
      cases input with
      | table t =>
        have hnil := partitionColumns_eq_none hcols hout nofun
        refine iff_of_true hnil ⟨fun h => absurd h hcols, ?_⟩
        intro a ha
        rw [hnil] at ha
        cases ha
      | partition p =>
        have hnil := partitionColumns_eq_none hcols hout nofun
        refine iff_of_true hnil fun _ a ha => ?_
        rw [hnil] at ha
        cases ha
      | row r => exact iff_of_false (cons_ne_nil _ _) id
    | some out =>
      have hsegments := segments_partitionColumns hcols hout
      have hiff := groups_comp_perm_iff (groupKey columns) keyString Prod.snd (occurrences input)
      unfold ExactGroups
      rw [hout]
      have hexact : out.segments.Perm ((groups (groupKey columns)
          (occurrences input)).map (List.map Prod.snd)) ↔ StringsApart columns input :=
        ⟨fun h => hiff.mp (hsegments.symm.trans h), fun h => hsegments.trans (hiff.mpr h)⟩
      refine hexact.trans ?_
      cases input with
      | table t => exact ⟨fun h => ⟨fun hnil => absurd hnil hcols, h⟩, And.right⟩
      | partition p => exact ⟨fun h _ => h, fun h => h hcols⟩
      | row r =>
        unfold partitionColumns at hout
        rw [keyGenOf_of_ne hcols] at hout
        cases hout

end OneStep

/-! ### Two steps -/

section TwoSteps

variable {first second : List (R → Value)} {input : DataHandler R} {p : PartitionHandler R}

/-- The rows of one key with a property. -/
theorem map_snd_filter_and {κ γ : Type*} [DecidableEq κ] (xs : List (κ × γ)) (k : κ) (q : γ → Bool) :
    (xs.filter fun a => decide (a.1 = k) && q a.2).map Prod.snd =
      ((xs.filter fun a => decide (a.1 = k)).map Prod.snd).filter q := by
  rw [List.filter_map, List.filter_filter]
  refine congrArg (List.map Prod.snd) (filter_congr fun a _ => ?_)
  exact Bool.and_comm _ _

/-- The key after the second step, from the key by all columns. -/
def stepKey (count : Nat) (key : Option (List Byte) × List Value) :
    Option (List Byte) × List Value :=
  (some (keyString (key.1, key.2.take count)), key.2.drop count)

theorem stepKey_groupKey (first second : List (R → Value)) (a : Option (List Byte) × Nat × R) :
    stepKey first.length (groupKey (first ++ second) a) =
      (some (keyString (groupKey first a)), keyOf second a.2.2) := by
  simp [stepKey, groupKey, keyOf]

theorem groupKey_append_eq_iff {a b} :
    groupKey (first ++ second) a = groupKey (first ++ second) b ↔
      groupKey first a = groupKey first b ∧ keyOf second a.2.2 = keyOf second b.2.2 := by
  unfold groupKey keyOf
  rw [Prod.mk.injEq, Prod.mk.injEq, map_append, map_append]
  constructor
  · rintro ⟨hseg, hkeys⟩
    obtain ⟨hfirst, hsecond⟩ := append_inj hkeys (by simp)
    exact ⟨⟨hseg, hfirst⟩, hsecond⟩
  · rintro ⟨⟨hseg, hfirst⟩, hsecond⟩
    exact ⟨hseg, by rw [hfirst, hsecond]⟩

theorem mem_occurrences_partition {y} :
    y ∈ occurrences (.partition p) ↔ ∃ a ∈ p.added, y = (some a.1, a.2) := by
  dsimp only [occurrences, PartitionHandler.inKeyOrder]
  simp only [List.mem_map, PartitionHandler.mem_addAll]
  constructor
  · rintro ⟨a, ⟨key, x, hx, rfl⟩, rfl⟩
    exact ⟨(key, x), hx, rfl⟩
  · rintro ⟨a, ha, rfl⟩
    exact ⟨a, ⟨a.1, a.2, ha, rfl⟩, rfl⟩

/-- If the strings of the first columns are apart, the groups by all columns are those that
the second columns make of the segments of the first ones. -/
theorem groups_append_perm (hfirst : first ≠ []) (hp : partitionColumns first input = some p)
    (hapart : StringsApart first input) :
    ((groups (groupKey (first ++ second)) (occurrences input)).map (List.map Prod.snd)).Perm
      ((groups (groupKey second) (occurrences (.partition p))).map (List.map Prod.snd)) := by
  have hadded := partitionColumns_eq_some hfirst hp
  refine groups_perm (stepKey first.length) ?_ ?_ ?_ ?_
  · intro a ha b hb heq
    rw [stepKey_groupKey, stepKey_groupKey, Prod.mk.injEq, some_inj] at heq
    exact groupKey_append_eq_iff.mpr ⟨hapart a ha b hb heq.1, heq.2⟩
  · intro a ha
    refine ⟨(some (keyString (groupKey first a)), a.2), mem_occurrences_partition.mpr
      ⟨(keyString (groupKey first a), a.2), ?_, rfl⟩, ?_⟩
    · rw [hadded]
      exact List.mem_map_of_mem (f := fun a => (keyString (groupKey first a), a.2)) ha
    · rw [stepKey_groupKey]
      rfl
  · intro y hy
    obtain ⟨b, hb, rfl⟩ := mem_occurrences_partition.mp hy
    rw [hadded] at hb
    obtain ⟨a, ha, rfl⟩ := List.mem_map.mp hb
    exact ⟨a, ha, by rw [stepKey_groupKey]; rfl⟩
  · intro a ha
    rw [stepKey_groupKey]
    have hright : ((occurrences (.partition p)).filter fun y =>
        decide (groupKey second y = (some (keyString (groupKey first a)), keyOf second a.2.2))).map
          Prod.snd =
        (p.segment (keyString (groupKey first a))).filter fun x =>
          decide (keyOf second x.2 = keyOf second a.2.2) := by
      rw [← p.segment_inKeyOrder]
      unfold PartitionHandler.segment
      rw [← map_snd_filter_and]
      dsimp only [occurrences]
      rw [List.filter_map, List.map_map]
      refine congrArg (List.map Prod.snd) (filter_congr fun b _ => ?_)
      rw [Bool.eq_iff_iff]
      simp only [Function.comp_apply, Bool.and_eq_true, decide_eq_true_eq]
      simp only [groupKey, Prod.mk.injEq, some_inj]
    rw [hright]
    unfold PartitionHandler.segment
    rw [← map_snd_filter_and, hadded, List.filter_map, List.map_map]
    refine congrArg (List.map Prod.snd) (filter_congr fun b hb => ?_)
    rw [Bool.eq_iff_iff]
    simp only [Function.comp_apply, decide_eq_true_eq, Bool.and_eq_true]
    rw [groupKey_append_eq_iff]
    exact and_congr_left fun _ => ⟨fun h => by rw [h], hapart b hb a ha⟩

theorem ExactGroups.segmentsOf_perm {columns} (h : ExactGroups columns input) :
    (segmentsOf (partitionColumns columns input)).Perm
      ((groups (groupKey columns) (occurrences input)).map (List.map Prod.snd)) := by
  unfold ExactGroups at h
  cases hout : partitionColumns columns input with
  | none =>
    rw [hout] at h
    rw [show occurrences input = [] from h]
    exact List.Perm.nil
  | some out =>
    rw [hout] at h
    exact h

/-- Two steps have the segments of one if all of them are exact. -/
theorem segmentsOf_two_steps (hexact : ExactGroups first input)
    (hsecond : ∀ p, partitionColumns first input = some p → ExactGroups second (.partition p))
    (hboth : ExactGroups (first ++ second) input) :
    (segmentsOf ((partitionColumns first input).bind fun p => partitionColumns second (.partition p))).Perm
      (segmentsOf (partitionColumns (first ++ second) input)) := by
  cases hp : partitionColumns first input with
  | none =>
    -- there are no rows, and no segments in one step
    unfold ExactGroups at hexact
    rw [hp] at hexact
    have hperm := hboth.segmentsOf_perm
    rw [show occurrences input = [] from hexact] at hperm
    exact hperm.symm
  | some p =>
    by_cases hfirst : first = []
    · subst hfirst
      cases input with
      | table t => cases hp
      | partition q =>
        cases hp
        exact List.Perm.refl _
      | row r => cases hp
    · have hapart : StringsApart first input := by
        have hkeys := exactGroups_iff.mp hexact
        cases input with
        | table t => exact hkeys.2
        | partition q => exact hkeys hfirst
        | row r => exact hkeys.elim
      exact ((hsecond p hp).segmentsOf_perm.trans
        (groups_append_perm hfirst hp hapart).symm).trans hboth.segmentsOf_perm.symm

theorem partitionsExactly_of_apart (hfirst : GroupsApart first input)
    (hsecond : ∀ p, partitionColumns first input = some p → GroupsApart second (.partition p))
    (hboth : GroupsApart (first ++ second) input) : PartitionsExactly first second input := by
  have hexact := exactGroups_iff.mpr hfirst
  have hexact' := fun p hp => exactGroups_iff.mpr (hsecond p hp)
  have hexact'' := exactGroups_iff.mpr hboth
  exact ⟨hexact, hexact', hexact'', segmentsOf_two_steps hexact hexact' hexact''⟩

end TwoSteps

/-! ### Plain keys -/

section Plain

variable {columns first second : List (R → Value)} {input : DataHandler R} {schema schema' : Schema}

/-- The input is a table or a partition, and its key columns have these types. -/
structure KeyedBy (schema schema' : Schema) (first second : List (R → Value))
    (input : DataHandler R) : Prop where
  notRow : ∀ r, input ≠ .row r
  length_first : first.length = schema.length
  length_second : second.length = schema'.length
  typed_first : ∀ a ∈ occurrences input, Typed schema (keyOf first a.2.2)
  typed_second : ∀ a ∈ occurrences input, Typed schema' (keyOf second a.2.2)

/-- A table that has rows is partitioned by at least one column. -/
def HasKey (first : List (R → Value)) (input : DataHandler R) : Prop :=
  ∀ t, input = .table t → occurrences input ≠ [] → first ≠ []

theorem keyString_some_eq {vals : List Value} (hne : vals ≠ []) (hplain : ∀ val ∈ vals, PlainKey val)
    (segment : List Byte) :
    keyString (some segment, vals) = segment ++ trailing keySep (vals.map genText) := by
  cases vals with
  | nil => exact absurd rfl hne
  | cons val vals =>
    have hfield := (isField_genText (hplain val mem_cons_self)).1
    rw [keyString, gen_some, List.map_cons, joinFields_cons hfield, trailing_cons]

/-- Plain values of the column types have strings of their own. -/
theorem stringsApart_of_plain (schema : Schema) (hcols : columns ≠ [])
    (htyped : ∀ a ∈ occurrences input, Typed schema (keyOf columns a.2.2))
    (hplain : ∀ a ∈ occurrences input, ∀ val ∈ keyOf columns a.2.2, PlainKey val) :
    StringsApart columns input := by
  intro a ha b hb heq
  have hvals : gen (some (keyOf columns a.2.2)) = gen (some (keyOf columns b.2.2)) →
      keyOf columns a.2.2 = keyOf columns b.2.2 :=
    gen_inj (htyped a ha) (htyped b hb) (hplain a ha) (hplain b hb)
  cases input with
  | table t =>
    obtain ⟨x, -, rfl⟩ := List.mem_map.mp ha
    obtain ⟨y, -, rfl⟩ := List.mem_map.mp hb
    exact Prod.ext rfl (hvals heq)
  | row r => rw [mem_singleton.mp ha, mem_singleton.mp hb]
  | partition p =>
    -- behind the key of the segment there is one text for each column
    have hne : ∀ r : R, keyOf columns r ≠ [] := fun r h => hcols (map_eq_nil_iff.mp h)
    have hfield : ∀ c ∈ occurrences (.partition p), ∀ text ∈ (keyOf columns c.2.2).map genText,
        keySep ∉ text := by
      intro c hc text htext
      obtain ⟨val, hval, rfl⟩ := List.mem_map.mp htext
      exact (isField_genText (hplain c hc val hval)).2
    obtain ⟨x, hx, rfl⟩ := mem_occurrences_partition.mp ha
    obtain ⟨y, hy, rfl⟩ := mem_occurrences_partition.mp hb
    unfold groupKey at heq
    rw [keyString_some_eq (hne _) (hplain _ ha), keyString_some_eq (hne _) (hplain _ hb)] at heq
    obtain ⟨hseg, htexts⟩ := append_trailing_inj (by simp [keyOf]) (hfield _ ha) (hfield _ hb) heq
    exact Prod.ext (congrArg some hseg) (hvals (by rw [gen_some, gen_some, htexts]))

/-- The rows of a result are those of the input. -/
theorem exists_occurrence_of_partitioned {p} (hp : partitionColumns first input = some p) {a}
    (ha : a ∈ occurrences (.partition p)) : ∃ b ∈ occurrences input, a.2 = b.2 := by
  by_cases hfirst : first = []
  · subst hfirst
    cases input with
    | table t => cases hp
    | row r => cases hp
    | partition q =>
      cases hp
      exact ⟨a, ha, rfl⟩
  · obtain ⟨c, hc, rfl⟩ := mem_occurrences_partition.mp ha
    rw [partitionColumns_eq_some hfirst hp] at hc
    obtain ⟨b, hb, rfl⟩ := List.mem_map.mp hc
    exact ⟨b, hb, rfl⟩

theorem groupsApart_of_plain (schema : Schema) (hrow : ∀ r, input ≠ .row r)
    (hkey : HasKey columns input)
    (htyped : ∀ a ∈ occurrences input, Typed schema (keyOf columns a.2.2))
    (hplain : ∀ a ∈ occurrences input, ∀ val ∈ keyOf columns a.2.2, PlainKey val) :
    GroupsApart columns input := by
  cases input with
  | row r => exact absurd rfl (hrow r)
  | partition p => exact fun hcols => stringsApart_of_plain schema hcols htyped hplain
  | table t =>
    by_cases hrows : occurrences (.table t) = []
    · refine ⟨fun _ => hrows, fun a ha => ?_⟩
      rw [hrows] at ha
      cases ha
    · have hcols := hkey t rfl hrows
      exact ⟨fun h => absurd h hcols, stringsApart_of_plain schema hcols htyped hplain⟩

/-- Columns of plain values are grouped exactly, in one step or in two, unless there is no
column to partition a table by. -/
theorem partitionsExactly_iff_of_plain (h : KeyedBy schema schema' first second input)
    (hplain : ∀ a ∈ occurrences input, ∀ val ∈ keyOf (first ++ second) a.2.2, PlainKey val) :
    PartitionsExactly first second input ↔ HasKey first input := by
  have hkeys : ∀ r : R, keyOf (first ++ second) r = keyOf first r ++ keyOf second r :=
    fun r => map_append
  constructor
  · rintro hexact t rfl hrows hnil
    exact hrows ((exactGroups_iff.mp hexact.exact_first).1 hnil)
  · intro hkey
    refine partitionsExactly_of_apart
      (groupsApart_of_plain schema h.notRow hkey h.typed_first fun a ha val hval => ?_)
      (fun p hp => groupsApart_of_plain schema' nofun nofun (fun a ha => ?_) fun a ha val hval => ?_)
      (groupsApart_of_plain (schema ++ schema') h.notRow (fun t ht hrows hnil => ?_)
        (fun a ha => ?_) hplain)
    · exact hplain a ha val (by rw [hkeys]; exact mem_append_left _ hval)
    · obtain ⟨b, hb, hab⟩ := exists_occurrence_of_partitioned hp ha
      rw [hab]
      exact h.typed_second b hb
    · obtain ⟨b, hb, hab⟩ := exists_occurrence_of_partitioned hp ha
      rw [hab] at hval
      exact hplain b hb val (by rw [hkeys]; exact mem_append_right _ hval)
    · exact hkey t ht hrows (append_eq_nil_iff.mp hnil).1
    · rw [hkeys]
      exact typed_append (h.typed_first a ha) (h.typed_second a ha)

/-! ### Key types -/

/-- A table of key values. -/
def tableOfKeys (keys : List (List Value × List Value)) :
    DataHandler (List Value × List Value) :=
  .table ⟨some (keys.map fun key => (0, key)), .kNoneOrder⟩

/-- The columns of the first and of the second values. -/
def readFirst (schema : Schema) : List (List Value × List Value → Value) :=
  (List.range schema.length).map fun i key => key.1.getD i .null

def readSecond (schema : Schema) : List (List Value × List Value → Value) :=
  (List.range schema.length).map fun i key => key.2.getD i .null

theorem map_getD_range {vals : List Value} (h : Typed schema vals) :
    ((List.range schema.length).map fun i => vals.getD i .null) = vals := by
  refine ext_getElem (by simp [h.length_eq]) fun i hi hi' => ?_
  simp [hi']

variable {keys : List (List Value × List Value)} {key : List Value × List Value}

theorem keyOf_readFirst (h : Typed schema key.1) : keyOf (readFirst schema) key = key.1 := by
  rw [keyOf, readFirst, List.map_map]
  exact map_getD_range h

theorem keyOf_readSecond (h : Typed schema key.2) : keyOf (readSecond schema) key = key.2 := by
  rw [keyOf, readSecond, List.map_map]
  exact map_getD_range h

theorem occurrences_tableOfKeys :
    occurrences (tableOfKeys keys) = keys.map fun key => (none, 0, key) := by
  simp [occurrences, tableOfKeys]

theorem keyedBy_tableOfKeys (h : ∀ key ∈ keys, Typed schema key.1 ∧ Typed schema' key.2) :
    KeyedBy schema schema' (readFirst schema) (readSecond schema') (tableOfKeys keys) := by
  refine ⟨nofun, by simp [readFirst], by simp [readSecond], ?_, ?_⟩
  all_goals
    intro a ha
    rw [occurrences_tableOfKeys] at ha
    obtain ⟨key, hkey, rfl⟩ := List.mem_map.mp ha
  · rw [keyOf_readFirst (h key hkey).1]
    exact (h key hkey).1
  · rw [keyOf_readSecond (h key hkey).2]
    exact (h key hkey).2

theorem readFirst_ne_nil (h : schema ≠ []) : readFirst schema ≠ [] := by
  simpa [readFirst] using h

theorem readSecond_ne_nil (h : schema ≠ []) : readSecond schema ≠ [] := by
  simpa [readSecond] using h

section Exact

variable (h : ∀ (first second : List (List Value × List Value → Value)) input,
  KeyedBy schema schema' first second input → PartitionsExactly first second input)

include h

theorem schema_ne_nil_of_exact : schema ≠ [] := by
  rintro rfl
  have hkeyed : KeyedBy [] schema' (readFirst []) (readSecond schema')
      (tableOfKeys [([], keyValues schema' none)]) :=
    keyedBy_tableOfKeys (by simpa using ⟨typed_keyValues_none [], typed_keyValues_none schema'⟩)
  exact cons_ne_nil _ _ ((exactGroups_iff.mp (h _ _ _ hkeyed).exact_first).1 rfl)

/-- First columns that are always grouped exactly have types whose values have strings of their
own: two values of one string would be the only rows of a table. -/
theorem plainType_first_of_exact : ∀ type ∈ schema, IsPlainType type := by
  have htyped' := typed_keyValues_none schema'
  refine plainType_of_gen_inj fun a b ha hb heq => ?_
  have hkeyed : KeyedBy schema schema' (readFirst schema) (readSecond schema')
      (tableOfKeys [(a, keyValues schema' none), (b, keyValues schema' none)]) :=
    keyedBy_tableOfKeys (by simpa using ⟨⟨ha, htyped'⟩, hb, htyped'⟩)
  have hapart := (exactGroups_iff.mp (h _ _ _ hkeyed).exact_first).2 _ mem_cons_self _
    (mem_cons_of_mem _ mem_cons_self)
  simp only [groupKey, keyOf_readFirst, ha, hb] at hapart
  exact (Prod.mk.inj (hapart heq)).2

/-- So have the second ones: two rows of one first value stay in one segment. -/
theorem plainType_second_of_exact : ∀ type ∈ schema', IsPlainType type := by
  have hne := schema_ne_nil_of_exact h
  have htyped := typed_keyValues_none schema
  intro type hmem
  refine plainType_of_gen_inj (fun a b ha hb heq => ?_) type hmem
  have hkeyed : KeyedBy schema schema' (readFirst schema) (readSecond schema')
      (tableOfKeys [(keyValues schema none, a), (keyValues schema none, b)]) :=
    keyedBy_tableOfKeys (by simpa using ⟨⟨htyped, ha⟩, htyped, hb⟩)
  obtain ⟨p, hp⟩ : ∃ p, partitionColumns (readFirst schema) (tableOfKeys
      [(keyValues schema none, a), (keyValues schema none, b)]) = some p := by
    rw [partitionColumns, keyGenOf_of_ne (readFirst_ne_nil hne)]
    exact ⟨_, rfl⟩
  have hmem_p : ∀ vals ∈ [a, b], (some (keyString (none, keyValues schema none)), 0,
      keyValues schema none, vals) ∈ occurrences (.partition p) := by
    intro vals hvals
    refine mem_occurrences_partition.mpr
      ⟨(keyString (none, keyValues schema none), 0, keyValues schema none, vals), ?_, rfl⟩
    rw [partitionColumns_eq_some (readFirst_ne_nil hne) hp, occurrences_tableOfKeys]
    simp only [List.map_cons, List.map_nil, groupKey, keyOf_readFirst, htyped]
    simpa using hvals
  have hapart := exactGroups_iff.mp ((h _ _ _ hkeyed).exact_second p hp)
    (readSecond_ne_nil (ne_nil_of_mem hmem)) _ (hmem_p a (by simp)) _ (hmem_p b (by simp))
  simp only [groupKey, keyOf_readSecond, ha, hb, keyString, heq] at hapart
  exact (Prod.mk.inj (hapart trivial)).2

end Exact

/-- Partitioning by key columns of given types is exact for every input exactly if no column
is a string or a floating point number, and there is a first column. An input whose values
are plain is partitioned exactly as soon as a table with rows has a first column. -/
theorem partition_exact_iff (schema schema' : Schema) :
    ((∀ (R : Type) (first second : List (R → Value)) (input : DataHandler R),
        KeyedBy schema schema' first second input → PartitionsExactly first second input) ↔
      schema ≠ [] ∧ ∀ type ∈ schema ++ schema', IsPlainType type) ∧
    ∀ (R : Type) (first second : List (R → Value)) (input : DataHandler R),
      KeyedBy schema schema' first second input →
      (∀ a ∈ occurrences input, ∀ val ∈ keyOf (first ++ second) a.2.2, PlainKey val) →
      (PartitionsExactly first second input ↔ HasKey first input) := by
  refine ⟨⟨fun h => ⟨schema_ne_nil_of_exact (h _), forall_mem_append.mpr
      ⟨plainType_first_of_exact (h _), plainType_second_of_exact (h _)⟩⟩, ?_⟩,
    fun R first second input h hplain => partitionsExactly_iff_of_plain h hplain⟩
  rintro ⟨hne, htypes⟩ R first second input h
  refine (partitionsExactly_iff_of_plain h fun a ha => ?_).mpr fun t ht hrows hnil => ?_
  · have hkey : keyOf (first ++ second) a.2.2 = keyOf first a.2.2 ++ keyOf second a.2.2 := map_append
    rw [hkey]
    exact plainKey_of_typed (typed_append (h.typed_first a ha) (h.typed_second a ha)) htypes
  · exact hne (length_eq_zero_iff.mp (by rw [← h.length_first, hnil]; rfl))

end Plain

/-- Two columns of strings: `a|b` and `c` have the key string of `a` and `b|c`. -/
theorem not_partitionsExactly_separator :
    ¬ PartitionsExactly [fun r : List Byte × List Byte => .varchar r.1, fun r => .varchar r.2] []
      (.table ⟨some [(0, (ascii ['a', '|', 'b'], ascii ['c'])),
        (0, (ascii ['a'], ascii ['b', '|', 'c']))], .kNoneOrder⟩) := by
  intro h
  have hapart := (exactGroups_iff.mp h.exact_first).2 _ mem_cons_self _
    (mem_cons_of_mem _ mem_cons_self) (by decide)
  revert hapart
  decide

end HybridSE.Vm
