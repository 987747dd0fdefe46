import HybridSE.Vm.KeyGenerator

/-!
# HybridSE.Vm.KeyStrings

When key strings stand for key values.

Partitions, index lookups and joins compare the strings of `KeyGenerator::Gen` in
place of the values. Numbers, dates and booleans have texts without a separator that
determine the value (`genText_inj`), so columns of these types are told apart. A
string column can hold the token of NULL or a separator, and floating point columns
write nothing at all; `gen_collisionFree_iff` says that these are the only
exceptions, and which strings are harmless.
-/

namespace HybridSE.Vm

open HybridSE.Lib HybridSE.Codec List

/-! ### Texts that determine their value -/

/-- A value whose text is its own: no floating point number, and no string that
contains the separator or spells a token. -/
def PlainKey : Value → Prop
  | .varchar bytes => keySep ∉ bytes ∧ bytes ≠ noneToken ∧ bytes ≠ emptyString
  | .float _ => False
  | .double _ => False
  | _ => True

/-- The column types whose values all have a text of their own. -/
def IsPlainType (type : ColumnType) : Prop :=
  type ≠ .kVarchar ∧ type ≠ .kFloat ∧ type ≠ .kDouble

variable {val : Value} {type : ColumnType} {schema : Schema} {a b : List Value}

theorem plainKey_of_hasType (h : val.HasType type) (hplain : IsPlainType type) : PlainKey val := by
  obtain ⟨hstr, hfloat, hdouble⟩ := hplain
  cases val <;> first | exact trivial | exact absurd h ‹_›

theorem isField_intText (v : Int) : IsField keySep (intText v) := by
  refine ⟨intText_ne_nil v, fun hmem => ?_⟩
  rcases mem_intText hmem with h | h
  · exact absurd h (by decide)
  · exact absurd h.2 (by decide)

theorem isField_boolText (b : Bool) : IsField keySep (boolText b) := by
  cases b <;> decide

theorem isField_genText (h : PlainKey val) : IsField keySep (genText val) := by
  cases val with
  | null => decide
  | bool b => exact isField_boolText b
  | varchar bytes =>
    by_cases hempty : bytes = []
    · rw [hempty]
      decide
    · exact ⟨by simp [genText, nonEmptyText, hempty],
        by simpa [genText, nonEmptyText, hempty] using h.1⟩
  | float bits => exact h.elim
  | double bits => exact h.elim
  | int16 v | int32 v | int64 v | timestamp v | date v => exact isField_intText _

/-- The token of NULL is no number. -/
theorem noneToken_ne_intText (v : Int) : noneToken ≠ intText v := by
  intro h
  have hmem : 33#8 ∈ intText v := h ▸ (by decide : 33#8 ∈ noneToken)
  rcases mem_intText hmem with h | h
  · exact absurd h (by decide)
  · exact absurd h.1 (by decide)

theorem noneToken_ne_genText (hval : val ≠ .null) (h : PlainKey val) : noneToken ≠ genText val := by
  cases val with
  | null => exact absurd rfl hval
  | bool b => cases b <;> decide
  | varchar bytes =>
    by_cases hempty : bytes = []
    · rw [hempty]
      decide
    · simpa [genText, nonEmptyText, hempty] using h.2.1.symm
  | float bits => exact h.elim
  | double bits => exact h.elim
  | int16 v | int32 v | int64 v | timestamp v | date v => exact noneToken_ne_intText _

theorem nonEmptyText_inj {x y} (hx : x ≠ emptyString) (hy : y ≠ emptyString)
    (h : nonEmptyText x = nonEmptyText y) : x = y := by
  unfold nonEmptyText at h
  split at h <;> split at h
  case isTrue.isTrue hx0 hy0 => rw [hx0, hy0]
  case isTrue.isFalse => exact absurd h.symm hy
  case isFalse.isTrue => exact absurd h hx
  case isFalse.isFalse => exact h

theorem boolText_inj {b c} (h : boolText b = boolText c) : b = c := by
  cases b <;> cases c <;> first | rfl | exact absurd h (by decide)

/-- Two values of one column are equal if their texts are. -/
theorem genText_inj {x y} (hx : x.HasType type) (hy : y.HasType type) (hpx : PlainKey x)
    (hpy : PlainKey y) (h : genText x = genText y) : x = y := by
  by_cases hxn : x = .null
  · by_contra hne
    exact noneToken_ne_genText (fun hyn => hne (hxn.trans hyn.symm)) hpy (by rw [← h, hxn]; rfl)
  by_cases hyn : y = .null
  · exact absurd (by rw [h, hyn]; rfl) (noneToken_ne_genText hxn hpx).symm
  cases x <;> cases hx <;> cases y <;> first
    | exact absurd rfl hxn
    | exact absurd rfl hyn
    | exact hpx.elim
    | cases hy
  all_goals first
    | rw [BitVec.eq_of_toInt_eq (intText_inj h)]
    | rw [nonEmptyText_inj hpx.2.2 hpy.2.2 h]
    | rw [boolText_inj h]

/-! ### Tuples -/

/-- In every key column both values are NULL, or neither is and they are equal. -/
def SameKeys (a b : List Value) : Prop :=
  ∀ (i : Nat) (x y : Value), a[i]? = some x → b[i]? = some y →
    x = .null ∧ y = .null ∨ x ≠ .null ∧ y ≠ .null ∧ x = y

theorem sameKeys_iff (ha : Typed schema a) (hb : Typed schema b) : SameKeys a b ↔ a = b := by
  have hlen : a.length = b.length := ha.length_eq.trans hb.length_eq.symm
  constructor
  · intro h
    refine ext_getElem hlen fun i hi hi' => ?_
    rcases h i _ _ (getElem?_eq_getElem hi) (getElem?_eq_getElem hi') with ⟨hx, hy⟩ | h
    · rw [hx, hy]
    · exact h.2.2
  · rintro rfl i x y hx hy
    obtain rfl : x = y := Option.some.inj (hx.symm.trans hy)
    by_cases hnull : x = .null
    · exact .inl ⟨hnull, hnull⟩
    · exact .inr ⟨hnull, hnull, rfl⟩

/-- Plain tuples have one string each. -/
theorem gen_inj (ha : Typed schema a) (hb : Typed schema b) (hpa : ∀ val ∈ a, PlainKey val)
    (hpb : ∀ val ∈ b, PlainKey val) (h : gen (some a) = gen (some b)) : a = b := by
  have hfield : ∀ {vals : List Value}, (∀ val ∈ vals, PlainKey val) →
      ∀ field ∈ vals.map genText, IsField keySep field := by
    intro vals hvals field hmem
    obtain ⟨val, hval, rfl⟩ := List.mem_map.mp hmem
    exact isField_genText (hvals val hval)
  have htexts : a.map genText = b.map genText := joinFields_inj (hfield hpa) (hfield hpb) h
  refine ext_getElem (ha.length_eq.trans hb.length_eq.symm) fun i hi hi' => ?_
  have htext : genText a[i] = genText b[i] := by
    have := congrArg (fun texts => texts[i]?) htexts
    simpa [hi, hi'] using this
  have htype := getElem?_eq_getElem (ha.length_eq ▸ hi : i < schema.length)
  exact genText_inj (ha.hasType i _ _ htype (getElem?_eq_getElem hi))
    (hb.hasType i _ _ htype (getElem?_eq_getElem hi'))
    (hpa _ (getElem_mem hi)) (hpb _ (getElem_mem hi')) htext

theorem typed_append {schema' a'} (h : Typed schema a) (h' : Typed schema' a') :
    Typed (schema ++ schema') (a ++ a') := by
  refine ⟨by simp [h.length_eq, h'.length_eq], fun i type val htype hval => ?_⟩
  by_cases hi : i < schema.length
  · rw [getElem?_append_left hi] at htype
    rw [getElem?_append_left (h.length_eq ▸ hi)] at hval
    exact h.hasType i type val htype hval
  · rw [getElem?_append_right (not_lt.mp hi)] at htype
    rw [getElem?_append_right (h.length_eq ▸ not_lt.mp hi), h.length_eq] at hval
    exact h'.hasType _ type val htype hval

/-- A column of any other type has two values with one text. -/
theorem exists_collision (h : ¬ IsPlainType type) :
    ∃ x y : Value, x.HasType type ∧ y.HasType type ∧ x ≠ y ∧ genText x = genText y := by
  cases type with
  | kVarchar => exact ⟨.null, .varchar noneToken, trivial, rfl, by decide, by decide⟩
  | kFloat => exact ⟨.float 0, .float 1, rfl, rfl, by decide, rfl⟩
  | kDouble => exact ⟨.double 0, .double 1, rfl, rfl, by decide, rfl⟩
  | _ => exact absurd (by unfold IsPlainType; decide) h

/-- NULL in every column but one. -/
def onlyColumn (schema : Schema) (i : Nat) (val : Value) : List Value :=
  (List.replicate schema.length .null).set i val

theorem typed_onlyColumn {i} (htype : schema[i]? = some type) (hval : val.HasType type) :
    Typed schema (onlyColumn schema i val) := by
  refine ⟨by simp [onlyColumn], fun j typ v hj hv => ?_⟩
  unfold onlyColumn at hv
  by_cases hij : i = j
  · subst hij
    obtain rfl : type = typ := Option.some.inj (htype.symm.trans hj)
    rw [getElem?_set_self (by simpa using (List.getElem?_eq_some_iff.mp hj).1)] at hv
    exact Option.some.inj hv ▸ hval
  · rw [getElem?_set_ne hij, getElem?_replicate] at hv
    split at hv
    · exact Option.some.inj hv ▸ trivial
    · cases hv

theorem onlyColumn_inj {i} (hi : i < schema.length) {x y}
    (h : onlyColumn schema i x = onlyColumn schema i y) : x = y := by
  have := congrArg (fun vals => vals[i]?) h
  simpa [onlyColumn, hi] using this

/-- Tuples with a string each: exactly those of plain columns. -/
theorem plainType_of_gen_inj
    (h : ∀ a b : List Value, Typed schema a → Typed schema b → gen (some a) = gen (some b) → a = b) :
    ∀ type ∈ schema, IsPlainType type := by
  intro type hmem
  by_contra hplain
  obtain ⟨i, hi, htype⟩ := getElem_of_mem hmem
  obtain ⟨x, y, hx, hy, hne, htext⟩ := exists_collision hplain
  have hi' : schema[i]? = some type := by rw [getElem?_eq_getElem hi, htype]
  refine hne (onlyColumn_inj hi (h _ _ (typed_onlyColumn hi' hx) (typed_onlyColumn hi' hy) ?_))
  change joinFields keySep _ = joinFields keySep _
  rw [onlyColumn, onlyColumn, map_set, map_set, htext]

/-- Plain columns hold plain values. -/
theorem plainKey_of_typed (h : Typed schema a) (hplain : ∀ type ∈ schema, IsPlainType type) :
    ∀ val ∈ a, PlainKey val := by
  intro val hmem
  obtain ⟨i, hi, rfl⟩ := getElem_of_mem hmem
  have hi' : i < schema.length := h.length_eq ▸ hi
  exact plainKey_of_hasType (h.hasType i _ _ (getElem?_eq_getElem hi')
    (getElem?_eq_getElem hi)) (hplain _ (getElem_mem hi'))

/-! ### Rows of size zero -/

/-- The key values of a row; a row of size zero reads NULL in every column. -/
def keyValues (schema : Schema) : Option (List Value) → List Value
  | none => List.replicate schema.length .null
  | some vals => vals

theorem typed_keyValues_none (schema : Schema) : Typed schema (keyValues schema none) := by
  refine ⟨length_replicate, fun i type val _ hval => ?_⟩
  rw [keyValues, getElem?_replicate] at hval
  split at hval
  · exact Option.some.inj hval ▸ trivial
  · cases hval

/-- The string of a row of size zero is that of NULLs for one column only. -/
theorem gen_none_eq_iff (schema : Schema) :
    gen none = gen (some (keyValues schema none)) ↔ schema.length = 1 := by
  change noneToken = joinFields keySep ((List.replicate schema.length Value.null).map genText) ↔ _
  rw [map_replicate]
  rcases hlen : schema.length with _ | _ | n
  · exact iff_of_false (by decide) (by decide)
  · exact iff_of_true rfl rfl
  · refine iff_of_false (fun h => ?_) (by omega)
    have hne : genText Value.null ≠ [] := by decide
    rw [replicate_succ, replicate_succ, joinFields_cons hne] at h
    have := congrArg List.length h
    simp [genText] at this

/-- Key strings are collision free exactly for columns that are neither strings nor
floating point numbers; rows of size zero agree with their NULLs only for a single
column. Other columns are safe as long as their values are plain. -/
theorem gen_collisionFree_iff (schema : Schema) :
    ((∀ a b : List Value, Typed schema a → Typed schema b →
        (gen (some a) = gen (some b) ↔ SameKeys a b)) ↔ ∀ type ∈ schema, IsPlainType type) ∧
      ((∀ a b : Option (List Value), (∀ vals ∈ a, Typed schema vals) →
          (∀ vals ∈ b, Typed schema vals) →
          (gen a = gen b ↔ SameKeys (keyValues schema a) (keyValues schema b))) ↔
        schema.length = 1 ∧ ∀ type ∈ schema, IsPlainType type) ∧
      ∀ a b : List Value, Typed schema a → Typed schema b → (∀ val ∈ a, PlainKey val) →
        (∀ val ∈ b, PlainKey val) → (gen (some a) = gen (some b) ↔ SameKeys a b) := by
  have hplain : (∀ a b : List Value, Typed schema a → Typed schema b →
      (gen (some a) = gen (some b) ↔ SameKeys a b)) ↔ ∀ type ∈ schema, IsPlainType type := by
    refine ⟨fun h => plainType_of_gen_inj fun a b ha hb heq =>
      (sameKeys_iff ha hb).mp ((h a b ha hb).mp heq), fun h a b ha hb => ?_⟩
    rw [sameKeys_iff ha hb]
    exact ⟨gen_inj ha hb (plainKey_of_typed ha h) (plainKey_of_typed hb h), fun heq => by rw [heq]⟩
  refine ⟨hplain, ⟨fun h => ⟨?_, hplain.mp fun a b ha hb => ?_⟩, ?_⟩, ?_⟩
  · have hnull := typed_keyValues_none schema
    exact (gen_none_eq_iff schema).mp ((h none (some (keyValues schema none)) (by simp)
      (by simpa using hnull)).mpr ((sameKeys_iff hnull hnull).mpr rfl))
  · exact h (some a) (some b) (by simpa using ha) (by simpa using hb)
  · -- a row of size zero has the string of the tuple it reads
    rintro ⟨hlen, htypes⟩ a b ha hb
    have hread : ∀ {r : Option (List Value)}, (∀ vals ∈ r, Typed schema vals) →
        Typed schema (keyValues schema r) ∧ gen r = gen (some (keyValues schema r)) := by
      intro r hr
      cases r with
      | none => exact ⟨typed_keyValues_none schema, (gen_none_eq_iff schema).mpr hlen⟩
      | some vals => exact ⟨hr vals rfl, rfl⟩
    rw [(hread ha).2, (hread hb).2]
    exact hplain.mpr htypes _ _ (hread ha).1 (hread hb).1
  · intro a b ha hb hpa hpb
    rw [sameKeys_iff ha hb]
    exact ⟨gen_inj ha hb hpa hpb, fun heq => by rw [heq]⟩

/-- NULL and the string that spells its token have one key string. -/
theorem gen_null_eq_noneToken :
    gen (some [.null]) = gen (some [.varchar noneToken]) ∧
      ¬ SameKeys [.null] [.varchar noneToken] := by
  refine ⟨by decide, fun h => ?_⟩
  rcases h 0 .null (.varchar noneToken) rfl rfl with ⟨-, h⟩ | ⟨h, -⟩
  · cases h
  · exact h rfl

end HybridSE.Vm
