import HybridSE.Passes.JoinCondition
import HybridSE.Passes.KeysOptimized
import Mathlib.Data.List.NodupEquivFin

/-!
# HybridSE.Passes.KeysOptimizedSound

Does an index seek find the rows that satisfy the equalities? The seek key is built from the
index keys of `KeysOptimized`, in the order and number that the query has; a row is stored under
its key columns in the order of the index.

`keysOptimized_seeks`: the strings agree for every row, and the equalities that are left are
those the index does not serve, when the query has the key columns of the index once each and
in the order of the index, the key generator formats columns of these types as the catalog
does, and the two sides are of one kind. For the other direction `sample` gives every column a value whose text is
one digit, so that two different lists of columns have different key strings.
-/

namespace HybridSE.Passes.GroupAndSort

open HybridSE.Codec HybridSE.Lib HybridSE.Vm List Option

/-! ### Seeks and equalities -/

/-- The seek key of a join is generated per left row, the one of a filter once, from constants
whose strings have at most `maxLength` bytes. -/
inductive KeyUse
  | join
  | filter (maxLength : Nat) (pos : 0 < maxLength)

/-- The values that the left side of an equality can have. -/
def KeyUse.Admits : KeyUse → Value → Prop
  | filter maxLength _, .varchar bytes => bytes.length ≤ maxLength
  | _, _ => True

/-- The text of a value in a seek key. -/
def KeyUse.text : KeyUse → Value → List Byte
  | join => genText
  | filter _ _ => constText

/-- `KeyGenerator::Gen` for a join, `KeyGenerator::GenConst` for a filter. -/
def KeyUse.seekKey : KeyUse → List Value → List Byte
  | join, vals => gen (some vals)
  | filter _ _, vals => Vm.genConst vals

/-- The value of a named column of a row. -/
def cell (t : TableDef) (vals : List Value) (name : String) : Value :=
  ((t.find name).bind fun c => vals[c.1]?).getD .null

/-- The source column of a key expression. -/
def KeyExpr.source : KeyExpr → Option String
  | column source => source
  | expr => none

/-- The row satisfies the equalities of left values and columns. What an equality with another
expression says is left open. -/
def Satisfies (mixed : Value → Value → Bool) (t : TableDef) (pairs : List (Value × KeyExpr))
    (vals : List Value) : Prop :=
  ∀ pair ∈ pairs, ∀ c, pair.2.source = some c →
    evalEq3 mixed pair.1 (cell t vals c) = some true

/-- The index has the column of the key expression. -/
def covers (t : TableDef) (st : Vm.IndexSt) : KeyExpr → Bool :=
  KeyExpr.bit fun c => decide (c ∈ keyNames t st)

/-- The columns of the query that the index has. -/
def coveredColumns (t : TableDef) (st : Vm.IndexSt) (right : List KeyExpr) : List String :=
  (right.filterMap KeyExpr.source).filter fun c => decide (c ∈ keyNames t st)

/-- The keys before the pass. -/
def Keys.ofEqualities (left : List Value) (right : List KeyExpr)
    (sort : Option (List OrderExpression)) : Keys Value where
  left := left
  index := []
  right := some right
  sort := sort

/-- What a seek relies on: the key it generates is the one under which every row that satisfies
the equalities is stored, and the other equalities, and only they, are left. The left sides
are given by their values. -/
structure Seeks (mixed : Value → Value → Bool) (use : KeyUse) (t : TableDef) (st : Vm.IndexSt)
    (scan : Scan) (leftTypes : Schema) (right : List KeyExpr)
    (sort : Option (List OrderExpression)) : Prop where
  seek : ∀ left vals, Typed leftTypes left → (∀ val ∈ left, use.Admits val) →
    Typed t.schema vals → Satisfies mixed t (left.zip right) vals →
    ∀ scan' keys, keysOptimized (fun _ => .expr) scan (.ofEqualities left right sort) =
        some (scan', keys) →
      keys.index ≠ [] → use.seekKey keys.index = decodeKeys (st.keyOf vals)
  rest : ∀ left, left.length = right.length →
    ∀ scan' keys, keysOptimized (fun _ => .expr) scan (.ofEqualities left right sort) =
        some (scan', keys) →
      keys.left = ((left.zip right).filter fun pair => !covers t st pair.2).map Prod.fst ∧
        keys.right = some (right.filter fun key => !covers t st key)

/-! ### Columns and values of a table -/

theorem find_columnName {t name c} (h : t.find name = some c) : columnName t c.1 = name := by
  obtain ⟨⟨column, i⟩, hfind, rfl⟩ := map_eq_some_iff.mp h
  have hmem := mem_of_find?_eq_some hfind
  have hname := find?_some hfind
  rw [mem_zipIdx_iff_getElem?] at hmem
  unfold columnName
  rw [hmem]
  exact beq_iff_eq.mp hname

theorem mem_initIndexes {t : TableDef} {ds hint st} (h : st ∈ (t.initIndexes ds hint).2) :
    st ∈ hint ∨ ∃ i d, t.indexSt i d = some st := by
  induction ds generalizing hint with
  | nil => exact .inl h
  | cons d ds ih =>
    unfold TableDef.initIndexes at h
    cases hst : t.indexSt d.2 d.1 with
    | none =>
      rw [hst] at h
      exact .inl h
    | some new =>
      rw [hst] at h
      rcases ih h with hmem | hnew
      · split at hmem
        · exact .inl hmem
        · rcases mem_append.mp hmem with hold | hsingle
          · exact .inl hold
          · obtain rfl := mem_singleton.mp hsingle
            exact .inr ⟨_, _, hst⟩
      · exact .inr hnew

/-- A key column of an index is found under its name. -/
theorem find_keyName {t : TableDef} {st} (h : st ∈ t.indexHint) {c} (hc : c ∈ st.keys) :
    t.find (columnName t c.1) = some c := by
  rcases mem_initIndexes h with hnil | ⟨i, d, hst⟩
  · cases hnil
  · obtain ⟨pos, -, hst⟩ := bind_eq_some_iff.mp hst
    obtain ⟨keys, hkeys, hst⟩ := bind_eq_some_iff.mp hst
    cases hst
    obtain ⟨name, -, hname⟩ := exists_of_mem_mapM hkeys hc
    rw [find_columnName hname]
    exact hname

theorem keyOf_eq {t : TableDef} {st} (h : st ∈ t.indexHint) (vals : List Value) :
    st.keyOf vals = (keyNames t st).map (cell t vals) := by
  unfold Vm.IndexSt.keyOf keyNames
  rw [List.map_map]
  refine map_congr_left fun c hc => ?_
  unfold cell
  rw [Function.comp_apply, find_keyName h hc]
  rfl

/-! ### Bits and keys -/

theorem withBit_map {α β : Type*} (value : Bool) (f : β → Bool) (xs : List α) (ys : List β) :
    withBit value xs (ys.map f) =
      ((xs.zip ys).filter fun pair => f pair.2 == value).map Prod.fst := by
  induction xs generalizing ys with
  | nil => rfl
  | cons x xs ih =>
    cases ys with
    | nil => rfl
    | cons y ys =>
      have hstep := ih ys
      unfold withBit at hstep ⊢
      by_cases hy : f y = value
      · simp [hy, hstep]
      · simp [hy, hstep]

theorem withBit_self {β : Type*} (value : Bool) (f : β → Bool) (ys : List β) :
    withBit value ys (ys.map f) = ys.filter fun y => f y == value := by
  induction ys with
  | nil => rfl
  | cons y ys ih =>
    unfold withBit at ih ⊢
    by_cases hy : f y = value
    · simp [hy, ih]
    · simp [hy, ih]

theorem length_withBit {α : Type*} (value : Bool) (xs : List α) (bits : List Bool)
    (h : bits.length = xs.length) : (withBit value xs bits).length = bits.count value := by
  induction xs generalizing bits with
  | nil =>
    obtain rfl := length_eq_zero_iff.mp h
    rfl
  | cons x xs ih =>
    cases bits with
    | nil => cases h
    | cons b bits =>
      have hstep := ih bits (by simpa using h)
      unfold withBit at hstep ⊢
      rw [count_cons, ← hstep]
      by_cases hb : b = value
      · simp [hb]
      · simp [hb]

theorem count_false_le {a b} (h : List.Forall₂ (fun x y => x = true → y = true) a b) :
    b.count false ≤ a.count false := by
  induction h with
  | nil => exact Nat.le_refl _
  | @cons x y a b hxy _ ih =>
    cases x <;> cases y <;> simp_all
    omega

/-- Bits below others, with as many zeros, are the same. -/
theorem eq_of_forall₂_of_count {a b} (h : List.Forall₂ (fun x y => x = true → y = true) a b)
    (hcount : a.count false = b.count false) : a = b := by
  induction h with
  | nil => rfl
  | @cons x y a b hxy hab ih =>
    have hle := count_false_le hab
    cases x <;> cases y <;> simp_all
    omega

/-- Where every element has a name with the same text, the texts are those of the names. -/
theorem map_eq_map_filterMap {α β γ : Type*} {xs : List α} {name f} {g : β → γ}
    (h : ∀ x ∈ xs, ∃ b, name x = some b ∧ f x = g b) : xs.map f = (xs.filterMap name).map g := by
  induction xs with
  | nil => rfl
  | cons x xs ih =>
    obtain ⟨b, hname, hf⟩ := h x mem_cons_self
    rw [map_cons, filterMap_cons_some hname, map_cons, hf,
      ih fun y hy => h y (mem_cons_of_mem _ hy)]

/-- Lists that no labelling with two labels tells apart are the same. -/
theorem eq_of_forall_map_eq {α : Type*} [DecidableEq α] {xs ys : List α}
    (h : ∀ f : α → Bool, xs.map f = ys.map f) : xs = ys := by
  have hlen : xs.length = ys.length := by simpa using congrArg List.length (h fun _ => true)
  refine ext_getElem hlen fun i hx hy => ?_
  have hi := congrArg (·[i]?) (h fun a => decide (a = xs[i]))
  simp only [getElem?_map, getElem?_eq_getElem hx, getElem?_eq_getElem hy] at hi
  have hdec : true = decide (ys[i] = xs[i]) := by simpa using hi
  exact (of_decide_eq_true hdec.symm).symm

theorem filterMap_source_filter (t : TableDef) (st : Vm.IndexSt) (right : List KeyExpr) :
    (right.filter (covers t st)).filterMap KeyExpr.source = coveredColumns t st right := by
  unfold coveredColumns
  induction right with
  | nil => rfl
  | cons key right ih =>
    cases key with
    | expr => simpa [covers, KeyExpr.bit, KeyExpr.source, filterMap_cons] using ih
    | column source =>
      cases source with
      | none => simpa [covers, KeyExpr.bit, KeyExpr.source, filterMap_cons] using ih
      | some c =>
        by_cases hc : c ∈ keyNames t st
        · simpa [covers, KeyExpr.bit, KeyExpr.source, hc] using ih
        · simpa [covers, KeyExpr.bit, KeyExpr.source, hc] using ih

theorem filterMap_source_eq {right columns} (h : sourceColumns right = some columns) :
    right.filterMap KeyExpr.source = columns := by
  induction right generalizing columns with
  | nil =>
    cases h
    rfl
  | cons key right ih =>
    cases key with
    | expr =>
      exact ih h
    | column source =>
      cases source with
      | none => cases h
      | some c =>
        obtain ⟨rest, hrest, rfl⟩ := map_eq_some_iff.mp h
        exact congrArg (c :: ·) (ih hrest)

/-- An element that occurs once among those with a property has one position. -/
theorem eq_of_nodup_filter {α : Type*} [DecidableEq α] {xs : List α} {p} (h : (xs.filter p).Nodup)
    {i j} (hi : i < xs.length) (hj : j < xs.length) (hp : p xs[i] = true) (heq : xs[i] = xs[j]) :
    i = j := by
  by_contra hne
  have hdup : List.Duplicate xs[i] xs := by
    rw [duplicate_iff_exists_distinct_get]
    rcases Nat.lt_or_gt_of_ne hne with hlt | hgt
    · exact ⟨⟨i, hi⟩, ⟨j, hj⟩, hlt, rfl, heq⟩
    · exact ⟨⟨j, hj⟩, ⟨i, hi⟩, hgt, heq, rfl⟩
  have htwo := duplicate_iff_two_le_count.mp hdup
  have hone := nodup_iff_count_le_one.mp h xs[i]
  rw [count_filter hp] at hone
  omega

section Bits

variable {t : TableDef} {st : Vm.IndexSt} {right : List KeyExpr}
  {order : Option (List OrderExpression)} {bitmap : List Bool}

/-- The index of a name. -/
theorem eq_tableIndex (hst : st ∈ t.indexHint) {ix} (hix : ix ∈ (plannerHint t).entries)
    (hname : ix.name = st.name) : ix = tableIndex t st := by
  have hmem : tableIndex t st ∈ (plannerHint t).entries :=
    (mergeSort_perm _ _).mem_iff.mpr (List.mem_map_of_mem hst)
  have hfind := IndexHint.find?_of_mem hix
  rw [hname, show st.name = (tableIndex t st).name from rfl, IndexHint.find?_of_mem hmem] at hfind
  exact (Option.some.inj hfind).symm

theorem forall₂_spreadBits {columns bits f} (hsource : sourceColumns right = some columns)
    (h : List.Forall₂ (fun b c => b = true → f c = true) bits columns) :
    List.Forall₂ (fun x y => x = true → y = true) (spreadBits right bits)
      (right.map (KeyExpr.bit f)) := by
  induction right generalizing columns bits with
  | nil => exact .nil
  | cons key right ih =>
    cases key with
    | expr => exact .cons (fun h => nomatch h) (ih hsource h)
    | column source =>
      cases source with
      | none => cases hsource
      | some c =>
        obtain ⟨rest, hrest, rfl⟩ := map_eq_some_iff.mp hsource
        cases h with
        | cons hhead htail => exact .cons hhead (ih hrest htail)

variable (hst : st ∈ t.indexHint)
  (hfound : transformKeysAndOrderExpr right order (plannerHint t) = some (st.name, bitmap))
include hst hfound

/-- What is marked are columns of the index, all of them. -/
theorem exists_marked :
    ∃ columns bits, sourceColumns right = some columns ∧ bits.length = columns.length ∧
      columnSet columns bits = (keyNames t st).toFinset ∧ bitmap = spreadBits right bits := by
  obtain ⟨columns, m, ix, hsource, ⟨hix, -, hlen, hset⟩, hname, hbitmap⟩ :=
    indexed_transformKeysAndOrderExpr hfound
  rw [eq_tableIndex hst hix hname.symm] at hset
  exact ⟨columns, m.indexBitmap, hsource, hlen, hset, hbitmap⟩

/-- Only columns of the index are marked. -/
theorem forall₂_bitmap_covers :
    List.Forall₂ (fun x y => x = true → y = true) bitmap (right.map (covers t st)) := by
  obtain ⟨columns, bits, hsource, hlen, hset, rfl⟩ := exists_marked hst hfound
  refine forall₂_spreadBits hsource (forall₂_iff_get.mpr ⟨hlen, fun i hi hi' hbit => ?_⟩)
  have hmem : columnAt columns i ∈ columnSet columns bits := by
    refine Finset.mem_image_of_mem _ (mem_positions.mpr ?_)
    rw [getD_eq_getElem _ _ hi]
    exact hbit
  rw [hset, List.mem_toFinset, columnAt_eq hi'] at hmem
  exact decide_eq_true hmem

/-- If the query has every key column once, all of them are marked. -/
theorem bitmap_eq_covers (hnodup : (coveredColumns t st right).Nodup) :
    bitmap = right.map (covers t st) := by
  obtain ⟨columns, bits, hsource, hlen, hset, rfl⟩ := exists_marked hst hfound
  unfold coveredColumns at hnodup
  rw [filterMap_source_eq hsource] at hnodup
  have hbits : bits = columns.map fun c => decide (c ∈ keyNames t st) := by
    refine ext_getElem (by rw [hlen, length_map]) fun i hi hi' => ?_
    have hicol : i < columns.length := hlen ▸ hi
    rw [getElem_map, Bool.eq_iff_iff, decide_eq_true_eq, ← List.mem_toFinset, ← hset]
    constructor
    · intro hbit
      refine Finset.mem_image.mpr ⟨i, mem_positions.mpr ?_, columnAt_eq hicol⟩
      rw [getD_eq_getElem _ _ hi]
      exact hbit
    · intro hmem
      obtain ⟨j, hj, hcol⟩ := Finset.mem_image.mp hmem
      have hbit := mem_positions.mp hj
      have hjbits := lt_length_of_getD hbit
      have hjcol : j < columns.length := hlen ▸ hjbits
      rw [columnAt_eq hjcol] at hcol
      have hkey : decide (columns[i] ∈ keyNames t st) = true := by
        rw [decide_eq_true_eq, ← List.mem_toFinset, ← hset]
        exact hmem
      obtain rfl := eq_of_nodup_filter hnodup hicol hjcol hkey hcol.symm
      rwa [getD_eq_getElem _ _ hi] at hbit
  rw [hbits, spreadBits_map hsource]
  rfl

end Bits

/-! ### Texts of equal values -/

/-- An integer type. -/
def IsInteger : ColumnType → Prop
  | .kInt16 | .kInt32 | .kInt64 => True
  | _ => False

/-- The values of the types are compared without a cast to another kind. -/
def SameKind (left right : ColumnType) : Prop := left = right ∨ IsInteger left ∧ IsInteger right

/-- The key generator formats values of the type as the catalog does: booleans and floating point
numbers are stored as zero, and strings of constant keys are cut off behind 4096 bytes. -/
def KeyUse.Fits : KeyUse → ColumnType → Prop
  | _, .kBool | _, .kFloat | _, .kDouble => False
  | filter maxLength _, .kVarchar => maxLength ≤ 4096
  | _, _ => True

theorem text_eq_storedText {use : KeyUse} {type} (hfits : use.Fits type) {val}
    (h : val.HasType type) (hadmits : use.Admits val) : use.text val = storedText val := by
  cases use with
  | join =>
    refine genText_eq_storedText ?_
    cases val <;> first | exact trivial | (cases h; exact hfits)
  | filter maxLength pos =>
    refine constText_eq_storedText ?_
    cases val with
    | varchar bytes =>
      cases h
      exact Nat.le_trans hadmits hfits
    | _ => first | exact trivial | (cases h; exact hfits.elim)

theorem storedText_of_intValue {val n} (h : intValue? val = some n) :
    storedText val = intText n := by
  cases val <;> cases h <;> rfl

theorem exists_intValue {type} (htype : IsInteger type) {val} (h : val.HasType type)
    (hnull : val ≠ .null) : ∃ n, intValue? val = some n := by
  cases val <;> first | exact absurd rfl hnull | exact ⟨_, rfl⟩ | (cases h; exact htype.elim)

theorem sqlEq_of_intValue (mixed : Value → Value → Bool) {v w n m} (hv : intValue? v = some n)
    (hw : intValue? w = some m) : sqlEq mixed v w = (n == m) := by
  cases v <;> cases hv <;> cases w <;> cases hw <;> rfl

/-- Equal values of one kind are stored with one text. -/
theorem storedText_congr {mixed left right} (hkind : SameKind left right)
    (hfits : KeyUse.join.Fits right) {v w} (hv : v.HasType left) (hw : w.HasType right)
    (heq : evalEq3 mixed v w = some true) : storedText v = storedText w := by
  unfold evalEq3 at heq
  split at heq
  · cases heq
  · next hnull =>
      push Not at hnull
      have hsql : sqlEq mixed v w = true := Option.some.inj heq
      have hints : IsInteger left → IsInteger right → storedText v = storedText w := by
        intro hl hr
        obtain ⟨n, hn⟩ := exists_intValue hl hv hnull.1
        obtain ⟨m, hm⟩ := exists_intValue hr hw hnull.2
        rw [sqlEq_of_intValue mixed hn hm, beq_iff_eq] at hsql
        rw [storedText_of_intValue hn, storedText_of_intValue hm, hsql]
      rcases hkind with rfl | ⟨hl, hr⟩
      · cases left with
        | kBool | kFloat | kDouble => exact hfits.elim
        | kInt16 | kInt32 | kInt64 => exact hints trivial trivial
        | kVarchar | kDate | kTimestamp =>
          cases v <;> first | exact absurd rfl hnull.1 | cases hv
          cases w <;> first | exact absurd rfl hnull.2 | cases hw
          rw [beq_iff_eq.mp hsql]
      · exact hints hl hr

theorem KeyUse.Fits.join {use : KeyUse} {type} (h : use.Fits type) : KeyUse.join.Fits type := by
  cases type with
  | kBool | kFloat | kDouble => cases use <;> exact h.elim
  | _ => exact trivial

theorem KeyUse.Fits.left {use : KeyUse} {left right} (hkind : SameKind left right)
    (h : use.Fits right) : use.Fits left := by
  rcases hkind with rfl | ⟨hleft, -⟩
  · exact h
  · cases left with
    | kInt16 | kInt32 | kInt64 => cases use <;> exact trivial
    | _ => exact hleft.elim

/-- Equal values of a fitting type have the same text in the seek key and in the stored key. -/
theorem text_eq_of_equal {mixed : Value → Value → Bool} {use : KeyUse} {left right}
    (hkind : SameKind left right) (hfits : use.Fits right) {v w} (hv : v.HasType left)
    (hadmits : use.Admits v) (hw : w.HasType right) (heq : evalEq3 mixed v w = some true) :
    use.text v = storedText w :=
  (text_eq_storedText (hfits.left hkind) hv hadmits).trans
    (storedText_congr hkind hfits.join hv hw heq)

/-! ### Sample rows -/

/-- A value of the type whose text is the digit one or two. Booleans are true and floating point
numbers are infinite, which have no zero in their texts. -/
def sample (two : Bool) : ColumnType → Value
  | .kBool => .bool true
  | .kInt16 => .int16 (if two then 2 else 1)
  | .kInt32 => .int32 (if two then 2 else 1)
  | .kInt64 => .int64 (if two then 2 else 1)
  | .kFloat => .float 0x7f800000#32
  | .kDouble => .double 0x7ff0000000000000#64
  | .kVarchar => .varchar [digitByte (if two then 2 else 1)]
  | .kDate => .date (if two then 2 else 1)
  | .kTimestamp => .timestamp (if two then 2 else 1)

/-- The text of such a value of a type that is no boolean and no floating point number. -/
def sampleText (two : Bool) : List Byte := [digitByte (if two then 2 else 1)]

/-- The same with strings that are too long for a constant key. -/
def longSample : ColumnType → Value
  | .kVarchar => .varchar (List.replicate 4097 (digitByte 1))
  | type => sample false type

/-- Values for the columns of every name and type that satisfy equalities of columns of one
name. -/
structure Sampler (mixed : Value → Value → Bool) (use : KeyUse)
    (s : String → ColumnType → Value) : Prop where
  hasType : ∀ name type, (s name type).HasType type
  admits : ∀ name type, use.Admits (s name type)
  equal : ∀ name left right, SameKind left right →
    evalEq3 mixed (s name left) (s name right) = some true

theorem hasType_sample (two : Bool) (type : ColumnType) : (sample two type).HasType type := by
  cases type <;> rfl

theorem evalEq3_sample (mixed : Value → Value → Bool) {left right} (h : SameKind left right)
    (two : Bool) : evalEq3 mixed (sample two left) (sample two right) = some true := by
  rcases h with rfl | ⟨hl, hr⟩
  · cases left <;> cases two <;> rfl
  · cases left <;> cases hl <;> cases right <;> cases hr <;> cases two <;> rfl

theorem admits_sample (use : KeyUse) (two : Bool) (type : ColumnType) :
    use.Admits (sample two type) := by
  cases use with
  | join => exact trivial
  | filter maxLength pos =>
    cases type with
    | kVarchar => exact pos
    | _ => exact trivial

theorem sampler_sample (mixed : Value → Value → Bool) (use : KeyUse) (f : String → Bool) :
    Sampler mixed use fun name => sample (f name) :=
  ⟨fun _ type => hasType_sample _ type, fun _ type => admits_sample use _ type,
    fun _ _ _ h => evalEq3_sample mixed h _⟩

theorem evalEq3_varchar (mixed : Value → Value → Bool) (bytes : List Byte) :
    evalEq3 mixed (.varchar bytes) (.varchar bytes) = some true := by
  simp [evalEq3, sqlEq]

theorem sampler_longSample (mixed : Value → Value → Bool) {maxLength pos}
    (hlong : 4096 < maxLength) : Sampler mixed (.filter maxLength pos) fun _ => longSample := by
  refine ⟨fun _ type => ?_, fun _ type => ?_, fun _ left right h => ?_⟩
  · cases type <;> rfl
  · cases type with
    | kVarchar =>
      change (List.replicate 4097 (digitByte 1)).length ≤ maxLength
      rw [length_replicate]
      exact hlong
    | _ => exact trivial
  · rcases h with rfl | ⟨hl, hr⟩
    · cases left with
      | kVarchar => exact evalEq3_varchar mixed _
      | _ => rfl
    · cases left <;> cases hl <;> cases right <;> cases hr <;> rfl

theorem constText_longSample {left right} (h : SameKind left right) :
    constText (longSample left) = constText (longSample right) := by
  rcases h with rfl | ⟨hl, hr⟩
  · rfl
  · cases left <;> cases hl <;> cases right <;> cases hr <;> decide

theorem integerOrString_longSample {type} (h : KeyUse.join.Fits type) :
    IntegerOrString (longSample type) := by
  cases type with
  | kBool | kFloat | kDouble => exact h.elim
  | _ => exact trivial

/-- Strings are what a filter may have a wrong key for. -/
theorem varchar_of_not_fits {maxLength pos type} (h : KeyUse.join.Fits type)
    (hnot : ¬ (KeyUse.filter maxLength pos).Fits type) : type = .kVarchar ∧ 4096 < maxLength := by
  cases type with
  | kBool | kFloat | kDouble => exact h.elim
  | kVarchar => exact ⟨rfl, Nat.lt_of_not_le hnot⟩
  | _ => exact absurd trivial hnot

theorem not_agreeingKey_longSample : ¬ AgreeingKey (longSample .kVarchar) := by
  intro hlong
  have hle : (List.replicate 4097 (digitByte 1)).length ≤ 4096 := hlong
  rw [length_replicate] at hle
  omega

theorem text_sample {type} (h : KeyUse.join.Fits type) (use : KeyUse) (two : Bool) :
    use.text (sample two type) = sampleText two := by
  cases type with
  | kBool | kFloat | kDouble => exact h.elim
  | _ => cases use <;> cases two <;> dsimp only [KeyUse.text] <;> decide

theorem storedText_sample {type : ColumnType} (h : KeyUse.join.Fits type) (two : Bool) :
    storedText (sample two type) = sampleText two := by
  rw [← text_eq_storedText h (hasType_sample two type) trivial]
  exact text_sample h .join two

theorem zero_notMem_text_sample (use : KeyUse) (two : Bool) (type : ColumnType) :
    digitByte 0 ∉ use.text (sample two type) := by
  cases use <;> cases two <;> cases type <;> dsimp only [KeyUse.text] <;> decide

theorem storedText_of_not_fits {type} (h : ¬ KeyUse.join.Fits type) (two : Bool) :
    storedText (sample two type) = [digitByte 0] := by
  cases type with
  | kBool | kFloat | kDouble => rfl
  | _ => exact absurd trivial h

/-- A row of the table. -/
def rowOf (t : TableDef) (s : String → ColumnType → Value) : List Value :=
  t.columns.map fun c => s c.name c.type

/-- The left values of the equalities. -/
def leftOf (leftTypes : Schema) (right : List KeyExpr) (s : String → ColumnType → Value) :
    List Value :=
  (leftTypes.zip right).map fun pair => s (pair.2.source.getD "") pair.1

section Rows

variable {mixed : Value → Value → Bool} {use : KeyUse} {s : String → ColumnType → Value}
  {t : TableDef}

theorem typed_rowOf (h : Sampler mixed use s) : Typed t.schema (rowOf t s) := by
  refine ⟨by simp [rowOf, TableDef.schema], fun i type val htype hval => ?_⟩
  unfold TableDef.schema at htype
  unfold rowOf at hval
  rw [getElem?_map] at htype hval
  obtain ⟨c, hc, rfl⟩ := map_eq_some_iff.mp htype
  rw [hc] at hval
  cases hval
  exact h.hasType _ _

theorem typed_leftOf (h : Sampler mixed use s) {leftTypes right}
    (hlen : leftTypes.length = right.length) : Typed leftTypes (leftOf leftTypes right s) := by
  refine ⟨by simp [leftOf, hlen], fun i type val htype hval => ?_⟩
  unfold leftOf at hval
  rw [getElem?_map] at hval
  obtain ⟨pair, hpair, rfl⟩ := map_eq_some_iff.mp hval
  obtain ⟨hleft, -⟩ := getElem?_zip_eq_some.mp hpair
  rw [htype] at hleft
  cases hleft
  exact h.hasType _ _

theorem cell_rowOf {name c} (h : t.find name = some c) : cell t (rowOf t s) name = s name c.2 := by
  have hname := find_columnName h
  have htype := TableDef.find_valid h
  unfold cell rowOf
  unfold columnName at hname
  unfold TableDef.schema at htype
  rw [getElem?_map] at htype
  obtain ⟨column, hcolumn, hc⟩ := map_eq_some_iff.mp htype
  rw [hcolumn] at hname
  rw [h, bind_some, getElem?_map, hcolumn, ← hc, ← hname]
  rfl

theorem keyOf_rowOf {st : Vm.IndexSt} (hst : st ∈ t.indexHint) :
    st.keyOf (rowOf t s) = st.keys.map fun c => s (columnName t c.1) c.2 := by
  rw [keyOf_eq hst]
  unfold keyNames
  rw [List.map_map]
  exact map_congr_left fun c hc => cell_rowOf (find_keyName hst hc)

end Rows

/-! ### The seek key and the stored key -/

theorem seekKey_eq (use : KeyUse) {vals} (h : vals ≠ []) :
    use.seekKey vals = joinFields keySep (vals.map use.text) := by
  cases use with
  | join => rfl
  | filter maxLength pos => exact if_neg h

section Seek

variable {mixed : Value → Value → Bool} {use : KeyUse} {t : TableDef} {st : Vm.IndexSt}
  {scan : Scan} {leftTypes : Schema} {right : List KeyExpr} {sort : Option (List OrderExpression)}

/-- The left sides, with their types, of the equalities that the index serves. -/
def served {α : Type*} (t : TableDef) (st : Vm.IndexSt) (left : List α) (right : List KeyExpr) :
    List (α × KeyExpr) :=
  (left.zip right).filter fun pair => covers t st pair.2

theorem filterMap_source_served {α : Type*} {left : List α} (hlen : left.length = right.length) :
    (served t st left right).filterMap (fun pair => pair.2.source) = coveredColumns t st right := by
  have hsnd : (served t st left right).map Prod.snd = right.filter (covers t st) := by
    unfold served
    rw [show (fun pair : α × KeyExpr => covers t st pair.2) = covers t st ∘ Prod.snd from rfl,
      ← List.filter_map, map_snd_zip (by omega)]
  rw [← filterMap_source_filter, ← hsnd, filterMap_map]
  rfl

/-- A key that the index has is one of its columns. -/
theorem exists_of_covers {key} (h : covers t st key = true) :
    ∃ c, key.source = some c ∧ c ∈ keyNames t st := by
  cases key with
  | expr => cases h
  | column source =>
    cases source with
    | none => cases h
    | some c => exact ⟨c, rfl, of_decide_eq_true h⟩

/-- Every key column of the index is a column of the query. -/
theorem mem_coveredColumns {bitmap} (hst : st ∈ t.indexHint)
    (hfound : transformKeysAndOrderExpr right sort (plannerHint t) = some (st.name, bitmap)) {c}
    (hc : c ∈ keyNames t st) : c ∈ coveredColumns t st right := by
  obtain ⟨columns, bits, hsource, hlen, hset, -⟩ := exists_marked hst hfound
  refine mem_filter.mpr ⟨?_, decide_eq_true hc⟩
  rw [filterMap_source_eq hsource]
  have hmem := List.mem_toFinset.mpr hc
  rw [← hset] at hmem
  obtain ⟨i, hi, rfl⟩ := Finset.mem_image.mp hmem
  have hlt : i < columns.length := hlen ▸ lt_length_of_getD (mem_positions.mp hi)
  simp [columnAt_eq hlt]

/-- The run on any left sides of the same number. -/
theorem keysOptimized_ofEqualities {bitmap} (htable : scan.table = some t)
    (hfound : transformKeysAndOrderExpr right sort (plannerHint t) = some (st.name, bitmap))
    (hright : right ≠ []) {left} (hlen : left.length = right.length) :
    keysOptimized (fun _ => .expr) scan (.ofEqualities left right sort) =
      some (scan.withIndex st.name, (Keys.ofEqualities left right sort).split bitmap) := by
  have hne : ¬ ((Keys.ofEqualities left right sort).left = [] ∨
      (Keys.ofEqualities left right sort).right = some []) := by
    rintro (hnil | hnil)
    · have : left = [] := hnil
      rw [this] at hlen
      exact hright (length_eq_zero_iff.mp hlen.symm)
    · exact hright (Option.some.inj hnil)
  rw [keysOptimized_eq, if_neg hne, htable]
  change Option.map _ (transformKeysAndOrderExpr right sort (plannerHint t)) = _
  rw [hfound]
  rfl

/-- The right sides that are columns are columns of the table, of the kind of their left side. -/
def Comparable (t : TableDef) (pairs : List (ColumnType × KeyExpr)) : Prop :=
  ∀ pair ∈ pairs, ∀ c, pair.2.source = some c →
    ∃ column, t.find c = some column ∧ SameKind pair.1 column.2

variable (hst : st ∈ t.indexHint) (hlen : leftTypes.length = right.length)
include hst hlen

/-- A query that has the key columns as the index has them. -/
theorem seekKey_eq_decodeKeys (hcols : coveredColumns t st right = keyNames t st)
    (hfits : ∀ c ∈ st.keys, use.Fits c.2) (hserved : Comparable t (served t st leftTypes right))
    {left vals : List Value} (hleft : Typed leftTypes left) (hadmits : ∀ val ∈ left, use.Admits val)
    (hvals : Typed t.schema vals) (hsat : Satisfies mixed t (left.zip right) vals)
    (hne : (served t st left right).map Prod.fst ≠ []) :
    use.seekKey ((served t st left right).map Prod.fst) = decodeKeys (st.keyOf vals) := by
  have hlen' : left.length = right.length := hleft.length_eq.trans hlen
  rw [seekKey_eq use hne, List.map_map, keyOf_eq hst]
  unfold decodeKeys
  rw [List.map_map, ← hcols, ← filterMap_source_served hlen']
  refine congrArg _ (map_eq_map_filterMap fun pair hpair => ?_)
  obtain ⟨hmem, hcovers⟩ := mem_filter.mp hpair
  obtain ⟨c, hsource, hkey⟩ := exists_of_covers hcovers
  refine ⟨c, hsource, ?_⟩
  -- the types of the two sides
  obtain ⟨i, hi⟩ := mem_iff_getElem?.mp hmem
  obtain ⟨hleft', hright'⟩ := getElem?_zip_eq_some.mp hi
  have hil : i < leftTypes.length := hleft.length_eq ▸ (List.getElem?_eq_some_iff.mp hleft').1
  have hty : leftTypes[i]? = some leftTypes[i] := getElem?_eq_getElem hil
  have hzip : (leftTypes[i], pair.2) ∈ leftTypes.zip right :=
    mem_iff_getElem?.mpr ⟨i, getElem?_zip_eq_some.mpr ⟨hty, hright'⟩⟩
  obtain ⟨column, hfind, hkind⟩ := hserved _ (mem_filter.mpr ⟨hzip, hcovers⟩) c hsource
  have hvtype := hleft.hasType i _ _ hty hleft'
  have hcell : (cell t vals c).HasType column.2 := by
    have hschema := TableDef.find_valid hfind
    obtain ⟨val, hval, htype⟩ := hvals.exists_val hschema
    simp [cell, hfind, bind_some, hval, htype]
  have hfit : use.Fits column.2 := by
    obtain ⟨k, hk, hname⟩ := List.mem_map.mp hkey
    have := find_keyName hst hk
    rw [hname, hfind] at this
    cases this
    exact hfits _ hk
  exact text_eq_of_equal hkind hfit hvtype (hadmits _ (mem_of_getElem? hleft')) hcell
    (hsat pair hmem c hsource)

variable (hkinds : Comparable t (leftTypes.zip right))
include hkinds

omit hst hlen in
theorem satisfies_leftOf {s} (hs : Sampler mixed use s) :
    Satisfies mixed t ((leftOf leftTypes right s).zip right) (rowOf t s) := by
  intro pair hpair c hsource
  obtain ⟨i, hi⟩ := mem_iff_getElem?.mp hpair
  obtain ⟨hleft, hright⟩ := getElem?_zip_eq_some.mp hi
  unfold leftOf at hleft
  rw [getElem?_map] at hleft
  obtain ⟨types, htypes, hval⟩ := map_eq_some_iff.mp hleft
  have hkey : types.2 = pair.2 :=
    Option.some.inj ((getElem?_zip_eq_some.mp htypes).2.symm.trans hright)
  have hsource' : types.2.source = some c := by rw [hkey, hsource]
  obtain ⟨column, hfind, hkind⟩ := hkinds _ (mem_of_getElem? htypes) c hsource'
  rw [← hval, hsource', cell_rowOf hfind]
  exact hs.equal _ _ _ hkind

omit hst hlen hkinds in
theorem served_leftOf (s : String → ColumnType → Value) :
    (served t st (leftOf leftTypes right s) right).map Prod.fst =
      (served t st leftTypes right).map fun pair => s (pair.2.source.getD "") pair.1 := by
  unfold served leftOf
  induction leftTypes generalizing right with
  | nil => rfl
  | cons type types ih =>
    cases right with
    | nil => rfl
    | cons key right =>
      rw [zip_cons_cons, map_cons, zip_cons_cons, filter_cons,
        filter_cons]
      by_cases hkey : covers t st key = true
      · rw [if_pos hkey, if_pos hkey, map_cons, map_cons, ih]
      · rw [if_neg hkey, if_neg hkey, ih]

omit hst hlen hkinds in
/-- The index keys of the pass are the left sides that the index serves. -/
theorem index_split {bitmap} (hbitmap : bitmap = right.map (covers t st)) (left : List Value) :
    ((Keys.ofEqualities left right sort).split bitmap).index =
      (served t st left right).map Prod.fst := by
  change withBit true left bitmap = _
  rw [hbitmap, withBit_map]
  simp only [served, beq_true]

omit hkinds in
theorem served_ne_nil {bitmap}
    (hfound : transformKeysAndOrderExpr right sort (plannerHint t) = some (st.name, bitmap))
    (hne : st.keys ≠ []) : served t st leftTypes right ≠ [] := by
  intro hnil
  obtain ⟨c, hc⟩ := exists_mem_of_ne_nil _ hne
  have hmem := mem_coveredColumns hst hfound (List.mem_map_of_mem hc)
  rw [← filterMap_source_served hlen, hnil] at hmem
  cases hmem

/-- What the seek for a sample row says. -/
theorem Seeks.sample_eq {bitmap} (htable : scan.table = some t)
    (hfound : transformKeysAndOrderExpr right sort (plannerHint t) = some (st.name, bitmap))
    (hright : right ≠ []) (hbitmap : bitmap = right.map (covers t st)) (hne : st.keys ≠ [])
    (h : Seeks mixed use t st scan leftTypes right sort) {s} (hs : Sampler mixed use s) :
    joinFields keySep ((served t st leftTypes right).map fun pair =>
        use.text (s (pair.2.source.getD "") pair.1)) =
      decodeKeys (st.keys.map fun c => s (columnName t c.1) c.2) := by
  have htyped := typed_leftOf hs hlen
  have hrun := keysOptimized_ofEqualities htable hfound hright (htyped.length_eq.trans hlen)
  have hindex : ((Keys.ofEqualities (leftOf leftTypes right s) right sort).split bitmap).index =
      (served t st leftTypes right).map fun pair => s (pair.2.source.getD "") pair.1 := by
    rw [index_split hbitmap, served_leftOf]
  have hnonempty : (served t st leftTypes right).map
      (fun pair => s (pair.2.source.getD "") pair.1) ≠ [] := by
    simpa using served_ne_nil hst hlen hfound hne
  have hadmits : ∀ val ∈ leftOf leftTypes right s, use.Admits val := by
    intro val hval
    obtain ⟨pair, -, rfl⟩ := List.mem_map.mp hval
    exact hs.admits _ _
  have hseek := h.seek _ _ htyped hadmits (typed_rowOf hs) (satisfies_leftOf hkinds hs) _ _ hrun
    (by rw [hindex]; exact hnonempty)
  rw [hindex, seekKey_eq use hnonempty, List.map_map, keyOf_rowOf hst] at hseek
  exact hseek

/-- The keys are no booleans and no floating point numbers: these are stored as a zero that no
sample value has in its text. -/
theorem Seeks.fits {bitmap} (htable : scan.table = some t)
    (hfound : transformKeysAndOrderExpr right sort (plannerHint t) = some (st.name, bitmap))
    (hright : right ≠ []) (hbitmap : bitmap = right.map (covers t st))
    (h : Seeks mixed use t st scan leftTypes right sort) : ∀ c ∈ st.keys, KeyUse.join.Fits c.2 := by
  intro c hc
  by_contra hnot
  have hs := sampler_sample mixed use fun _ => false
  have heq := h.sample_eq hst hlen hkinds htable hfound hright hbitmap (ne_nil_of_mem hc) hs
  have hzero : digitByte 0 ∈
      decodeKeys (st.keys.map fun c => sample false c.2) := by
    refine mem_joinFields_of_mem (List.mem_map_of_mem (List.mem_map_of_mem hc)) ?_
    rw [storedText_of_not_fits hnot]
    exact mem_singleton_self _
  rw [← heq] at hzero
  rcases mem_joinFields hzero with hsep | ⟨field, hfield, hmem⟩
  · exact absurd hsep (by decide)
  · obtain ⟨pair, -, rfl⟩ := List.mem_map.mp hfield
    exact zero_notMem_text_sample use false pair.1 hmem

omit hlen in
/-- The type of a left side that the index serves fits if the keys of the index do. -/
theorem fits_of_mem_served (hfits : ∀ c ∈ st.keys, use.Fits c.2) {pair : ColumnType × KeyExpr}
    (h : pair ∈ served t st leftTypes right) :
    ∃ column, pair.2.source = some (columnName t column.1) ∧ column ∈ st.keys ∧
      SameKind pair.1 column.2 ∧ use.Fits pair.1 := by
  obtain ⟨hmem, hcovers⟩ := mem_filter.mp h
  obtain ⟨c, hsource, hkey⟩ := exists_of_covers hcovers
  obtain ⟨column, hcolumn, rfl⟩ := List.mem_map.mp hkey
  obtain ⟨other, hfind, hkind⟩ := hkinds pair hmem _ hsource
  rw [find_keyName hst hcolumn] at hfind
  cases hfind
  exact ⟨column, hsource, hcolumn, hkind, (hfits _ hcolumn).left hkind⟩

/-- The query has the key columns as the index has them: otherwise some sample row tells the two
lists apart. -/
theorem Seeks.columns {bitmap} (htable : scan.table = some t)
    (hfound : transformKeysAndOrderExpr right sort (plannerHint t) = some (st.name, bitmap))
    (hright : right ≠ []) (hbitmap : bitmap = right.map (covers t st)) (hne : st.keys ≠ [])
    (h : Seeks mixed use t st scan leftTypes right sort) :
    coveredColumns t st right = keyNames t st := by
  have hfits := h.fits hst hlen hkinds htable hfound hright hbitmap
  refine eq_of_forall_map_eq fun f => ?_
  have heq := h.sample_eq hst hlen hkinds htable hfound hright hbitmap hne
    (sampler_sample mixed use f)
  have hseek : (served t st leftTypes right).map (fun pair =>
      use.text (sample (f (pair.2.source.getD "")) pair.1)) =
        ((coveredColumns t st right).map f).map sampleText := by
    rw [← filterMap_source_served hlen, List.map_map]
    refine map_eq_map_filterMap fun pair hpair => ?_
    obtain ⟨column, hsource, -, -, hfit⟩ := fits_of_mem_served hst hkinds hfits hpair
    refine ⟨_, hsource, ?_⟩
    rw [text_sample hfit, hsource]
    rfl
  have hstored : (st.keys.map fun c => sample (f (columnName t c.1)) c.2).map storedText =
      ((keyNames t st).map f).map sampleText := by
    unfold keyNames
    rw [List.map_map, List.map_map, List.map_map]
    exact map_congr_left fun c hc => storedText_sample (hfits c hc) _
  have hfield : ∀ (labels : List Bool), ∀ field ∈ labels.map sampleText, IsField keySep field := by
    intro labels field hmem
    obtain ⟨two, -, rfl⟩ := List.mem_map.mp hmem
    cases two <;> decide
  unfold decodeKeys at heq
  rw [hseek, hstored] at heq
  have hinj : Function.Injective sampleText := by decide
  exact map_injective_iff.mpr hinj (joinFields_inj (hfield _) (hfield _) heq)

/-- A constant key has no long strings: they are cut off. -/
theorem Seeks.fits_filter {bitmap : List Bool} {maxLength pos} (htable : scan.table = some t)
    (hfound : transformKeysAndOrderExpr right sort (plannerHint t) = some (st.name, bitmap))
    (hright : right ≠ []) (hbitmap : bitmap = right.map (covers t st))
    (h : Seeks mixed (.filter maxLength pos) t st scan leftTypes right sort) :
    ∀ c ∈ st.keys, (KeyUse.filter maxLength pos).Fits c.2 := by
  intro c hc
  by_contra hnot
  have hne : st.keys ≠ [] := ne_nil_of_mem hc
  have hfits := h.fits hst hlen hkinds htable hfound hright hbitmap
  obtain ⟨hvarchar, hlong⟩ := varchar_of_not_fits (hfits c hc) hnot
  have hcols := h.columns hst hlen hkinds htable hfound hright hbitmap hne
  have heq := h.sample_eq hst hlen hkinds htable hfound hright hbitmap hne
    (sampler_longSample mixed hlong)
  -- the texts of the seek key, by the names of the columns
  let text := fun name : String =>
    constText (longSample (((t.find name).map Prod.snd).getD .kBool))
  have hseek : (served t st leftTypes right).map (fun pair => constText (longSample pair.1)) =
      (coveredColumns t st right).map text := by
    rw [← filterMap_source_served hlen]
    refine map_eq_map_filterMap fun pair hpair => ?_
    obtain ⟨column, hsource, hcolumn, hkind, -⟩ := fits_of_mem_served hst hkinds hfits hpair
    refine ⟨_, hsource, ?_⟩
    dsimp only [text]
    rw [find_keyName hst hcolumn]
    exact constText_longSample hkind
  have hconst : (st.keys.map fun c => longSample c.2).map constText =
      (keyNames t st).map text := by
    unfold keyNames
    rw [List.map_map, List.map_map]
    refine map_congr_left fun c hc => ?_
    dsimp only [Function.comp_apply, text]
    rw [find_keyName hst hc]
    rfl
  have hgen : Vm.genConst (st.keys.map fun c => longSample c.2) =
      decodeKeys (st.keys.map fun c => longSample c.2) := by
    refine Eq.trans ?_ heq
    unfold Vm.genConst
    rw [if_neg (by simpa using hne), hconst, ← hcols, ← hseek]
    rfl
  refine absurd (congrArg List.length hgen) (Nat.ne_of_lt (length_const_lt_stored ?_ ?_))
  · intro val hval
    obtain ⟨c, hc, rfl⟩ := List.mem_map.mp hval
    exact integerOrString_longSample (hfits c hc)
  · refine ⟨_, List.mem_map_of_mem hc, ?_⟩
    rw [hvarchar]
    exact not_agreeingKey_longSample

omit hst hlen hkinds in
/-- A run that returns the index. -/
theorem exists_found {scan' : Scan} {keys : Keys ColumnType}
    (hrun : keysOptimized (fun _ => .expr) scan ⟨leftTypes, [], some right, sort⟩ =
      some (scan', keys))
    (hindex : scan'.partition = some (t, st.name)) :
    scan.table = some t ∧ right ≠ [] ∧ ∃ bitmap,
      transformKeysAndOrderExpr right sort (plannerHint t) = some (st.name, bitmap) := by
  rw [keysOptimized_eq] at hrun
  split at hrun
  · cases hrun
  · next hne =>
      obtain ⟨t', htable, hrun⟩ := bind_eq_some_iff.mp hrun
      obtain ⟨found, hfound, hout⟩ := map_eq_some_iff.mp hrun
      cases hout
      rw [Scan.partition_withIndex htable] at hindex
      obtain ⟨name, bitmap⟩ := found
      obtain ⟨rfl, rfl⟩ := Prod.mk.inj (Option.some.inj hindex)
      exact ⟨htable, fun hnil => hne (.inr (congrArg some hnil)), bitmap, hfound⟩

omit hlen hkinds in
/-- If the equalities that are left are those that the index does not serve, the bits say so. -/
theorem Seeks.bitmap_eq {bitmap} (htable : scan.table = some t)
    (hfound : transformKeysAndOrderExpr right sort (plannerHint t) = some (st.name, bitmap))
    (hright : right ≠ []) (h : Seeks mixed use t st scan leftTypes right sort) :
    bitmap = right.map (covers t st) := by
  have hbelow := forall₂_bitmap_covers hst hfound
  have hblen : bitmap.length = right.length := by simpa using hbelow.length_eq
  have hleft : (List.replicate right.length Value.null).length = right.length := by simp
  obtain ⟨-, hrest⟩ := h.rest _ hleft _ _
    (keysOptimized_ofEqualities htable hfound hright hleft)
  have hrest' : withBit false right bitmap = right.filter fun key => !covers t st key :=
    Option.some.inj hrest
  refine eq_of_forall₂_of_count hbelow ?_
  rw [← length_withBit false right bitmap hblen, ← length_withBit false right _ (by simp),
    withBit_self, hrest']
  simp only [beq_false]

end Seek

/-- A table with one index. -/
theorem plannerHint_of_single {t st} (h : t.indexHint = [st]) :
    plannerHint t = .single (tableIndex t st) := by
  have hentries : (plannerHint t).entries = [tableIndex t st] := by simp [plannerHint, h]
  cases hint : plannerHint t with
  | mk entries nodup =>
    rw [hint] at hentries
    cases hentries
    rfl

theorem keysOptimized_of_single {E : Type*} (asKey : E → KeyExpr) {t st} (h : t.indexHint = [st])
    (keys : Keys E) :
    keysOptimized asKey (.tableProvider t) keys =
      if keys.left = [] ∨ keys.right = some [] then none
      else (transformKeysAndOrderExpr (keys.right.getD (keys.left.map asKey)) keys.sort
        (.single (tableIndex t st))).map fun found =>
          (.partitionProvider t found.1, keys.split found.2) := by
  rw [← plannerHint_of_single h]
  rfl

/-- A column of strings with an index. -/
def textTable : TableDef := ⟨[⟨"c1", .kVarchar⟩], [⟨"i", ["c1"], ""⟩]⟩

def textIndex : Vm.IndexSt := ⟨"i", 0, none, [(0, .kVarchar)]⟩

theorem indexHint_textTable : textTable.indexHint = [textIndex] := by decide

/-- Two columns with an index on both. -/
def pairTable : TableDef :=
  ⟨[⟨"a", .kInt32⟩, ⟨"b", .kInt32⟩], [⟨"i", ["a", "b"], ""⟩]⟩

def pairIndex : Vm.IndexSt := ⟨"i", 0, none, [(0, .kInt32), (1, .kInt32)]⟩

theorem indexHint_pairTable : pairTable.indexHint = [pairIndex] := by decide

theorem typed_int32_pair (v w : BitVec 32) : Typed [.kInt32, .kInt32] [.int32 v, .int32 w] where
  length_eq := rfl
  hasType
    | 0, _, _, rfl, rfl => rfl
    | 1, _, _, rfl, rfl => rfl

end HybridSE.Passes.GroupAndSort
