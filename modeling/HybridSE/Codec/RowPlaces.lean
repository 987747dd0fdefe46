import HybridSE.Codec.BitmapRow
import HybridSE.Codec.EncodedRow

/-!
# HybridSE.Codec.RowPlaces

The places of a row that a column's value takes, for the encoders.

A column that is no string takes its field, a string column its address and its
body (`columnPlaces`). Places of different columns share no byte
(`InColumn.disjoint`), so an encoder may write the columns one after the
other: `PartialRow` is what the row looks like after some of them, and it grows
by one column with `PartialRow.storeColumn`. Null bits are set and cleared in a
bitmap in front of all places (`PartialRow.storeNull`).
-/

namespace HybridSE.Codec

open HybridSE.Lib List

/-- Where the address of a string column stands. -/
def addrOffset (schema : Schema) (addrLength i : Nat) : Nat :=
  strStart schema + addrLength * strIndex schema i

/-- The places that column `i` takes. -/
def columnPlaces (schema : Schema) (vals : List Value) (addrLength i : Nat) (type : ColumnType)
    (val : Value) : List Place :=
  if type = .kVarchar then
    (addrOffset schema addrLength i, addrBytes addrLength (bodyOffset schema vals addrLength i)) ::
      match val with
      | .varchar bytes => [(bodyOffset schema vals addrLength i, bytes)]
      | _ => []
  else if val = .null then []
  else [(fieldOffset schema i, val.fixedBytes)]

section Places

variable {schema : Schema} {vals : List Value} {a i k : Nat} {type : ColumnType} {val : Value}
  {p q : Place}

/-- The place lies in the column's room: in its field, its address or its body. -/
def InColumn (schema : Schema) (vals : List Value) (a i : Nat) (type : ColumnType) (val : Value)
    (p : Place) : Prop :=
  p.1 = fieldOffset schema i ∧ p.2.length ≤ fixedWidth type ∨
    type = .kVarchar ∧ p.1 = addrOffset schema a i ∧ p.2.length ≤ a ∨
    p.1 = bodyOffset schema vals a i ∧ p.2.length ≤ val.strLength

theorem inColumn_of_mem (ha : 1 ≤ a ∧ a ≤ 4) (hhas : val.HasType type)
    (hp : p ∈ columnPlaces schema vals a i type val) : InColumn schema vals a i type val p := by
  unfold columnPlaces at hp
  split at hp
  · rename_i hstr
    rcases mem_cons.mp hp with rfl | hp
    · exact Or.inr (Or.inl ⟨hstr, rfl, (length_addrBytes ha _).le⟩)
    · cases val with
      | varchar bytes =>
        rw [mem_singleton.mp hp]
        exact Or.inr (Or.inr ⟨rfl, Nat.le_refl _⟩)
      | _ => exact absurd hp not_mem_nil
  · split at hp
    · exact absurd hp not_mem_nil
    · rename_i hnull
      rw [mem_singleton.mp hp]
      exact Or.inl ⟨rfl, (Value.length_fixedBytes hhas hnull).le⟩

theorem fieldOffset_add_le (htype : schema[i]? = some type) :
    fieldOffset schema i + fixedWidth type ≤ strStart schema := by
  have := prefixSum_add_le fixedWidth htype (List.getElem?_eq_some_iff.mp htype).1
  rw [prefixSum_length] at this
  unfold fieldOffset strStart
  omega

theorem addrOffset_add_le (htype : schema[i]? = some .kVarchar) :
    addrOffset schema a i + a ≤ strStart schema + a * strCount schema := by
  have := Nat.mul_le_mul_left a (strIndex_lt htype)
  rw [Nat.mul_add] at this
  unfold addrOffset
  omega

theorem bodyOffset_add_le (hval : vals[i]? = some val) :
    bodyOffset schema vals a i + val.strLength ≤ rowSize schema vals a := by
  have := prefixSum_add_le Value.strLength hval (List.getElem?_eq_some_iff.mp hval).1
  rw [prefixSum_length] at this
  unfold bodyOffset rowSize
  omega

/-- A column's room is behind the bitmap and inside the row. -/
theorem InColumn.bounds (hp : InColumn schema vals a i type val p)
    (htype : schema[i]? = some type) (hval : vals[i]? = some val) :
    fixedStart schema ≤ p.1 ∧ p.1 + p.2.length ≤ rowSize schema vals a := by
  have hfield := fieldOffset_add_le htype
  have hbody := @bodyOffset_add_le schema vals a i val hval
  have hstart : fixedStart schema ≤ strStart schema := Nat.le_add_right _ _
  rcases hp with ⟨h1, h2⟩ | ⟨rfl, h1, h2⟩ | ⟨h1, h2⟩
  · unfold rowSize
    unfold fieldOffset at *
    omega
  · have haddr := @addrOffset_add_le schema a i htype
    unfold rowSize
    unfold addrOffset at *
    omega
  · unfold bodyOffset at *
    omega

/-- The rooms of different columns share no byte. -/
theorem InColumn.disjoint {type' val'} (hp : InColumn schema vals a i type val p)
    (hq : InColumn schema vals a k type' val' q) (htype : schema[i]? = some type)
    (hval : vals[i]? = some val) (htype' : schema[k]? = some type') (hik : i < k) :
    p.Disjoint q := by
  have hfield := prefixSum_add_le fixedWidth htype hik
  have hbody := prefixSum_add_le Value.strLength hval hik
  have hfi := fieldOffset_add_le htype
  have hfk := fieldOffset_add_le htype'
  unfold Place.Disjoint
  rcases hp with ⟨h1, h2⟩ | ⟨rfl, h1, h2⟩ | ⟨h1, h2⟩
  · rcases hq with ⟨h3, h4⟩ | ⟨rfl, h3, h4⟩ | ⟨h3, h4⟩
    · rw [h1, h3]
      unfold fieldOffset
      omega
    · rw [h3]
      unfold addrOffset
      omega
    · rw [h3]
      unfold bodyOffset
      omega
  · have hai := @addrOffset_add_le schema a i htype
    rcases hq with ⟨h3, h4⟩ | ⟨rfl, h3, h4⟩ | ⟨h3, h4⟩
    · unfold fieldOffset addrOffset at *
      omega
    · have hidx := Nat.mul_le_mul_left a (prefixSum_add_le strWidth htype hik)
      rw [Nat.mul_add, strWidth, if_pos rfl] at hidx
      rw [h1, h3]
      unfold addrOffset strIndex
      omega
    · unfold addrOffset bodyOffset at *
      omega
  · rcases hq with ⟨h3, h4⟩ | ⟨rfl, h3, h4⟩ | ⟨h3, h4⟩
    · unfold fieldOffset bodyOffset at *
      omega
    · have hak := @addrOffset_add_le schema a k htype'
      unfold addrOffset bodyOffset at *
      omega
    · rw [h1, h3]
      unfold bodyOffset
      omega

/-- The places of one column share no byte. -/
theorem columnPlaces_pairwise (ha : 1 ≤ a ∧ a ≤ 4) (htype : schema[i]? = some type) :
    (columnPlaces schema vals a i type val).Pairwise Place.Disjoint := by
  unfold columnPlaces
  split
  · rename_i hstr
    subst hstr
    have haddr := @addrOffset_add_le schema a i htype
    cases val with
    | varchar bytes =>
      refine pairwise_pair.mpr (Or.inl ?_)
      rw [length_addrBytes ha]
      unfold bodyOffset
      omega
    | _ => exact pairwise_singleton _ _
  · split
    · exact List.Pairwise.nil
    · exact pairwise_singleton _ _

end Places

/-! ### A row under construction -/

/-- The row after the first `k` columns were written, with null bits `nulls`. -/
structure PartialRow (schema : Schema) (vals : List Value) (addrLength : Nat) (nulls : Nat → Bool)
    (k : Nat) (row : List Byte) : Prop where
  size_eq : row.length = rowSize schema vals addrLength
  header : HasBytes row versionLength (leBytes 4 row.length)
  null : ∀ i < schema.length, isNullAt row i = some (nulls i)
  places : ∀ (i : Nat) (type : ColumnType) (val : Value), i < k → schema[i]? = some type →
    vals[i]? = some val → ∀ p ∈ columnPlaces schema vals addrLength i type val, HasBytes row p.1 p.2

/-- What has been written of the row. -/
def ColumnsWritten (schema : Schema) (vals : List Value) (a k : Nat) (p : Place) : Prop :=
  p = (versionLength, leBytes 4 (rowSize schema vals a)) ∨ ∃ i type val, i < k ∧
    schema[i]? = some type ∧ vals[i]? = some val ∧ p ∈ columnPlaces schema vals a i type val

section PartialRow

variable {schema : Schema} {vals : List Value} {a : Nat} {nulls : Nat → Bool} {k : Nat}
  {row row' : List Byte} {type : ColumnType} {val : Value}

theorem bitmapByte_lt {i} (hi : i < schema.length) : headerLength + i / 8 < fixedStart schema := by
  unfold fixedStart bitMapSize
  split <;> omega

theorem partialRow_iff : PartialRow schema vals a nulls k row ↔
    BitmapRow schema.length (rowSize schema vals a) nulls (ColumnsWritten schema vals a k) row := by
  constructor
  · intro h
    refine ⟨h.size_eq, h.null, fun p hp => ?_⟩
    rcases hp with rfl | ⟨i, type, val, hik, htype, hval, hp⟩
    · exact h.size_eq ▸ h.header
    · exact h.places i type val hik htype hval p hp
  · intro h
    refine ⟨h.size_eq, ?_, h.null, fun i type val hik htype hval p hp =>
      h.written p (Or.inr ⟨i, type, val, hik, htype, hval, hp⟩)⟩
    exact h.size_eq.symm ▸ h.written _ (Or.inl rfl)

/-- Stores behind the bitmap keep the header and the null bits. -/
theorem PartialRow.storeAll (h : PartialRow schema vals a nulls k row) {places : List Place}
    (hin : ∀ p ∈ places, fixedStart schema ≤ p.1 ∧ p.1 + p.2.length ≤ rowSize schema vals a)
    (hdisj : places.Pairwise Place.Disjoint)
    (hold : ∀ (i : Nat) (type : ColumnType) (val : Value), i < k → schema[i]? = some type →
      vals[i]? = some val → ∀ p ∈ columnPlaces schema vals a i type val, ∀ q ∈ places,
        p.Disjoint q) :
    ∃ row', Lib.storeAll row places = some row' ∧ PartialRow schema vals a nulls k row' ∧
      ∀ p ∈ places, HasBytes row' p.1 p.2 := by
  obtain ⟨row', hrun, hrow'⟩ := (partialRow_iff.mp h).storeAll (fun i hi => bitmapByte_lt hi) hin
    hdisj fun p hp q hq => by
      rcases hp with rfl | ⟨i, type, val, hik, htype, hval, hp⟩
      · have : headerLength ≤ fixedStart schema := Nat.le_add_right _ _
        exact Or.inl (by rw [length_leBytes]; exact this.trans (hin q hq).1)
      · exact hold i type val hik htype hval p hp q hq
  exact ⟨row', hrun, partialRow_iff.mpr (hrow'.mono fun p hp => Or.inl hp), fun p hp =>
    hrow'.written p (Or.inr hp)⟩

/-- Write the next column. -/
theorem PartialRow.storeColumn (h : PartialRow schema vals a nulls k row)
    (htyped : Typed schema vals) (ha : 1 ≤ a ∧ a ≤ 4) (htype : schema[k]? = some type)
    (hval : vals[k]? = some val) :
    ∃ row', Lib.storeAll row (columnPlaces schema vals a k type val) = some row' ∧
      PartialRow schema vals a nulls (k + 1) row' := by
  have hhas := htyped.hasType k type val htype hval
  obtain ⟨row', hrun, hpart, hnew⟩ := h.storeAll
    (fun p hp => (inColumn_of_mem ha hhas hp).bounds htype hval) (columnPlaces_pairwise ha htype)
    fun i type' val' hik ht hv p hp q hq =>
      (inColumn_of_mem ha (htyped.hasType i type' val' ht hv) hp).disjoint
        (inColumn_of_mem ha hhas hq) ht hv htype hik
  refine ⟨row', hrun, hpart.size_eq, hpart.header, hpart.null, fun i type' val' hik ht hv p hp => ?_⟩
  rcases Nat.lt_succ_iff_lt_or_eq.mp hik with hik | rfl
  · exact hpart.places i type' val' hik ht hv p hp
  · obtain rfl := Option.some.inj (ht.symm.trans htype)
    obtain rfl := Option.some.inj (hv.symm.trans hval)
    exact hnew p hp

/-- The null bits after `k` columns. -/
def nullsBefore (vals : List Value) (k : Nat) (i : Nat) : Bool :=
  decide (i < k ∧ vals[i]? = some .null)

/-- The next column sets its bit if it is NULL. -/
theorem nullsBefore_succ_eq (hval : vals[k]? = some val) :
    nullsBefore vals (k + 1) =
      fun i => if i = k then decide (val = .null) else nullsBefore vals k i := by
  funext i
  unfold nullsBefore
  by_cases hik : i = k
  · subst hik
    simp [hval]
  · rw [if_neg hik]
    simp only [Nat.lt_succ_iff_lt_or_eq, hik, or_false]

/-- A value that is not NULL leaves the null bits as they are. -/
theorem nullsBefore_succ (hval : vals[k]? = some val) (hnull : val ≠ .null) :
    nullsBefore vals (k + 1) = nullsBefore vals k := by
  rw [nullsBefore_succ_eq hval]
  funext i
  by_cases hik : i = k
  · simp [hik, hnull, nullsBefore]
  · exact if_neg hik

/-- Write the null bit of the next column. -/
theorem PartialRow.storeNull (h : PartialRow schema vals a (nullsBefore vals k) k row)
    (htyped : Typed schema vals) (ha : 1 ≤ a ∧ a ≤ 4) (hval : vals[k]? = some val) {bit}
    (hbit : bit = decide (val = .null)) :
    ∃ byte row', row[headerLength + k / 8]? = some byte ∧
      store row (headerLength + k / 8) [withBit byte (k % 8) bit] = some row' ∧
      PartialRow schema vals a (nullsBefore vals (k + 1)) k row' := by
  have hk : k < schema.length := by
    rw [← htyped.length_eq]
    exact (List.getElem?_eq_some_iff.mp hval).1
  obtain ⟨byte, row', hbyte, hrun, hrow'⟩ := (partialRow_iff.mp h).storeNull
    (fun i hi => bitmapByte_lt hi) (fun p hp => by
      rcases hp with rfl | ⟨i, type, val, hik, htype, hval, hp⟩
      · exact Or.inl (by rw [length_leBytes]; exact Nat.le_refl _)
      · exact Or.inr ((inColumn_of_mem ha (htyped.hasType i type val htype hval) hp).bounds
          htype hval).1) hk bit
  rw [hbit, ← nullsBefore_succ_eq hval] at hrow'
  exact ⟨byte, row', hbyte, hrun, partialRow_iff.mpr hrow'⟩

/-- The header and an empty bitmap. -/
def headerPlaces (schema : Schema) (size : Nat) : List Place :=
  [(0, [1#8]), (1, [1#8]), (versionLength, leBytes 4 size),
    (headerLength, List.replicate (bitMapSize schema.length) 0#8)]

/-- Writing the header. -/
theorem partialRow_header {a buf} (hbuf : buf.length = rowSize schema vals a) {nulls}
    (hnulls : ∀ i, nulls i = false) :
    ∃ row, storeAll buf (headerPlaces schema buf.length) = some row ∧
      PartialRow schema vals a nulls 0 row := by
  have hroom : headerLength + bitMapSize schema.length ≤ buf.length := by
    rw [hbuf]
    unfold rowSize strStart fixedStart
    omega
  obtain ⟨row, hrun, hrow⟩ := @bitmapRow_header schema.length _ _ hroom fun i hi => by
    have := @bitmapByte_lt schema i hi
    unfold fixedStart at this
    omega
  obtain rfl : nulls = fun _ => false := funext hnulls
  rw [hbuf] at hrow
  refine ⟨row, hrun, partialRow_iff.mpr (hrow.mono fun p hp => ?_)⟩
  exact hp.resolve_right fun ⟨i, _, _, hi, _⟩ => absurd hi (Nat.not_lt_zero i)

/-- A finished row is an encoded row. -/
theorem PartialRow.encodedRow (htyped : Typed schema vals)
    (h : PartialRow schema vals a (nullsBefore vals schema.length) schema.length row) :
    EncodedRow schema vals a row where
  typed := htyped
  size_eq := h.size_eq
  header := h.header
  null i val hval := by
    have hi := (List.getElem?_eq_some_iff.mp hval).1
    rw [htyped.length_eq] at hi
    simp [h.null i hi, nullsBefore, hval, hi]
  fixed i type val htype hval hne hnull := by
    refine h.places i type val (List.getElem?_eq_some_iff.mp htype).1 htype hval
      (fieldOffset schema i, val.fixedBytes) ?_
    simp [columnPlaces, hne, hnull]
  addr i htype := by
    obtain ⟨val, hval, -⟩ := htyped.exists_val htype
    refine h.places i _ val (List.getElem?_eq_some_iff.mp htype).1 htype hval
      (addrOffset schema a i, addrBytes a (bodyOffset schema vals a i)) ?_
    exact mem_cons_self
  body i bytes hval := by
    have hi := (List.getElem?_eq_some_iff.mp hval).1
    rw [htyped.length_eq] at hi
    have htype : schema[i]? = some .kVarchar := by
      have hget := getElem?_eq_getElem hi
      rw [hget, ← htyped.hasType i _ _ hget hval]
    refine h.places i _ _ hi htype hval (bodyOffset schema vals a i, bytes) ?_
    exact mem_cons_of_mem _ (mem_singleton_self _)

end PartialRow

end HybridSE.Codec
