import HybridSE.Codec.NativeEncoder
import HybridSE.Codec.RowPlaces

/-!
# HybridSE.Codec.EncoderRun

What the compiled encoder writes.

The loop of `BuildEncode` keeps `PartialRow` (`encodeColumns_spec`), one column at a
time: `PartialRow.appendPrimary` and `PartialRow.encodeString` are the two kinds of
column. So the encoder leaves an encoded row with the address width of
`CalcTotalLength` (`encode_encodedRow`). The one condition is about NULL strings:
`v1::AppendString` takes their address width from `GetAddrLength`, and the two
widths have to be the same.
-/

namespace HybridSE.Codec

open HybridSE.Lib List Option

/-- The generated value suits a column. -/
def NativeValue.Suits (output : NativeValue) (type : ColumnType) : Prop :=
  match output with
  | .value val _ => val ≠ .null ∧ val.HasType type
  | .null payload => type = .kVarchar ∨ payload.length ≤ fixedWidth type
  | .constNullString => type = .kVarchar

/-- The outputs suit the columns, one by one. -/
structure SuitedOutputs (schema : Schema) (outputs : List NativeValue) : Prop where
  length_eq : outputs.length = schema.length
  suits : ∀ (i : Nat) (type : ColumnType) (output : NativeValue), schema[i]? = some type →
    outputs[i]? = some output → output.Suits type

/-- The bytes of all strings. -/
def outputBytes (outputs : List NativeValue) : Nat :=
  (outputs.map fun output => output.toValue.strLength).sum

theorem NativeValue.Suits.hasType {output : NativeValue} {type} (h : output.Suits type) :
    output.toValue.HasType type := by
  cases output with
  | value val nullable => exact h.2
  | null payload => exact trivial
  | constNullString => exact trivial

section Typed

variable {schema : Schema} {outputs : List NativeValue}

theorem SuitedOutputs.typed (h : SuitedOutputs schema outputs) :
    Typed schema (outputs.map NativeValue.toValue) where
  length_eq := by rw [length_map, h.length_eq]
  hasType i type val htype hval := by
    rw [getElem?_map, map_eq_some_iff] at hval
    obtain ⟨output, houtput, rfl⟩ := hval
    exact (h.suits i type output htype houtput).hasType

/-- Without string columns there is no string. -/
theorem Typed.sum_strLength {vals} (h : Typed schema vals) (hcnt : strCount schema = 0) :
    (vals.map Value.strLength).sum = 0 := by
  rcases h.next_str (Nat.zero_le _) with ⟨j, hj, -, -⟩ | ⟨-, hsum⟩
  · have := strIndex_lt hj
    omega
  · rw [← hsum, prefixSum_zero]

end Typed

/-! ### The size -/

/-- The width of the addresses that belongs to the size: as `GetAddrLength`, but
three bytes for a row of `2 ^ 24` bytes. -/
theorem calcTotalSize_eq {schema outputs} (houtputs : SuitedOutputs schema outputs)
    (h : NoOverflow schema (outputBytes outputs)) :
    ∃ a, (1 ≤ a ∧ a ≤ 4) ∧
      encodedSize schema outputs = rowSize schema (outputs.map NativeValue.toValue) a ∧
      (strCount schema ≠ 0 → (totalSize (encoderLayout schema) schema outputs).2 = a) ∧
      (strCount schema = 0 ∨ encodedSize schema outputs ≠ 2 ^ 24 →
        a = getAddrLength (encodedSize schema outputs)) ∧
      (strCount schema ≠ 0 → encodedSize schema outputs = 2 ^ 24 → a = 3) := by
  have hstart : (encoderLayout schema).strFieldStartOffset = strStart schema :=
    layoutLoop_strFieldStartOffset h.strStart_lt
  have hcnt : (encoderLayout schema).strFieldCnt = strCount schema :=
    layoutLoop_strFieldCnt schema _
  have hsum : ((outputs.map NativeValue.toValue).map Value.strLength).sum = outputBytes outputs := by
    rw [List.map_map]
    rfl
  unfold encodedSize totalSize
  rw [hstart, hcnt]
  by_cases hzero : strCount schema = 0
  · rw [if_pos (Or.inl hzero)]
    refine ⟨getAddrLength (strStart schema), getAddrLength_bounds _, ?_, fun h0 => absurd hzero h0,
      fun _ => rfl, fun h0 => absurd hzero h0⟩
    unfold rowSize
    rw [houtputs.typed.sum_strLength hzero, hzero]
    rfl
  · have hlen : ¬ (strCount schema = 0 ∨ schema.length = 0) := by
      have := strCount_le schema
      omega
    have hbytes : toUInt32 (outputs.map fun output => output.toValue.strLength).sum =
        outputBytes outputs := toUInt32_of_lt (by
      unfold NoOverflow outputBytes at h
      omega)
    rw [hbytes]
    unfold rowSize calcTotalLength
    rw [hsum]
    simp only [h.withAddr_eq (show 1 ≤ 4 by decide), h.withAddr_eq (show 2 ≤ 4 by decide),
      h.withAddr_eq (show 3 ≤ 4 by decide), h.withAddr_eq (Nat.le_refl 4)]
    have hwidth := fun width => getAddrLength_cases
      (strStart schema + width * strCount schema + outputBytes outputs)
    split_ifs with h1 h2 h3
    · have := hwidth 1
      exact ⟨1, by omega, rfl, fun _ => rfl, fun _ => by dsimp only; omega,
        fun _ h24 => by dsimp only at h24; omega⟩
    · have := hwidth 2
      exact ⟨2, by omega, rfl, fun _ => rfl, fun _ => by dsimp only; omega,
        fun _ h24 => by dsimp only at h24; omega⟩
    · have := hwidth 3
      exact ⟨3, by omega, rfl, fun _ => rfl, fun hor => by dsimp only at hor ⊢; omega,
        fun _ _ => rfl⟩
    · have := hwidth 4
      exact ⟨4, by omega, rfl, fun _ => rfl, fun _ => by dsimp only; omega,
        fun _ h24 => by dsimp only at h24; omega⟩

/-! ### One column -/

section Column

variable {schema : Schema} {vals : List Value} {a k : Nat} {row : List Byte} {type : ColumnType}
  {output : NativeValue}

theorem PartialRow.appendNullBit (h : PartialRow schema vals a (nullsBefore vals k) k row)
    (htyped : Typed schema vals) (ha : 1 ≤ a ∧ a ≤ 4) {val} (hval : vals[k]? = some val) {bit}
    (hbit : bit = decide (val = .null)) :
    ∃ row', Codec.appendNullBit row k bit = some row' ∧
      PartialRow schema vals a (nullsBefore vals (k + 1)) k row' := by
  obtain ⟨byte, row', hbyte, hstore, hrow'⟩ := h.storeNull htyped ha hval hbit
  refine ⟨row', ?_, hrow'⟩
  unfold Codec.appendNullBit
  rw [hbyte]
  exact hstore

/-- The field of a column that is not NULL. -/
theorem PartialRow.storeField (h : PartialRow schema vals a (nullsBefore vals k) k row)
    (htyped : Typed schema vals) (ha : 1 ≤ a ∧ a ≤ 4) (htype : schema[k]? = some type) {val}
    (hval : vals[k]? = some val) (hne : type ≠ .kVarchar) (hnull : val ≠ .null) :
    ∃ row', store row (fieldOffset schema k) val.fixedBytes = some row' ∧
      PartialRow schema vals a (nullsBefore vals (k + 1)) (k + 1) row' := by
  obtain ⟨row', hrun, hrow'⟩ := h.storeColumn htyped ha htype hval
  refine ⟨row', ?_, ?_⟩
  · unfold columnPlaces at hrun
    rw [if_neg hne, if_neg hnull] at hrun
    simpa [Lib.storeAll] using hrun
  · rwa [nullsBefore_succ hval hnull]

/-- Bytes in the field of a NULL do no harm. -/
theorem PartialRow.storePayload {nulls} (h : PartialRow schema vals a nulls k row)
    (htyped : Typed schema vals) (ha : 1 ≤ a ∧ a ≤ 4) (htype : schema[k]? = some type)
    (hval : vals[k]? = some .null) (hne : type ≠ .kVarchar) {payload}
    (hlen : payload.length ≤ fixedWidth type) :
    ∃ row', store row (fieldOffset schema k) payload = some row' ∧
      PartialRow schema vals a nulls (k + 1) row' := by
  have hin : InColumn schema vals a k type .null (fieldOffset schema k, payload) :=
    Or.inl ⟨rfl, hlen⟩
  obtain ⟨row', hrun, hrow', -⟩ := @PartialRow.storeAll _ _ _ _ _ _ h
    [(fieldOffset schema k, payload)]
    (by
      intro p hp
      rw [mem_singleton.mp hp]
      exact hin.bounds htype hval)
    (pairwise_singleton _ _)
    (by
      intro i type' val' hik ht hv p hp q hq
      rw [mem_singleton.mp hq]
      exact (inColumn_of_mem ha (htyped.hasType i type' val' ht hv) hp).disjoint hin ht hv htype hik)
  obtain ⟨row'', hrun', hrow''⟩ := hrow'.storeColumn htyped ha htype hval
  unfold columnPlaces at hrun'
  rw [if_neg hne] at hrun'
  obtain rfl : row' = row'' := Option.some.inj hrun'
  exact ⟨row', by simpa [Lib.storeAll] using hrun, hrow''⟩

/-- **A column that is no string.** -/
theorem PartialRow.appendPrimary (h : PartialRow schema vals a (nullsBefore vals k) k row)
    (htyped : Typed schema vals) (ha : 1 ≤ a ∧ a ≤ 4) (htype : schema[k]? = some type)
    (hval : vals[k]? = some output.toValue) (hsuits : output.Suits type) (hne : type ≠ .kVarchar) :
    ∃ row', Codec.appendPrimary row output k (fieldOffset schema k) = some row' ∧
      PartialRow schema vals a (nullsBefore vals (k + 1)) (k + 1) row' := by
  cases output with
  | value val nullable =>
    cases nullable with
    | false => exact h.storeField htyped ha htype hval hne hsuits.1
    | true =>
      obtain ⟨row1, hbit, hrow1⟩ := h.appendNullBit htyped ha hval (decide_eq_false hsuits.1).symm
      rw [nullsBefore_succ hval hsuits.1] at hrow1
      obtain ⟨row', hstore, hrow'⟩ := hrow1.storeField htyped ha htype hval hne hsuits.1
      refine ⟨row', ?_, hrow'⟩
      unfold Codec.appendPrimary
      rw [hbit]
      exact hstore
  | null payload =>
    obtain ⟨row1, hbit, hrow1⟩ := h.appendNullBit htyped ha hval (decide_eq_true rfl).symm
    obtain ⟨row', hstore, hrow'⟩ := hrow1.storePayload htyped ha htype hval hne
      (hsuits.resolve_left hne)
    refine ⟨row', ?_, hrow'⟩
    simp [Codec.appendPrimary, hbit, hstore]
  | constNullString => exact absurd hsuits hne

/-- A NULL string, with the right address width. -/
theorem PartialRow.appendNullString (h : PartialRow schema vals a (nullsBefore vals k) k row)
    (htyped : Typed schema vals) (ha : 1 ≤ a ∧ a ≤ 4) (h32 : row.length < 2 ^ 32)
    (htype : schema[k]? = some .kVarchar) (hval : vals[k]? = some .null)
    (hwidth : getAddrLength row.length = a) :
    ∃ row', Codec.appendNullString row row.length k (strStart schema) (strIndex schema k)
        (bodyOffset schema vals a k) = some (row', bodyOffset schema vals a (k + 1)) ∧
      PartialRow schema vals a (nullsBefore vals (k + 1)) (k + 1) row' := by
  obtain ⟨row1, hbit, hrow1⟩ := h.appendNullBit htyped ha hval (decide_eq_true rfl).symm
  obtain ⟨row', hrun, hrow'⟩ := hrow1.storeColumn htyped ha htype hval
  refine ⟨row', ?_, hrow'⟩
  have hnext : bodyOffset schema vals a (k + 1) = bodyOffset schema vals a k := by
    unfold bodyOffset
    rw [prefixSum_succ _ hval]
    rfl
  have haddr := @addrOffset_add_le schema a k htype
  have hsize := h.size_eq
  unfold rowSize at hsize
  unfold addrOffset at haddr
  have hfill : RowBuilder.fillStringOffset row1 (strStart schema) a (strIndex schema k)
      (bodyOffset schema vals a k) = some row' := by
    unfold columnPlaces addrOffset at hrun
    unfold RowBuilder.fillStringOffset
    rw [toUInt32_of_lt (by omega)]
    simpa [Lib.storeAll] using hrun
  unfold Codec.appendNullString
  rw [hbit, bind_eq_bind, bind_some, hwidth, hfill, hnext]
  rfl

/-- A string. -/
theorem PartialRow.appendString (h : PartialRow schema vals a (nullsBefore vals k) k row)
    (htyped : Typed schema vals) (ha : 1 ≤ a ∧ a ≤ 4) (h32 : row.length < 2 ^ 32)
    (htype : schema[k]? = some .kVarchar) {bytes} (hval : vals[k]? = some (.varchar bytes)) :
    ∃ row', Codec.appendString row row.length bytes (strStart schema) (strIndex schema k) a
        (bodyOffset schema vals a k) = some (row', bodyOffset schema vals a (k + 1)) ∧
      PartialRow schema vals a (nullsBefore vals (k + 1)) (k + 1) row' := by
  obtain ⟨row', hrun, hrow'⟩ := h.storeColumn htyped ha htype hval
  rw [← nullsBefore_succ hval (nomatch ·)] at hrow'
  refine ⟨row', ?_, hrow'⟩
  have hnext : bodyOffset schema vals a (k + 1) = bodyOffset schema vals a k + bytes.length := by
    unfold bodyOffset
    rw [prefixSum_succ _ hval, ← Nat.add_assoc]
    rfl
  have hbody := @bodyOffset_add_le schema vals a k _ hval
  rw [← h.size_eq] at hbody
  change bodyOffset schema vals a k + bytes.length ≤ row.length at hbody
  have haddr := @addrOffset_add_le schema a k htype
  have hstart : strStart schema + a * strCount schema ≤ bodyOffset schema vals a k :=
    Nat.le_add_right _ _
  have hmul : toUInt32 (strIndex schema k * a) = a * strIndex schema k := by
    rw [Nat.mul_comm]
    unfold addrOffset at haddr
    exact toUInt32_of_lt (by omega)
  have hoffset : toUInt32 (strStart schema + a * strIndex schema k) = addrOffset schema a k :=
    toUInt32_of_lt (by unfold addrOffset at haddr; omega)
  have hguard : ¬ row.length < toUInt32 (addrOffset schema a k + bytes.length) := by
    rw [toUInt32_of_lt (by omega)]
    omega
  unfold columnPlaces at hrun
  rw [if_pos rfl] at hrun
  simp only [Lib.storeAll, bind_eq_bind, bind_eq_some_iff, Option.some.injEq] at hrun
  obtain ⟨row1, hstore, row2, hcopy, rfl⟩ := hrun
  unfold Codec.appendString
  simp only [hmul, hoffset, if_neg hguard, hstore, RowBuilder.copyString_eq hcopy,
    bind_eq_bind, bind_some]
  rw [toUInt32_of_lt (by omega), hnext]

/-- **A string column.** -/
theorem PartialRow.encodeString (h : PartialRow schema vals a (nullsBefore vals k) k row)
    (htyped : Typed schema vals) (ha : 1 ≤ a ∧ a ≤ 4) (h32 : row.length < 2 ^ 32)
    (htype : schema[k]? = some .kVarchar) (hval : vals[k]? = some output.toValue)
    (hsuits : output.Suits .kVarchar)
    (hwidth : output.toValue = .null → getAddrLength row.length = a) :
    ∃ row', Codec.encodeString row row.length k output (strStart schema) a
        (bodyOffset schema vals a k) (strIndex schema k) =
        some (row', bodyOffset schema vals a (k + 1)) ∧
      PartialRow schema vals a (nullsBefore vals (k + 1)) (k + 1) row' := by
  cases output with
  | value val nullable =>
    obtain ⟨bytes, rfl⟩ := hsuits.2.exists_varchar hsuits.1
    exact h.appendString htyped ha h32 htype hval
  | null payload => exact h.appendNullString htyped ha h32 htype hval (hwidth rfl)
  | constNullString => exact h.appendNullString htyped ha h32 htype hval (hwidth rfl)

end Column

/-! ### The run -/

section Run

variable {schema : Schema} {outputs : List NativeValue} {a : Nat}

/-- The NULL strings are written with addresses of the right width. -/
def NullWidth (schema : Schema) (vals : List Value) (a : Nat) : Prop :=
  ∀ i : Nat, schema[i]? = some .kVarchar → vals[i]? = some .null →
    getAddrLength (rowSize schema vals a) = a

/-- **The loop over the columns.** From column `k` on, with the body offset of the
next string in hand once there has been a string. -/
theorem encodeColumns_spec (houtputs : SuitedOutputs schema outputs) (ha : 1 ≤ a ∧ a ≤ 4)
    {space : Nat} (hspace : strCount schema ≠ 0 → space = a)
    (h32 : rowSize schema (outputs.map NativeValue.toValue) a < 2 ^ 32)
    (hwidth : NullWidth schema (outputs.map NativeValue.toValue) a) {k : Nat}
    {strBodyOffset : Option Nat} {row : List Byte} (hk : k ≤ schema.length)
    (h : PartialRow schema (outputs.map NativeValue.toValue) a
      (nullsBefore (outputs.map NativeValue.toValue) k) k row)
    (hbody : strBodyOffset.getD (strStart schema + a * strCount schema) =
      bodyOffset schema (outputs.map NativeValue.toValue) a k) :
    ∃ row', encodeColumns (encoderLayout schema)
        (rowSize schema (outputs.map NativeValue.toValue) a) space (schema.drop k)
        (outputs.drop k) k strBodyOffset row = some row' ∧
      PartialRow schema (outputs.map NativeValue.toValue) a
        (nullsBefore (outputs.map NativeValue.toValue) schema.length) schema.length row' := by
  induction hd : schema.length - k generalizing k strBodyOffset row with
  | zero =>
    obtain rfl : k = schema.length := by omega
    refine ⟨row, ?_, h⟩
    rw [drop_length]
    rfl
  | succ d ih =>
    have hlt : k < schema.length := by omega
    have hlt' : k < outputs.length := by rwa [houtputs.length_eq]
    have htype : schema[k]? = some schema[k] := getElem?_eq_getElem hlt
    have houtput : outputs[k]? = some outputs[k] := getElem?_eq_getElem hlt'
    have hval : (outputs.map NativeValue.toValue)[k]? = some outputs[k].toValue := by
      rw [getElem?_map, houtput]
      rfl
    have hsuits := houtputs.suits k _ _ htype houtput
    have hstart_le : strStart schema + a * strCount schema ≤
        rowSize schema (outputs.map NativeValue.toValue) a := Nat.le_add_right _ _
    have hstart : (encoderLayout schema).strFieldStartOffset = strStart schema :=
      layoutLoop_strFieldStartOffset (by omega)
    have hcnt : (encoderLayout schema).strFieldCnt = strCount schema :=
      layoutLoop_strFieldCnt schema _
    have hoffset : (encoderLayout schema).offsetVec[k]? =
        some (if schema[k] = .kVarchar then strIndex schema k else fieldOffset schema k) :=
      layoutLoop_offsetVec (by omega) htype
    rw [drop_eq_getElem_cons hlt, drop_eq_getElem_cons hlt', encodeColumns, hoffset,
      bind_eq_bind, bind_some]
    by_cases hstr : schema[k] = .kVarchar
    · rw [hstr] at htype hsuits
      have hspace' := hspace (by have := strIndex_lt htype; omega)
      have hfirst : toUInt32 (strStart schema + toUInt32 (strCount schema * a)) =
          strStart schema + a * strCount schema := by
        have hmul : toUInt32 (strCount schema * a) = a * strCount schema := by
          rw [Nat.mul_comm]
          exact toUInt32_of_lt (by omega)
        rw [hmul, toUInt32_of_lt (by omega)]
      obtain ⟨row1, hrun, hrow1⟩ := h.encodeString houtputs.typed ha (by rwa [h.size_eq]) htype hval
        hsuits fun hnull => by
          rw [h.size_eq]
          exact hwidth k htype (by rw [hval, hnull])
      obtain ⟨row', hrest, hrow'⟩ := @ih (k + 1)
        (some (bodyOffset schema (outputs.map NativeValue.toValue) a (k + 1))) row1 hlt hrow1 rfl
        (by omega)
      refine ⟨row', ?_, hrow'⟩
      rw [h.size_eq] at hrun
      simp only [if_pos hstr, hstart, hcnt, hspace', hfirst, hbody, hrun]
      rwa [hspace'] at hrest
    · obtain ⟨row1, hrun, hrow1⟩ := h.appendPrimary houtputs.typed ha htype hval hsuits hstr
      have hnext : bodyOffset schema (outputs.map NativeValue.toValue) a (k + 1) =
          bodyOffset schema (outputs.map NativeValue.toValue) a k := by
        unfold bodyOffset
        rw [prefixSum_succ _ hval, houtputs.typed.strLength_eq_zero htype hval hstr, Nat.add_zero]
      obtain ⟨row', hrest, hrow'⟩ := @ih (k + 1) strBodyOffset row1 hlt hrow1
        (hbody.trans hnext.symm) (by omega)
      refine ⟨row', ?_, hrow'⟩
      simp [hrun, hrest, hstr]

/-- The length of a constant NULL string is loaded through an undefined pointer. -/
theorem encode_constNullString (houtputs : SuitedOutputs schema outputs)
    (hconst : .constNullString ∈ outputs) (buf : List Byte) : encode schema outputs buf = none := by
  obtain ⟨i, hi, houtput⟩ := getElem_of_mem hconst
  have hlt : i < schema.length := houtputs.length_eq ▸ hi
  have htype := getElem?_eq_getElem hlt
  have hstr : schema[i] = .kVarchar :=
    houtputs.suits i _ .constNullString htype (by rw [getElem?_eq_getElem hi, houtput])
  rw [hstr] at htype
  have hcnt : (encoderLayout schema).strFieldCnt = strCount schema :=
    layoutLoop_strFieldCnt schema _
  have hidx := strIndex_lt htype
  have hcalc : calcTotalSize (encoderLayout schema) schema outputs = none :=
    if_pos ⟨⟨by omega, by omega⟩, hconst⟩
  rw [encode, hcalc]
  rfl

/-- The header of the encoder is that of the builder. -/
theorem appendHeader_eq (buf : List Byte) (size : Nat) :
    appendHeader buf size (bitMapSize schema.length) = storeAll buf (headerPlaces schema size) := by
  unfold appendHeader headerPlaces versionLength headerLength
  simp [storeAll]

/-- **The encoder.** -/
theorem encode_encodedRow (houtputs : SuitedOutputs schema outputs)
    (hconst : .constNullString ∉ outputs) (ha : 1 ≤ a ∧ a ≤ 4)
    (hsize : encodedSize schema outputs = rowSize schema (outputs.map NativeValue.toValue) a)
    (hspace : strCount schema ≠ 0 → (totalSize (encoderLayout schema) schema outputs).2 = a)
    (h32 : encodedSize schema outputs < 2 ^ 32)
    (hwidth : NullWidth schema (outputs.map NativeValue.toValue) a) {buf}
    (hbuf : buf.length = encodedSize schema outputs) :
    ∃ row, encode schema outputs buf = some row ∧ row.length = encodedSize schema outputs ∧
      EncodedRow schema (outputs.map NativeValue.toValue) a row := by
  obtain ⟨row0, hheader, hrow0⟩ := @partialRow_header schema (outputs.map NativeValue.toValue) a buf
    (hbuf.trans hsize) (nullsBefore _ 0) (by simp [nullsBefore])
  obtain ⟨row, hrun, hrow⟩ := @encodeColumns_spec schema outputs a houtputs ha _ hspace
    (hsize ▸ h32) hwidth 0 none row0 (Nat.zero_le _) hrow0 rfl
  refine ⟨row, ?_, hrow.size_eq.trans hsize.symm, hrow.encodedRow houtputs.typed⟩
  rw [← hsize] at hrun
  rw [hbuf, ← appendHeader_eq] at hheader
  have hcalc : calcTotalSize (encoderLayout schema) schema outputs =
      some (totalSize (encoderLayout schema) schema outputs) := if_neg fun h => hconst h.2
  unfold encode
  rw [hcalc]
  change (appendHeader buf (encodedSize schema outputs) (bitMapSize schema.length) >>= _) = _
  rw [hheader]
  exact hrun

end Run

end HybridSE.Codec
