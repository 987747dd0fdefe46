import HybridSE.Codec.EncoderRun

/-!
# HybridSE.Codec.EncoderAgree

The compiled encoder against all decoders.

`v1::CalcTotalLength` and `v1::GetAddrSpace` take three bytes for an address in a
row of `2 ^ 24` bytes, `GetAddrLength` takes four. For every other size the
decoders agree (`EncodedRow.allDecode`). A row of that size with a string in
it may be read wrong: `lastString` fills one for every schema that has
room for it, and `RowView` does not find the last string.
-/

namespace HybridSE.Codec

open HybridSE.Lib List Option

/-! ### The decoders of compiled code -/

theorem getAddrSpace_eq {size} (h : size ≠ 2 ^ 24) : getAddrSpace size = getAddrLength size := by
  unfold getAddrSpace getAddrLength
  split_ifs <;> omega

/-- The loop of `RowFormat::RowFormat` over consecutive strings. -/
theorem nextStrPosLoop_range' (s n : Nat) :
    (nextStrPosLoop ((List.range' s n).map fun idx => (idx, idx))).1 = (if n = 0 then 0 else s) ∧
      ∀ j, s ≤ j → j < s + n →
        (nextStrPosLoop ((List.range' s n).map fun idx => (idx, idx))).2.find?
          (fun entry => entry.1 == j) = some (j, if j + 1 < s + n then j + 1 else 0) := by
  induction n generalizing s with
  | zero => exact ⟨rfl, fun j h1 h2 => by omega⟩
  | succ n ih =>
    obtain ⟨hnext, hfind⟩ := ih (s + 1)
    rw [range'_succ, map_cons, nextStrPosLoop]
    refine ⟨rfl, fun j h1 h2 => ?_⟩
    by_cases hj : s = j
    · subst hj
      rw [find?_cons_of_pos (by simp), hnext]
      by_cases hn : n = 0
      · rw [if_pos hn, if_neg (by omega)]
      · rw [if_neg hn, if_pos (by omega)]
    · rw [find?_cons_of_neg (by simpa using hj), hfind j (by omega) (by omega),
        show s + 1 + n = s + (n + 1) by omega]

section Format

variable {schema : Schema} {vals : List Value} {row : List Byte} {i : Nat} {type : ColumnType}
  {val : Value}

theorem RowFormat.offsets_new (htype : schema[i]? = some type) :
    (RowFormat.new schema).offsets[i]? =
      some (if type = .kVarchar then strIndex schema i else toUInt32 (fieldOffset schema i)) :=
  (layoutLoop_spec _ schema).2.2.2 i type htype

theorem RowFormat.getStringColumnInfo_new (htype : schema[i]? = some .kVarchar) :
    (RowFormat.new schema).getStringColumnInfo i =
      some (strIndex schema i, nextStr schema i, toUInt32 (strStart schema)) := by
  have hoffset := RowFormat.offsets_new htype
  rw [if_pos rfl] at hoffset
  have hstart : (RowFormat.new schema).strFieldStartOffset = toUInt32 (strStart schema) :=
    (layoutLoop_spec _ schema).2.2.1
  have hpos : (RowFormat.new schema).nextStrPos =
      (nextStrPosLoop ((List.range' 0 (strCount schema)).map fun idx => (idx, idx))).2 := by
    rw [← range_eq_range', ← layoutLoop_strFieldCnt schema]
    rfl
  have hidx := strIndex_lt htype
  have hfind := (nextStrPosLoop_range' 0 (strCount schema)).2 (strIndex schema i) (Nat.zero_le _)
    (by omega)
  rw [Nat.zero_add] at hfind
  unfold RowFormat.getStringColumnInfo
  rw [hoffset, hstart, hpos, bind_eq_bind, bind_some, hfind]
  rfl

variable (hspace : schema[i]? = some .kVarchar → getAddrSpace row.length = getAddrLength row.length)
  (htype : schema[i]? = some type)
include hspace htype

/-- Compiled code reads the column. -/
theorem RowFormat.getField_eq_readColumn :
    (RowFormat.new schema).getField row type i = readColumn schema row type i := by
  unfold RowFormat.getField readColumn
  by_cases hstr : type = .kVarchar
  · subst hstr
    simp only [RowFormat.getStringColumnInfo_new htype, getStrField, hspace htype]
    cases isNullAt row i with
    | none => rfl
    | some null => cases null <;> rfl
  · simp [RowFormat.offsets_new htype, hstr, Codec.getField]

/-- So does a column list. -/
theorem columnGetField_eq_readColumn :
    columnGetField (RowFormat.new schema) row type i = readColumn schema row type i := by
  unfold columnGetField readColumn
  by_cases hstr : type = .kVarchar
  · subst hstr
    simp [RowFormat.getStringColumnInfo_new htype, hspace htype]
  · simp [RowFormat.offsets_new htype, hstr, getFieldUnsafe, bind_assoc]

end Format

/-! ### All decoders -/

/-- Every decoder reports the values of the row: `RowView` with its typed and its
row-pointer getters, the reads of compiled code, and the column lists. -/
structure AllDecode (schema : Schema) (vals : List Value) (row : List Byte) : Prop where
  rowView : ∃ view, RowView.ofRow schema row row.length = some view ∧
    ∀ (i : Nat) (type : ColumnType) (val : Value), schema[i]? = some type → vals[i]? = some val →
      view.get type i = some val.fetch ∧ view.getByRow row type i = some val.fetch
  rowFormat : ∀ (i : Nat) (type : ColumnType) (val : Value), schema[i]? = some type →
    vals[i]? = some val → (RowFormat.new schema).getField row type i = some val.fetch
  column : ∀ (i : Nat) (type : ColumnType) (val : Value), schema[i]? = some type →
    vals[i]? = some val → columnGetField (RowFormat.new schema) row type i = some val.fetch

/-- Every column takes a byte. -/
theorem length_le_strStart_add (schema : Schema) :
    schema.length ≤ strStart schema + strCount schema := by
  have hsum : schema.length ≤ (schema.map fixedWidth).sum + strCount schema := by
    unfold strCount
    induction schema with
    | nil => exact Nat.le_refl 0
    | cons type schema ih =>
      have : 1 ≤ fixedWidth type + strWidth type := by
        cases type <;> simp [fixedWidth, strWidth, typeSize]
      simp only [map_cons, sum_cons, length_cons]
      omega
  unfold strStart
  omega

theorem EncodedRow.allDecode {schema vals row}
    (h : EncodedRow schema vals (getAddrLength row.length) row) (h31 : row.length < 2 ^ 31)
    (hsize : strCount schema = 0 ∨ row.length ≠ 2 ^ 24) : AllDecode schema vals row := by
  have h32 : row.length < 2 ^ 32 := by omega
  have hcols : schema.length < 2 ^ 31 := by
    have hlen := length_le_strStart_add schema
    have hmul := Nat.mul_le_mul_right (strCount schema) (getAddrLength_bounds row.length).1
    have := h.size_eq
    unfold rowSize at this
    omega
  have hspace : ∀ i : Nat, schema[i]? = some .kVarchar →
      getAddrSpace row.length = getAddrLength row.length := by
    intro i htype
    have hidx := strIndex_lt htype
    exact getAddrSpace_eq (hsize.resolve_left (by omega))
  refine ⟨?_, fun i type val htype hval => ?_, fun i type val htype hval => ?_⟩
  · by_cases hne : schema = []
    · subst hne
      exact ⟨_, rfl, by simp⟩
    · exact ⟨_, RowView.ofRow_eq h hne h32, fun i type val htype hval =>
        ⟨RowView.get_eq h hcols h32 htype hval, RowView.getByRow_eq h hcols h32 htype hval⟩⟩
  · rw [RowFormat.getField_eq_readColumn (hspace i) htype, h.readColumn_eq h32 htype hval]
  · rw [columnGetField_eq_readColumn (hspace i) htype, h.readColumn_eq h32 htype hval]

/-! ### Rows of `2 ^ 24` bytes -/

/-- Outputs with one long string, in the last string column; the other strings are
empty and the other columns NULL. -/
def lastString (bytes : List Byte) : Schema → List NativeValue
  | [] => []
  | type :: schema =>
    (if type = .kVarchar then .value (.varchar (if strCount schema = 0 then bytes else [])) false
      else .null []) :: lastString bytes schema

section LastString

variable {bytes : List Byte}

theorem suits_lastString (schema : Schema) : SuitedOutputs schema (lastString bytes schema) := by
  induction schema with
  | nil => exact ⟨rfl, by simp⟩
  | cons type schema ih =>
    refine ⟨congrArg Nat.succ ih.length_eq, fun i type' output htype houtput => ?_⟩
    cases i with
    | zero =>
      cases htype
      cases houtput
      by_cases hstr : type = .kVarchar
      · rw [if_pos hstr]
        exact ⟨(nomatch ·), hstr⟩
      · rw [if_neg hstr]
        exact Or.inr (Nat.zero_le _)
    | succ i => exact ih.suits i type' output htype houtput

theorem constNullString_notMem_lastString (schema : Schema) :
    .constNullString ∉ lastString bytes schema := by
  induction schema with
  | nil => exact not_mem_nil
  | cons type schema ih =>
    rw [lastString, mem_cons, not_or]
    refine ⟨?_, ih⟩
    split <;> exact (nomatch ·)

theorem strCount_cons (type : ColumnType) (schema : Schema) :
    strCount (type :: schema) = strWidth type + strCount schema := by
  rfl

theorem outputBytes_lastString (schema : Schema) :
    outputBytes (lastString bytes schema) = if strCount schema = 0 then 0 else bytes.length := by
  induction schema with
  | nil => rfl
  | cons type schema ih =>
    unfold outputBytes at ih
    unfold outputBytes lastString
    rw [map_cons, sum_cons, ih, strCount_cons]
    unfold strWidth
    by_cases hstr : type = .kVarchar
    · rw [if_pos hstr, if_pos hstr, if_neg (show ¬ 1 + strCount schema = 0 by omega)]
      change (if strCount schema = 0 then bytes else []).length + _ = _
      by_cases hzero : strCount schema = 0
      · rw [if_pos hzero, if_pos hzero, Nat.add_zero]
      · simp [hzero]
    · rw [if_neg hstr, if_neg hstr, Nat.zero_add]
      exact Nat.zero_add _

/-- The last string column. -/
theorem exists_lastString {schema} (h : strCount schema ≠ 0) :
    ∃ i : Nat, schema[i]? = some .kVarchar ∧ strIndex schema i + 1 = strCount schema ∧
      ((lastString bytes schema).map NativeValue.toValue)[i]? = some (.varchar bytes) := by
  induction schema with
  | nil => exact absurd rfl h
  | cons type schema ih =>
    by_cases hzero : strCount schema = 0
    · rw [strCount_cons, hzero] at h
      have hstr : type = .kVarchar := by
        by_contra hne
        exact h (if_neg hne)
      refine ⟨0, by rw [hstr]; rfl, ?_, ?_⟩
      · rw [strCount_cons, hzero, hstr]
        rfl
      · rw [lastString, if_pos hstr, if_pos hzero]
        rfl
    · obtain ⟨i, htype, hidx, hval⟩ := ih hzero
      refine ⟨i + 1, htype, ?_, hval⟩
      have hsucc : strIndex (type :: schema) (i + 1) = strWidth type + strIndex schema i := by
        rfl
      rw [strCount_cons]
      omega

theorem ne_null_of_mem_lastString {schema} {i : Nat} (htype : schema[i]? = some .kVarchar) :
    ((lastString bytes schema).map NativeValue.toValue)[i]? ≠ some .null := by
  induction schema generalizing i with
  | nil => cases htype
  | cons type schema ih =>
    cases i with
    | zero =>
      cases htype
      exact (nomatch ·)
    | succ i => exact ih htype

end LastString

/-- The last of four address bytes decides. -/
theorem le_leNat_of_last {bs} (hlen : bs.length = 4) (hlast : bs[3]? = some 255#8) :
    255 * 2 ^ 24 ≤ leNat bs := by
  match bs, hlen, hlast with
  | [b0, b1, b2, b3], _, hlast =>
    obtain rfl : b3 = 255#8 := by simpa using hlast
    have : (255#8 : Byte).toNat = 255 := rfl
    simp only [leNat]
    omega

/-- An encoded row of `2 ^ 24` bytes with three-byte addresses and ones in the body of
its only long string: a four-byte address of the last string is out of the row. -/
theorem EncodedRow.getString_ne {schema vals row i n} (h : EncodedRow schema vals 3 row)
    (hlen : row.length = 2 ^ 24) (htype : schema[i]? = some .kVarchar)
    (hidx : strIndex schema i + 1 = strCount schema)
    (hval : vals[i]? = some (.varchar (List.replicate n 255#8)))
    (hsum : (vals.map Value.strLength).sum = n) :
    (RowView.over schema row).get .kVarchar i ≠
      some (Value.varchar (List.replicate n 255#8)).fetch := by
  have h32 : row.length < 2 ^ 32 := by omega
  have hsize := h.size_eq
  unfold rowSize at hsize
  have hcols : schema.length < 2 ^ 31 := by
    have := length_le_strStart_add schema
    omega
  have hwidth : getAddrLength row.length = 4 := by
    have := getAddrLength_cases row.length
    omega
  -- the body of the last string starts behind the addresses
  have hbody := h.body i _ hval
  have hstart : prefixSum Value.strLength vals i = 0 := by
    have := prefixSum_add_le Value.strLength hval (List.getElem?_eq_some_iff.mp hval).1
    rw [prefixSum_length, hsum] at this
    change prefixSum Value.strLength vals i + (List.replicate n 255#8).length ≤ n at this
    rw [length_replicate] at this
    omega
  unfold bodyOffset at hbody
  have hnext : nextStr schema i = 0 := if_neg (by omega)
  have hget : (RowView.over schema row).get .kVarchar i =
      (getStrFieldUnsafe row (strIndex schema i) 0 (strStart schema) 4 >>= fetchBytes row) := by
    rw [RowView.get_eq_readColumn hcols (h.getSize_eq h32) (h.headerLength_lt htype) htype]
    simp [readColumn, h.null i _ hval, hnext, hwidth,
      toUInt32_of_lt (show strStart schema < 2 ^ 32 by omega)]
  rw [hget]
  have hmul : toUInt32 (strIndex schema i * 4) = strIndex schema i * 4 :=
    toUInt32_of_lt (by omega)
  unfold getStrFieldUnsafe readAddr
  rw [hmul]
  by_cases hroom : strStart schema + strIndex schema i * 4 + 4 ≤ row.length
  · -- the fourth byte is one of the body
    obtain ⟨bs, hload⟩ : ∃ bs, load row (strStart schema + strIndex schema i * 4) 4 = some bs :=
      ⟨_, if_pos hroom⟩
    obtain ⟨hfour, hbs⟩ := hasBytes_of_load hload
    have hlast : bs[3]? = some 255#8 := by
      have hread := (hasBytes_iff.mp hbody).2 (strIndex schema i) (by
        rw [length_replicate]
        omega)
      rw [getElem?_replicate, if_pos (by omega)] at hread
      rw [← (hasBytes_iff.mp hbs).2 3 (by omega), ← hread]
      exact congrArg (row[·]?) (by omega)
    have hbig := le_leNat_of_last hfour hlast
    have hnat : addrNat 4 bs = leNat bs := if_neg (by decide)
    simp only [hload, h.getSize_eq h32, hnat, bind_eq_bind, bind_some,
      if_pos (show row.length < leNat bs by omega)]
    simp [fetchBytes, Value.fetch]
  · have hload : load row (strStart schema + strIndex schema i * 4) 4 = none := if_neg hroom
    rw [hload]
    simp [Value.fetch]

section Fill

variable {schema : Schema}

/-- Filling a row of `2 ^ 24` bytes. -/
theorem encodedSize_lastString {bytes} (hcnt : strCount schema ≠ 0)
    (hlen : strStart schema + 3 * strCount schema + bytes.length = 2 ^ 24) :
    NoOverflow schema (outputBytes (lastString bytes schema)) ∧
      totalSize (encoderLayout schema) schema (lastString bytes schema) = (2 ^ 24, 3) := by
  have hbytes : outputBytes (lastString bytes schema) = bytes.length := by
    rw [outputBytes_lastString, if_neg hcnt]
  have hno : NoOverflow schema bytes.length := by
    unfold NoOverflow
    omega
  refine ⟨by rwa [hbytes], ?_⟩
  have hstart : (encoderLayout schema).strFieldStartOffset = strStart schema :=
    layoutLoop_strFieldStartOffset hno.strStart_lt
  have hcnt' : (encoderLayout schema).strFieldCnt = strCount schema :=
    layoutLoop_strFieldCnt schema _
  have hsum : toUInt32 ((lastString bytes schema).map fun output => output.toValue.strLength).sum =
      bytes.length := by
    change toUInt32 (outputBytes (lastString bytes schema)) = _
    rw [hbytes]
    exact toUInt32_of_lt (by omega)
  have hne := strCount_le schema
  unfold totalSize
  rw [hstart, hcnt', if_neg (by omega), hsum]
  unfold calcTotalLength
  simp only [hno.withAddr_eq (show 1 ≤ 4 by decide), hno.withAddr_eq (show 2 ≤ 4 by decide),
    hno.withAddr_eq (show 3 ≤ 4 by decide)]
  rw [if_neg (by omega), if_neg (by omega), if_pos (by omega), hlen]

/-- **A row that `RowView` reads wrong**, for every schema with a string column and
room for it. -/
theorem encode_lastString (hcnt : strCount schema ≠ 0) {n}
    (hlen : strStart schema + 3 * strCount schema + n = 2 ^ 24) {buf : List Byte}
    (hbuf : buf.length = 2 ^ 24) :
    ∃ row i, encode schema (lastString (List.replicate n 255#8) schema) buf = some row ∧
      row.length = 2 ^ 24 ∧ schema[i]? = some .kVarchar ∧
      ((lastString (List.replicate n 255#8) schema).map NativeValue.toValue)[i]? =
        some (.varchar (List.replicate n 255#8)) ∧
      RowView.ofRow schema row row.length = some (RowView.over schema row) ∧
      (RowView.over schema row).get .kVarchar i ≠
        some (Value.varchar (List.replicate n 255#8)).fetch := by
  rw [← @length_replicate _ n 255#8] at hlen
  obtain ⟨-, hsize⟩ := encodedSize_lastString hcnt hlen
  have houtputs : SuitedOutputs schema (lastString (List.replicate n 255#8) schema) :=
    suits_lastString schema
  have hsum : (((lastString (List.replicate n 255#8) schema).map NativeValue.toValue).map
      Value.strLength).sum = n := by
    have := @outputBytes_lastString (List.replicate n 255#8) schema
    rw [if_neg hcnt, length_replicate] at this
    rwa [List.map_map]
  have hsize' : encodedSize schema (lastString (List.replicate n 255#8) schema) = 2 ^ 24 := by
    unfold encodedSize
    rw [hsize]
  rw [length_replicate] at hlen
  obtain ⟨row, hrun, hrowlen, hrow⟩ := @encode_encodedRow schema _ 3 houtputs
    (constNullString_notMem_lastString schema) (by decide)
    (by
      rw [hsize']
      unfold rowSize
      rw [hsum, hlen])
    (fun _ => by rw [hsize]) (by rw [hsize']; decide)
    (fun i htype hnull => absurd hnull (ne_null_of_mem_lastString htype)) _
    (hbuf.trans hsize'.symm)
  rw [hsize'] at hrowlen
  obtain ⟨i, htype, hidx, hval⟩ := @exists_lastString (List.replicate n 255#8) schema hcnt
  refine ⟨row, i, hrun, hrowlen, htype, hval, RowView.ofRow_eq hrow ?_ (by omega),
    hrow.getString_ne hrowlen htype hidx hval hsum⟩
  rintro rfl
  exact hcnt rfl

end Fill

/-! ### Agreement -/

/-- Every row of the schema and the size without a constant NULL string is encoded inside
its memory, and all decoders report its values. -/
def DecodersAgree (schema : Schema) (size : Nat) : Prop :=
  ∀ (outputs : List NativeValue) (buf : List Byte), SuitedOutputs schema outputs →
    .constNullString ∉ outputs → NoOverflow schema (outputBytes outputs) → encodedSize schema outputs = size →
    buf.length = size →
    ∃ row, encode schema outputs buf = some row ∧
      AllDecode schema (outputs.map NativeValue.toValue) row

/-- **Compiled encoder and decoders.** They agree on all rows of a schema and a size
without a constant NULL string, unless the size is `2 ^ 24` and the schema has a string
column and room for it. A row with a constant NULL string is never encoded. -/
theorem decodersAgree_iff (schema : Schema) {size : Nat} (hsize : size ≤ 2 ^ 31 - 1) :
    (DecodersAgree schema size ↔
      size ≠ 2 ^ 24 ∨ strCount schema = 0 ∨ 2 ^ 24 < strStart schema + 3 * strCount schema) ∧
    ∀ outputs buf, SuitedOutputs schema outputs → .constNullString ∈ outputs →
      encode schema outputs buf = none := by
  refine ⟨?_, fun outputs buf houtputs hconst => encode_constNullString houtputs hconst buf⟩
  constructor
  · intro hagree
    by_contra hcond
    simp only [not_or, not_not, Nat.not_lt] at hcond
    obtain ⟨rfl, hcnt, hroom⟩ := hcond
    obtain ⟨n, hn⟩ := Nat.exists_eq_add_of_le hroom
    have hlen : strStart schema + 3 * strCount schema +
        (List.replicate n 255#8).length = 2 ^ 24 := by
      rw [length_replicate, ← hn]
    have hbuf : (List.replicate (2 ^ 24) 0#8).length = 2 ^ 24 := length_replicate
    obtain ⟨hno, hsize'⟩ := encodedSize_lastString hcnt hlen
    obtain ⟨row, hrun, hdecode⟩ := hagree _ _ (suits_lastString schema)
      (constNullString_notMem_lastString schema) hno
      (congrArg Prod.fst hsize') hbuf
    obtain ⟨row', i, hrun', -, htype, hval, hview, hne⟩ := encode_lastString hcnt hn.symm hbuf
    obtain rfl : row = row' := Option.some.inj (hrun.symm.trans hrun')
    obtain ⟨view, hview', hget⟩ := hdecode.rowView
    obtain rfl : view = RowView.over schema row := Option.some.inj (hview'.symm.trans hview)
    exact hne (hget i _ _ htype hval).1
  · intro hcond outputs buf houtputs hconst hno henc hbuf
    obtain ⟨a, ha, hrow, hspace, hwidth, hthree⟩ := calcTotalSize_eq houtputs hno
    rw [henc] at hwidth hthree
    have hor : strCount schema = 0 ∨ size ≠ 2 ^ 24 := by
      by_contra hcond'
      simp only [not_or, not_not] at hcond'
      obtain rfl := hthree hcond'.1 hcond'.2
      unfold rowSize at hrow
      omega
    have ha' := hwidth hor
    obtain ⟨row, hrun, hlen, hrow'⟩ := encode_encodedRow houtputs hconst ha hrow hspace
      (by rw [henc]; omega) (fun i _ _ => by rw [← hrow, henc, ha']) (hbuf.trans henc.symm)
    rw [henc] at hlen
    refine ⟨row, hrun, EncodedRow.allDecode ?_ (by omega) (by rwa [hlen])⟩
    rwa [hlen, ← ha']

/-- Rows of 20 bytes. -/
theorem decodersAgree_twenty : 20 ≤ 2 ^ 31 - 1 ∧ DecodersAgree [.kInt32, .kVarchar, .kVarchar] 20 :=
  ⟨by decide, (decodersAgree_iff _ (by decide)).1.mpr (Or.inl (by decide))⟩

/-- A row of `2 ^ 24` bytes with one string: the encoder writes it, and `RowView` does
not read the string. -/
theorem rowView_loses_string :
    ∃ row, encode [.kVarchar]
        [.value (.varchar (List.replicate (2 ^ 24 - 10) 255#8)) false]
        (List.replicate (2 ^ 24) 0#8) = some row ∧
      RowView.ofRow [.kVarchar] row (2 ^ 24) = some (RowView.over [.kVarchar] row) ∧
      (RowView.over [.kVarchar] row).get .kVarchar 0 ≠
        some (.ok (.varchar (List.replicate (2 ^ 24 - 10) 255#8))) := by
  obtain ⟨row, i, hrun, hlen, htype, -, hview, hne⟩ := @encode_lastString [.kVarchar] (by decide)
    (2 ^ 24 - 10) (by decide) (List.replicate (2 ^ 24) 0#8) length_replicate
  obtain rfl : i = 0 := by
    cases i with
    | zero => rfl
    | succ i => cases htype
  rw [hlen] at hview
  exact ⟨row, hrun, hview, hne⟩

end HybridSE.Codec
