import HybridSE.Codec.RowView

/-!
# HybridSE.Codec.EncodedRow

What an encoded row is, and that the readers decode it.

`EncodedRow schema vals a row` says where the values `vals` stand in the bytes of
`row`, with string addresses of `a` bytes. It names no encoder: whatever writes
these bytes, `RowView` over the row gives the values back
(`RowView.get_eq`, `RowView.getByRow_eq`).
-/

namespace HybridSE.Codec

open HybridSE.Lib List Option

/-- Where the body of column `i` starts, if it is a string. -/
def bodyOffset (schema : Schema) (vals : List Value) (addrLength i : Nat) : Nat :=
  strStart schema + addrLength * strCount schema + prefixSum Value.strLength vals i

/-- The size of a row. -/
def rowSize (schema : Schema) (vals : List Value) (addrLength : Nat) : Nat :=
  strStart schema + addrLength * strCount schema + (vals.map Value.strLength).sum

/-- The values suit the columns. -/
structure Typed (schema : Schema) (vals : List Value) : Prop where
  length_eq : vals.length = schema.length
  hasType : ∀ (i : Nat) (type : ColumnType) (val : Value), schema[i]? = some type →
    vals[i]? = some val → val.HasType type

/-- The bytes of a row hold the values. -/
structure EncodedRow (schema : Schema) (vals : List Value) (addrLength : Nat)
    (row : List Byte) : Prop where
  typed : Typed schema vals
  size_eq : row.length = rowSize schema vals addrLength
  header : HasBytes row versionLength (leBytes 4 row.length)
  null : ∀ (i : Nat) (val : Value), vals[i]? = some val → isNullAt row i = some (decide (val = .null))
  fixed : ∀ (i : Nat) (type : ColumnType) (val : Value), schema[i]? = some type →
    vals[i]? = some val → type ≠ .kVarchar → val ≠ .null → HasBytes row (fieldOffset schema i) val.fixedBytes
  addr : ∀ i : Nat, schema[i]? = some .kVarchar →
    HasBytes row (strStart schema + addrLength * strIndex schema i)
      (addrBytes addrLength (bodyOffset schema vals addrLength i))
  body : ∀ (i : Nat) (bytes : List Byte), vals[i]? = some (.varchar bytes) →
    HasBytes row (bodyOffset schema vals addrLength i) bytes

section Layout

variable {schema : Schema} {vals : List Value}

theorem Typed.exists_val (h : Typed schema vals) {i : Nat} {type} (htype : schema[i]? = some type) :
    ∃ val, vals[i]? = some val ∧ val.HasType type := by
  have hi : i < vals.length := by
    rw [h.length_eq]
    exact (List.getElem?_eq_some_iff.mp htype).1
  exact ⟨vals[i], getElem?_eq_getElem hi,
    h.hasType i type _ htype (getElem?_eq_getElem hi)⟩

/-- A column that is no string has no body. -/
theorem Typed.strLength_eq_zero (h : Typed schema vals) {i : Nat} {type val}
    (htype : schema[i]? = some type) (hval : vals[i]? = some val) (hne : type ≠ .kVarchar) :
    val.strLength = 0 := by
  have := h.hasType i type val htype hval
  cases val <;> first | rfl | exact absurd this hne

/-- From a column on: either there is a next string column, with no body in
between, or there is no further string and no further body. -/
theorem Typed.next_str (h : Typed schema vals) {n : Nat} (hn : n ≤ schema.length) :
    (∃ j, schema[j]? = some .kVarchar ∧ strIndex schema j = strIndex schema n ∧
        prefixSum Value.strLength vals j = prefixSum Value.strLength vals n) ∨
      strIndex schema n = strCount schema ∧
        prefixSum Value.strLength vals n = (vals.map Value.strLength).sum := by
  induction hd : schema.length - n generalizing n with
  | zero =>
    obtain rfl : n = schema.length := by omega
    refine Or.inr ⟨prefixSum_length _ _, ?_⟩
    rw [← h.length_eq, prefixSum_length]
  | succ d ih =>
    have hlt : n < schema.length := by omega
    have htype : schema[n]? = some schema[n] := getElem?_eq_getElem hlt
    by_cases hstr : schema[n] = .kVarchar
    · exact Or.inl ⟨n, by rw [htype, hstr], rfl, rfl⟩
    · obtain ⟨val, hval, -⟩ := h.exists_val htype
      have hidx : strIndex schema (n + 1) = strIndex schema n := by
        unfold strIndex
        rw [prefixSum_succ _ htype, strWidth, if_neg hstr, Nat.add_zero]
      have hbody : prefixSum Value.strLength vals (n + 1) =
          prefixSum Value.strLength vals n := by
        rw [prefixSum_succ _ hval, h.strLength_eq_zero htype hval hstr, Nat.add_zero]
      have := @ih (n + 1) hlt (by omega)
      rwa [hidx, hbody] at this

end Layout

namespace EncodedRow

variable {schema : Schema} {vals : List Value} {row : List Byte} {i : Nat} {type : ColumnType}
  {val : Value}

theorem getSize_eq {a} (h : EncodedRow schema vals a row) (h32 : row.length < 2 ^ 32) :
    getSize row = some row.length := by
  unfold getSize
  rw [h.header.load_eq (length_leBytes _ _)]
  exact congrArg some (leNat_leBytes_of_lt (by omega))

end EncodedRow

/-! ### Reading with `RowView` -/

/-- What a getter reports for a value. -/
def Value.fetch (val : Value) : Fetch Value := if val = .null then .isNull else .ok val

/-- The view over a row. -/
def RowView.over (schema : Schema) (row : List Byte) : RowView :=
  { RowView.new schema with
    row := some row
    size := row.length
    strAddrLength := getAddrLength row.length
    isValid := true }

section View

variable {schema : Schema} {vals : List Value} {row : List Byte} {i : Nat} {type : ColumnType}
  {val : Value}

theorem schema_over_ne (htype : schema[i]? = some type) :
    ¬ (RowView.over schema row).schema.length = 0 := by
  have : i < schema.length := (List.getElem?_eq_some_iff.mp htype).1
  intro h0
  exact Nat.not_lt_zero i (h0 ▸ this)

theorem strIndex_lt (htype : schema[i]? = some .kVarchar) :
    strIndex schema i + 1 ≤ strCount schema := by
  have := prefixSum_add_le strWidth htype (List.getElem?_eq_some_iff.mp htype).1
  rwa [prefixSum_length] at this

theorem strCount_le (schema : Schema) : strCount schema ≤ schema.length := by
  unfold strCount
  induction schema with
  | nil => exact Nat.le_refl 0
  | cons type schema ih =>
    have : strWidth type ≤ 1 := by
      unfold strWidth
      split <;> omega
    rw [map_cons, sum_cons, length_cons]
    omega

theorem RowView.column_over (hcols : schema.length < 2 ^ 31) (htype : schema[i]? = some type) :
    (RowView.over schema row).column i = some (some type) := by
  have hi := (List.getElem?_eq_some_iff.mp htype).1
  have hcast : ¬ (schema.length : Int) ≤ toInt32 i := by
    rw [toInt32_of_lt (by omega)]
    omega
  refine (if_neg hcast).trans ?_
  change schema[i]? >>= _ = _
  rw [htype]
  rfl

theorem RowView.checkValid_over (hcols : schema.length < 2 ^ 31) (htype : schema[i]? = some type) :
    (RowView.over schema row).checkValid i type = some true := by
  have hvalid : ¬ ((RowView.over schema row).row = none ∨
      (RowView.over schema row).isValid = false) := by
    rintro (h | h) <;> cases h
  refine (if_neg hvalid).trans ?_
  simp [RowView.column_over hcols htype]

/-- The next string column's number, or zero for the last one. -/
def nextStr (schema : Schema) (i : Nat) : Nat :=
  if strIndex schema i + 1 < strCount schema then strIndex schema i + 1 else 0

theorem RowView.nextStrFieldOffset_over (hcols : schema.length < 2 ^ 31)
    (htype : schema[i]? = some .kVarchar) :
    (RowView.over schema row).nextStrFieldOffset (strIndex schema i) = nextStr schema i := by
  have hidx := strIndex_lt htype
  have hcnt : strCount schema ≤ schema.length := strCount_le schema
  have hview : (RowView.over schema row).stringFieldCnt = strCount schema :=
    layoutLoop_strFieldCnt schema _
  unfold RowView.nextStrFieldOffset nextStr
  rw [hview]
  have hpred : toUInt32 (strCount schema + (2 ^ 32 - 1)) = strCount schema - 1 := by
    unfold toUInt32
    omega
  by_cases hlt : strIndex schema i + 1 < strCount schema
  · rw [if_pos hlt, if_pos (by omega)]
  · rw [if_neg hlt, if_neg (by omega)]

/-- A column that has passed the getters' checks, whatever the bytes of the row are. -/
def readColumn (schema : Schema) (row : List Byte) (type : ColumnType) (i : Nat) :
    Option (Fetch Value) := do
  if ← isNullAt row i then
    return .isNull
  if type = .kVarchar then
    fetchBytes row (← getStrFieldUnsafe row (strIndex schema i) (nextStr schema i)
      (toUInt32 (strStart schema)) (getAddrLength row.length))
  else
    return .ok (← getFieldUnsafe type row (toUInt32 (fieldOffset schema i)))

section AnyBytes

/-- The column's place in the view's tables. -/
theorem RowView.offsetVec_over (htype : schema[i]? = some type) :
    (RowView.over schema row).offsetVec[i]? =
      some (if type = .kVarchar then strIndex schema i else toUInt32 (fieldOffset schema i)) :=
  (layoutLoop_spec _ schema).2.2.2 i type htype

theorem RowView.strFieldStartOffset_over :
    (RowView.over schema row).strFieldStartOffset = toUInt32 (strStart schema) :=
  (layoutLoop_spec _ schema).2.2.1

theorem RowView.get_eq_getFixed (view : RowView) (hne : type ≠ .kVarchar) :
    view.get type i = view.getFixed type i := by
  cases type <;> first | exact absurd rfl hne | rfl

@[simp] theorem RowView.row_over : (RowView.over schema row).row = some row := rfl

variable (hcols : schema.length < 2 ^ 31) (hsize : getSize row = some row.length)
  (hlen : ¬ row.length ≤ headerLength) (htype : schema[i]? = some type)
include hcols htype

theorem RowView.getFixed_eq_readColumn (hne : type ≠ .kVarchar) :
    (RowView.over schema row).getFixed type i = readColumn schema row type i := by
  simp [RowView.getFixed, readColumn, RowView.checkValid_over hcols htype,
    RowView.offsetVec_over htype, hne]

include hsize hlen

/-- Behind their checks the typed getters read the column. -/
theorem RowView.get_eq_readColumn :
    (RowView.over schema row).get type i = readColumn schema row type i := by
  by_cases hstr : type = .kVarchar
  · subst hstr
    simp only [RowView.get, RowView.getString, readColumn, RowView.checkValid_over hcols htype,
      RowView.offsetVec_over htype, RowView.row_over, RowView.strFieldStartOffset_over,
      RowView.nextStrFieldOffset_over hcols htype, hsize, hlen, bind_eq_bind, bind_some, if_true]
    cases isNullAt row i with
    | none => rfl
    | some null => cases null <;> rfl
  · rw [RowView.get_eq_getFixed _ hstr, RowView.getFixed_eq_readColumn hcols htype hstr]

/-- So do the row-pointer getters. -/
theorem RowView.getByRow_eq_readColumn :
    (RowView.over schema row).getByRow row type i = readColumn schema row type i := by
  by_cases hstr : type = .kVarchar
  · subst hstr
    simp only [RowView.getByRow, RowView.getValueString, readColumn, RowView.column_over hcols htype,
      RowView.offsetVec_over htype, RowView.strFieldStartOffset_over, schema_over_ne htype,
      RowView.nextStrFieldOffset_over hcols htype, hsize, hlen, bind_eq_bind, bind_some, if_true]
    cases isNullAt row i with
    | none => rfl
    | some null => cases null <;> rfl
  · simp [RowView.getByRow, RowView.getValue, readColumn, RowView.column_over hcols htype,
      RowView.offsetVec_over htype, schema_over_ne htype, hsize, hlen, hstr]

end AnyBytes

section AnyWidth

variable {a : Nat} (h : EncodedRow schema vals a row)

include h

theorem EncodedRow.strStart_le : strStart schema ≤ row.length := by
  rw [h.size_eq]
  unfold rowSize
  omega

/-- `Reset` accepts the row. -/
theorem RowView.reset_eq (hne : schema ≠ []) (h32 : row.length < 2 ^ 32) {view : RowView}
    (hview : view.schema = schema) :
    view.reset row row.length = some (true, { view with
      row := some row, size := row.length, strAddrLength := getAddrLength row.length,
      isValid := true }) := by
  have hsize : ¬ (view.schema.length = 0 ∨ row.length ≤ headerLength) := by
    have hlen : schema.length ≠ 0 := fun h0 => hne (length_eq_zero_iff.mp h0)
    have := h.strStart_le
    rw [hview]
    unfold strStart fixedStart bitMapSize headerLength at *
    split at this <;> omega
  refine (if_neg hsize).trans ?_
  simp [h.getSize_eq h32]

/-- The constructor of the view accepts the row. -/
theorem RowView.ofRow_eq (hne : schema ≠ []) (h32 : row.length < 2 ^ 32) :
    RowView.ofRow schema row row.length = some (RowView.over schema row) := by
  have hlen : schema.length ≠ 0 := fun h0 => hne (length_eq_zero_iff.mp h0)
  refine (if_neg hlen).trans ?_
  rw [RowView.reset_eq h hne h32 rfl]
  rfl

/-- A fixed-length column is read back. -/
theorem EncodedRow.getFieldUnsafe_eq (htype : schema[i]? = some type) (hval : vals[i]? = some val)
    (hne : type ≠ .kVarchar) (hnull : val ≠ .null) :
    getFieldUnsafe type row (fieldOffset schema i) = some val := by
  have hhas := h.typed.hasType i type val htype hval
  unfold getFieldUnsafe
  rw [(h.fixed i type val htype hval hne hnull).load_eq (Value.length_fixedBytes hhas hnull)]
  exact congrArg some (Value.ofFixedBytes_fixedBytes hhas hnull hne)

theorem EncodedRow.headerLength_lt (htype : schema[i]? = some type) :
    ¬ row.length ≤ headerLength := by
  have hi : i < schema.length := (List.getElem?_eq_some_iff.mp htype).1
  have := h.strStart_le
  unfold strStart fixedStart bitMapSize headerLength at *
  split at this <;> omega

end AnyWidth

variable (h : EncodedRow schema vals (getAddrLength row.length) row)
  (hcols : schema.length < 2 ^ 31) (h32 : row.length < 2 ^ 32)

include h h32

/-- A string address is read back. -/
theorem EncodedRow.readAddr_eq (htype : schema[i]? = some .kVarchar) :
    readAddr row (strStart schema) (getAddrLength row.length) (strIndex schema i) =
      some (bodyOffset schema vals (getAddrLength row.length) i) := by
  have hidx := strIndex_lt htype
  have hbody : bodyOffset schema vals (getAddrLength row.length) i ≤ row.length := by
    conv_rhs => rw [h.size_eq]
    exact Nat.add_le_add_left (prefixSum_le_sum _ _ _) _
  have hplace : strIndex schema i * getAddrLength row.length ≤ row.length := by
    have hmul := Nat.mul_le_mul_right (getAddrLength row.length) (Nat.le_of_succ_le hidx)
    rw [Nat.mul_comm (strCount schema)] at hmul
    have := h.size_eq
    unfold rowSize at this
    omega
  unfold readAddr
  rw [toUInt32_of_lt (Nat.lt_of_le_of_lt hplace h32), Nat.mul_comm,
    (h.addr i htype).load_eq (length_addrBytes (getAddrLength_bounds _) _)]
  exact congrArg some (addrNat_addrBytes hbody h32)

/-- A string is found. -/
theorem EncodedRow.getStrFieldUnsafe_eq {bytes} (htype : schema[i]? = some .kVarchar)
    (hval : vals[i]? = some (.varchar bytes)) :
    getStrFieldUnsafe row (strIndex schema i) (nextStr schema i) (strStart schema)
        (getAddrLength row.length) =
      some (.ok (bodyOffset schema vals (getAddrLength row.length) i, bytes.length)) := by
  have hsucc : strIndex schema (i + 1) = strIndex schema i + 1 := prefixSum_succ strWidth htype
  have hbody : prefixSum Value.strLength vals (i + 1) =
      prefixSum Value.strLength vals i + bytes.length := prefixSum_succ Value.strLength hval
  unfold getStrFieldUnsafe
  rw [if_pos (getAddrLength_bounds row.length), h.readAddr_eq h32 htype]
  have hi : i + 1 ≤ schema.length := (List.getElem?_eq_some_iff.mp htype).1
  rcases h.typed.next_str hi with ⟨j, hj, hidx, hlen⟩ | ⟨hidx, hlen⟩
  · -- the next string starts where this one ends
    have hlt : strIndex schema i + 1 < strCount schema := by
      have := strIndex_lt hj
      omega
    have hnext := h.readAddr_eq h32 hj
    rw [hidx, hsucc] at hnext
    unfold nextStr
    simp only [if_pos hlt, Nat.succ_ne_zero, if_false, hnext, bind_eq_bind,
      bind_some]
    have hend : bodyOffset schema vals (getAddrLength row.length) j =
        bodyOffset schema vals (getAddrLength row.length) i + bytes.length := by
      unfold bodyOffset
      omega
    rw [hend, if_neg (by omega), Nat.add_sub_cancel_left]
    rfl
  · -- the last string ends where the row ends
    have hlast : ¬ strIndex schema i + 1 < strCount schema := by omega
    have hend : row.length =
        bodyOffset schema vals (getAddrLength row.length) i + bytes.length := by
      have hsize := h.size_eq
      unfold rowSize at hsize
      unfold bodyOffset
      omega
    unfold nextStr
    simp only [if_neg hlast, if_true, h.getSize_eq h32, bind_eq_bind, bind_some]
    rw [if_neg (by omega), Nat.sub_eq_of_eq_add' hend]
    rfl

/-- A string getter that has passed its checks. -/
theorem EncodedRow.fetch_string_eq (htype : schema[i]? = some .kVarchar) (hval : vals[i]? = some val)
    (hnull : val ≠ .null) :
    (getStrFieldUnsafe row (strIndex schema i) (nextStr schema i) (strStart schema)
      (getAddrLength row.length) >>= fetchBytes row) = some val.fetch := by
  obtain ⟨bytes, rfl⟩ := (h.typed.hasType i _ val htype hval).exists_varchar hnull
  rw [h.getStrFieldUnsafe_eq h32 htype hval]
  simp only [bind_eq_bind, bind_some, fetchBytes, (h.body i bytes hval).load_eq rfl]
  rfl

theorem EncodedRow.toUInt32_fieldOffset : toUInt32 (fieldOffset schema i) = fieldOffset schema i := by
  have hfield : fieldOffset schema i ≤ strStart schema :=
    Nat.add_le_add_left (prefixSum_le_sum _ _ _) _
  exact toUInt32_of_lt (Nat.lt_of_le_of_lt (hfield.trans h.strStart_le) h32)

/-- The column of an encoded row. -/
theorem EncodedRow.readColumn_eq (htype : schema[i]? = some type) (hval : vals[i]? = some val) :
    readColumn schema row type i = some val.fetch := by
  unfold readColumn
  rw [h.null i val hval, h.toUInt32_fieldOffset h32,
    toUInt32_of_lt (Nat.lt_of_le_of_lt h.strStart_le h32)]
  by_cases hnull : val = .null
  · simp [hnull, Value.fetch]
  · simp only [hnull]
    by_cases hstr : type = .kVarchar
    · subst hstr
      exact h.fetch_string_eq h32 htype hval hnull
    · simp [hstr, h.getFieldUnsafe_eq htype hval hstr hnull, Value.fetch, hnull]

include hcols

/-- **Decoding with the typed getters.** -/
theorem RowView.get_eq (htype : schema[i]? = some type) (hval : vals[i]? = some val) :
    (RowView.over schema row).get type i = some val.fetch := by
  rw [RowView.get_eq_readColumn hcols (h.getSize_eq h32) (h.headerLength_lt htype) htype]
  exact h.readColumn_eq h32 htype hval

/-- **Decoding with the row-pointer getters.** -/
theorem RowView.getByRow_eq (htype : schema[i]? = some type) (hval : vals[i]? = some val) :
    (RowView.over schema row).getByRow row type i = some val.fetch := by
  rw [RowView.getByRow_eq_readColumn hcols (h.getSize_eq h32) (h.headerLength_lt htype) htype]
  exact h.readColumn_eq h32 htype hval

end View

end HybridSE.Codec
