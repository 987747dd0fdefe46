import HybridSE.Codec.RowBuilder
import HybridSE.Codec.RowPlaces

/-!
# HybridSE.Codec.RowRoundTrip

What `RowBuilder` writes, `RowView` reads.

`RowBuilder.Wrote` is the builder's state after some columns. `SetBuffer`
establishes it (`RowBuilder.wrote_setBuffer`), every append call that suits its
column succeeds and keeps it (`RowBuilder.Wrote.append`), and a run over all
columns leaves an encoded row (`RowBuilder.Wrote.appendAll`).
-/

namespace HybridSE.Codec

open HybridSE.Lib List Option

/-! ### The size of the row -/

section Size

variable {schema : Schema} {stringLength : Nat}

/-- `CalTotalLength` picks an address width that `GetAddrLength` finds again. -/
theorem calTotalLength_eq (hne : schema ≠ []) (h : NoOverflow schema stringLength) :
    let size := (RowBuilder.new schema).calTotalLength stringLength
    size = strStart schema + getAddrLength size * strCount schema + stringLength ∧
      size < 2 ^ 32 := by
  have hlen : schema.length ≠ 0 := fun h0 => hne (length_eq_zero_iff.mp h0)
  have hstart : (RowBuilder.new schema).strFieldStartOffset = strStart schema :=
    layoutLoop_strFieldStartOffset h.strStart_lt
  have hcnt : (RowBuilder.new schema).strFieldCnt = strCount schema :=
    layoutLoop_strFieldCnt schema _
  have hsize : (RowBuilder.new schema).calTotalLength stringLength =
      if strStart schema + 1 * strCount schema + stringLength ≤ 255 then
        strStart schema + 1 * strCount schema + stringLength
      else if strStart schema + 2 * strCount schema + stringLength ≤ 65535 then
        strStart schema + 2 * strCount schema + stringLength
      else if strStart schema + 3 * strCount schema + stringLength ≤ 2 ^ 24 - 1 then
        strStart schema + 3 * strCount schema + stringLength
      else if strStart schema + 4 * strCount schema + stringLength ≤ 2 ^ 32 - 1 then
        strStart schema + 4 * strCount schema + stringLength
      else 0 := by
    refine (if_neg hlen).trans ?_
    simp only [hstart, hcnt, h.withAddr_eq (show 1 ≤ 4 by decide),
      h.withAddr_eq (show 2 ≤ 4 by decide), h.withAddr_eq (show 3 ≤ 4 by decide),
      h.withAddr_eq (Nat.le_refl 4)]
  dsimp only
  rw [hsize]
  unfold NoOverflow at h
  unfold getAddrLength
  split_ifs <;> omega

end Size

/-! ### The builder's state -/

/-- The builder after the first `k` columns. -/
structure RowBuilder.Wrote (schema : Schema) (vals : List Value) (k : Nat) (b : RowBuilder) :
    Prop where
  schema_eq : b.schema = schema
  cnt_eq : b.cnt = k
  size_eq : b.size = rowSize schema vals b.strAddrLength
  strAddrLength_eq : b.strAddrLength = getAddrLength b.size
  strFieldStartOffset_eq : b.strFieldStartOffset = strStart schema
  strOffset_eq : b.strOffset = bodyOffset schema vals b.strAddrLength k
  offsetVec_eq : b.offsetVec = (layoutLoop (fixedStart schema) schema).offsetVec
  row : PartialRow schema vals b.strAddrLength (nullsBefore vals k) k b.buf

section Builder

variable {schema : Schema} {vals : List Value}

/-- `SetBuffer` accepts a buffer of the right size. -/
theorem RowBuilder.wrote_setBuffer {buf}
    (hbuf : buf.length = rowSize schema vals (getAddrLength buf.length))
    (h32 : buf.length < 2 ^ 32) :
    ∃ b, (RowBuilder.new schema).setBuffer buf buf.length = some (true, b) ∧
      b.size = buf.length ∧ b.Wrote schema vals 0 := by
  have hstart_lt : strStart schema + strCount schema ≤ buf.length := by
    rw [hbuf]
    unfold rowSize
    have := Nat.mul_le_mul_right (strCount schema) (getAddrLength_bounds buf.length).1
    omega
  have hstart : (RowBuilder.new schema).strFieldStartOffset = strStart schema :=
    layoutLoop_strFieldStartOffset (by omega)
  have hcnt : (RowBuilder.new schema).strFieldCnt = strCount schema :=
    layoutLoop_strFieldCnt schema _
  have hguard : ¬ (buf.length = 0 ∨ buf.length <
      toUInt32 ((RowBuilder.new schema).strFieldStartOffset +
        (RowBuilder.new schema).strFieldCnt)) := by
    rw [hstart, toUInt32_of_lt (by omega)]
    unfold strStart fixedStart headerLength at hstart_lt
    unfold strStart fixedStart headerLength
    omega
  obtain ⟨row, hrun, hrow⟩ := @partialRow_header schema vals _ buf hbuf
    (nullsBefore vals 0) (by simp [nullsBefore])
  simp only [headerPlaces, storeAll, bind_eq_bind, bind_eq_some_iff,
    Option.some.injEq] at hrun
  obtain ⟨buf1, h1, buf2, h2, buf3, h3, buf4, h4, rfl⟩ := hrun
  have hschema : (RowBuilder.new schema).schema = schema := rfl
  refine ⟨{ RowBuilder.new schema with
      buf := buf4
      size := buf.length
      cnt := 0
      strAddrLength := getAddrLength buf.length
      strOffset := toUInt32 ((RowBuilder.new schema).strFieldStartOffset +
        toUInt32 (getAddrLength buf.length * (RowBuilder.new schema).strFieldCnt)) },
    (if_neg hguard).trans ?_, rfl, ?_⟩
  · simp only [hschema, h1, h2, h3, h4, bind_eq_bind, bind_some]
  · refine ⟨rfl, rfl, hbuf, rfl, hstart, ?_, rfl, hrow⟩
    have hbody : bodyOffset schema vals (getAddrLength buf.length) 0 ≤ buf.length := by
      conv_rhs => rw [hbuf]
      exact Nat.add_le_add_left (prefixSum_le_sum _ _ _) _
    unfold bodyOffset at hbody ⊢
    rw [prefixSum_zero] at hbody ⊢
    have haddr : toUInt32 (getAddrLength buf.length * strCount schema) =
        getAddrLength buf.length * strCount schema := toUInt32_of_lt (by omega)
    rw [hstart, hcnt, haddr, toUInt32_of_lt (by omega), Nat.add_zero]

namespace RowBuilder.Wrote

variable {k : Nat} {b : RowBuilder} {type : ColumnType} {val : Value}

theorem addr_bounds (h : b.Wrote schema vals k) : 1 ≤ b.strAddrLength ∧ b.strAddrLength ≤ 4 := by
  rw [h.strAddrLength_eq]
  exact getAddrLength_bounds _

theorem strStart_lt (h : b.Wrote schema vals k) (h32 : b.size < 2 ^ 32) :
    strStart schema < 2 ^ 32 := by
  have := h.size_eq
  unfold rowSize at this
  omega

/-- The column is there and has the right type. -/
theorem check_eq (h : b.Wrote schema vals k) (hcols : schema.length < 2 ^ 31)
    (htype : schema[k]? = some type) : b.check type = some true := by
  have hk := (List.getElem?_eq_some_iff.mp htype).1
  have hcast : ¬ (b.schema.length : Int) ≤ toInt32 b.cnt := by
    rw [h.schema_eq, h.cnt_eq, toInt32_of_lt (by omega)]
    omega
  refine (if_neg hcast).trans ?_
  simp [h.schema_eq, h.cnt_eq, htype]

theorem offsetVec_getElem? (h : b.Wrote schema vals k) (h32 : b.size < 2 ^ 32)
    (htype : schema[k]? = some type) :
    b.offsetVec[b.cnt]? =
      some (if type = .kVarchar then strIndex schema k else fieldOffset schema k) := by
  rw [h.offsetVec_eq, h.cnt_eq]
  exact layoutLoop_offsetVec (h.strStart_lt h32) htype

/-- The address of a string column is written where its place is. -/
theorem fillStringOffset_eq (h : b.Wrote schema vals k) (h32 : b.size < 2 ^ 32)
    (htype : schema[k]? = some .kVarchar) (buf : List Byte) :
    fillStringOffset buf b.strFieldStartOffset b.strAddrLength (strIndex schema k) b.strOffset =
      store buf (addrOffset schema b.strAddrLength k)
        (addrBytes b.strAddrLength (bodyOffset schema vals b.strAddrLength k)) := by
  have haddr := @addrOffset_add_le schema b.strAddrLength k htype
  have hsize := h.size_eq
  unfold rowSize at hsize
  unfold addrOffset at haddr
  unfold fillStringOffset addrOffset
  rw [h.strFieldStartOffset_eq, h.strOffset_eq, toUInt32_of_lt (by omega)]

/-- The next column is written: the builder counts on. -/
theorem next (h : b.Wrote schema vals k) (hcols : schema.length < 2 ^ 31)
    (htype : schema[k]? = some type) (hval : vals[k]? = some val) {row}
    (hrow : PartialRow schema vals b.strAddrLength (nullsBefore vals (k + 1)) (k + 1) row)
    {strOffset} (hoff : strOffset = b.strOffset + val.strLength) :
    ({ b with buf := row, strOffset := strOffset, cnt := toUInt32 (b.cnt + 1) } :
      RowBuilder).Wrote schema vals (k + 1) := by
  have hk := (List.getElem?_eq_some_iff.mp htype).1
  refine ⟨h.schema_eq, ?_, h.size_eq, h.strAddrLength_eq, h.strFieldStartOffset_eq, ?_,
    h.offsetVec_eq, hrow⟩
  · rw [h.cnt_eq]
    exact toUInt32_of_lt (by omega)
  · simp [hoff, h.strOffset_eq, bodyOffset, prefixSum_succ _ hval, Nat.add_assoc]

/-- The append functions of the fixed-length types. -/
theorem appendFixed (h : b.Wrote schema vals k) (hcols : schema.length < 2 ^ 31)
    (h32 : b.size < 2 ^ 32) (htyped : Typed schema vals) (htype : schema[k]? = some type)
    (hval : vals[k]? = some val) (hne : type ≠ .kVarchar) (hnull : val ≠ .null) :
    ∃ b', b.appendFixed type val = some (true, b') ∧ b'.size = b.size ∧
      b'.Wrote schema vals (k + 1) := by
  obtain ⟨row, hrun, hrow⟩ := h.row.storeColumn htyped h.addr_bounds htype hval
  have hstore : store b.buf (fieldOffset schema k) val.fixedBytes = some row := by
    unfold columnPlaces at hrun
    rw [if_neg hne, if_neg hnull] at hrun
    simpa [storeAll] using hrun
  rw [← nullsBefore_succ hval hnull] at hrow
  have hoffset := h.offsetVec_getElem? h32 htype
  rw [if_neg hne] at hoffset
  refine ⟨{ b with buf := row, cnt := toUInt32 (b.cnt + 1) }, ?_, rfl,
    h.next hcols htype hval hrow ?_⟩
  · simp [RowBuilder.appendFixed, h.check_eq hcols htype, hoffset, hstore, bind_eq_bind, bind_some]
  · rw [htyped.strLength_eq_zero htype hval hne, Nat.add_zero]

/-- `AppendNULL`. -/
theorem appendNULL (h : b.Wrote schema vals k) (hcols : schema.length < 2 ^ 31)
    (h32 : b.size < 2 ^ 32) (htyped : Typed schema vals) (htype : schema[k]? = some type)
    (hval : vals[k]? = some .null) :
    ∃ b', b.appendNULL = some (true, b') ∧ b'.size = b.size ∧ b'.Wrote schema vals (k + 1) := by
  obtain ⟨byte, row1, hbyte, hbit, hrow1⟩ := h.row.storeNull htyped h.addr_bounds hval
    (decide_eq_true rfl).symm
  change store b.buf _ [byte ||| 1#8 <<< (k % 8)] = some row1 at hbit
  obtain ⟨row, hrun, hrow⟩ := hrow1.storeColumn htyped h.addr_bounds htype hval
  have hfill : b.appendNullOffset row1 type = some row := by
    unfold columnPlaces at hrun
    unfold appendNullOffset
    by_cases hstr : type = .kVarchar
    · subst hstr
      have hoffset := h.offsetVec_getElem? h32 htype
      rw [if_pos rfl] at hoffset hrun ⊢
      rw [hoffset, bind_eq_bind, bind_some, h.fillStringOffset_eq h32 htype]
      simpa [storeAll] using hrun
    · rw [if_neg hstr] at hrun
      rw [if_neg hstr]
      exact hrun
  refine ⟨{ b with buf := row, cnt := toUInt32 (b.cnt + 1) }, ?_, rfl,
    h.next hcols htype hval hrow rfl⟩
  simp [RowBuilder.appendNULL, h.cnt_eq, h.schema_eq, hbyte, hbit, htype, hfill, bind_eq_bind,
    bind_some]

/-- `AppendString`. -/
theorem appendString (h : b.Wrote schema vals k) (hcols : schema.length < 2 ^ 31)
    (h32 : b.size < 2 ^ 32) (htyped : Typed schema vals) {bytes}
    (htype : schema[k]? = some .kVarchar) (hval : vals[k]? = some (.varchar bytes)) :
    ∃ b', b.appendString bytes = some (true, b') ∧ b'.size = b.size ∧
      b'.Wrote schema vals (k + 1) := by
  obtain ⟨row, hrun, hrow⟩ := h.row.storeColumn htyped h.addr_bounds htype hval
  rw [← nullsBefore_succ hval (nomatch ·)] at hrow
  have hbody := @bodyOffset_add_le schema vals b.strAddrLength k _ hval
  rw [← h.strOffset_eq, ← h.size_eq] at hbody
  change b.strOffset + bytes.length ≤ b.size at hbody
  have hsum : toUInt32 (b.strOffset + bytes.length) = b.strOffset + bytes.length :=
    toUInt32_of_lt (by omega)
  have hoffset := h.offsetVec_getElem? h32 htype
  rw [if_pos rfl] at hoffset
  unfold columnPlaces at hrun
  rw [if_pos rfl] at hrun
  simp only [storeAll, bind_eq_bind, bind_eq_some_iff, Option.some.injEq] at hrun
  obtain ⟨row1, haddr, row2, hstore, rfl⟩ := hrun
  rw [← h.strOffset_eq] at hstore
  refine ⟨{ b with
      buf := row2
      strOffset := toUInt32 (b.strOffset + bytes.length)
      cnt := toUInt32 (b.cnt + 1) }, ?_, rfl, h.next hcols htype hval hrow hsum⟩
  unfold RowBuilder.appendString
  simp only [h.check_eq hcols htype, hoffset, h.fillStringOffset_eq h32 htype, haddr, copyString_eq hstore,
    bind_eq_bind, bind_some, Bool.not_true, Bool.false_eq_true, if_false]
  rw [if_neg (by rw [hsum]; omega)]
  rfl

/-- **One call.** A call that suits its column succeeds inside the buffer. -/
theorem append (h : b.Wrote schema vals k) (hcols : schema.length < 2 ^ 31) (h32 : b.size < 2 ^ 32)
    (htyped : Typed schema vals) {call} (htype : schema[k]? = some type)
    (hval : vals[k]? = some call.value) (hsuits : call.Suits type) :
    ∃ b', b.append call = some (true, b') ∧ b'.size = b.size ∧ b'.Wrote schema vals (k + 1) := by
  cases call with
  | null => exact h.appendNULL hcols h32 htyped htype hval
  | string bytes =>
    obtain rfl : type = .kVarchar := hsuits
    exact h.appendString hcols h32 htyped htype hval
  | date year month day =>
    obtain ⟨rfl, hy1, hy2, hm1, hm2, hd1, hd2⟩ := hsuits
    obtain ⟨b', hrun, hb'⟩ := h.appendFixed hcols h32 htyped htype hval (nomatch ·) (nomatch ·)
    refine ⟨b', ?_, hb'⟩
    change b.appendDate year month day = _
    unfold RowBuilder.appendDate
    rw [if_neg (by omega), if_neg (by omega), if_neg (by omega)]
    exact hrun
  | bool val | int16 val | int32 val | int64 val | float val | double val | timestamp val =>
    cases hsuits
    exact h.appendFixed hcols h32 htyped htype hval (nomatch ·) (nomatch ·)

/-- **A run.** The remaining calls succeed inside the buffer, and the row is
complete. -/
theorem appendAll (hcols : schema.length < 2 ^ 31) (htyped : Typed schema vals)
    {calls : List AppendCall} (h : b.Wrote schema vals k) (h32 : b.size < 2 ^ 32)
    (hlen : k + calls.length = schema.length)
    (hcalls : ∀ (i : Nat) (call : AppendCall), calls[i]? = some call →
      vals[k + i]? = some call.value ∧
        ∀ type, schema[k + i]? = some type → call.Suits type) :
    ∃ b', b.appendAll calls = some b' ∧ b'.size = b.size ∧ b'.Wrote schema vals schema.length := by
  induction calls generalizing b k with
  | nil =>
    obtain rfl : k = schema.length := hlen
    exact ⟨b, rfl, rfl, h⟩
  | cons call calls ih =>
    rw [length_cons] at hlen
    have hk : k < schema.length := by omega
    have htype : schema[k]? = some schema[k] := getElem?_eq_getElem hk
    obtain ⟨hval, hsuits⟩ := hcalls 0 call rfl
    obtain ⟨b1, hrun, hsize, hb1⟩ := h.append hcols h32 htyped htype hval (hsuits _ htype)
    obtain ⟨b', hrest, hsize', hb'⟩ := ih hb1 (by rw [hsize]; exact h32) (by omega)
      fun i call hcall => by
        have := hcalls (i + 1) call (by simpa using hcall)
        rwa [show k + (i + 1) = k + 1 + i by omega] at this
    refine ⟨b', ?_, hsize'.trans hsize, hb'⟩
    rw [RowBuilder.appendAll, hrun]
    exact hrest

/-- A complete row. -/
theorem encodedRow (htyped : Typed schema vals) (h : b.Wrote schema vals schema.length) :
    b.buf.length = b.size ∧ EncodedRow schema vals (getAddrLength b.buf.length) b.buf := by
  have hlen : b.buf.length = b.size := h.row.size_eq.trans h.size_eq.symm
  rw [hlen, ← h.strAddrLength_eq]
  exact ⟨rfl, h.row.encodedRow htyped⟩

end RowBuilder.Wrote

end Builder

/-! ### Dates -/

/-- The code of a date that `AppendDate` takes. -/
theorem toNat_dateCode {year month day} (hy : 1900 ≤ year ∧ year ≤ 9999)
    (hm : 1 ≤ month ∧ month ≤ 12) (hd : 1 ≤ day ∧ day ≤ 31) :
    ((dateCode year month day).toNat : Int) = (year - 1900) * 2 ^ 16 + (month - 1) * 2 ^ 8 + day := by
  obtain ⟨y, hy'⟩ : ∃ y : Nat, year - 1900 = y := ⟨_, (Int.toNat_of_nonneg (by omega)).symm⟩
  obtain ⟨m, hm'⟩ : ∃ m : Nat, month - 1 = m := ⟨_, (Int.toNat_of_nonneg (by omega)).symm⟩
  obtain ⟨d, hd'⟩ : ∃ d : Nat, day = d := ⟨_, (Int.toNat_of_nonneg (by omega)).symm⟩
  have hor : y <<< 16 ||| m <<< 8 ||| d = y * 2 ^ 16 + m * 2 ^ 8 + d := by
    rw [← Nat.shiftLeft_add_eq_or_of_lt (show m <<< 8 < 2 ^ 16 by rw [Nat.shiftLeft_eq]; omega),
      Nat.shiftLeft_eq, Nat.shiftLeft_eq, show y * 2 ^ 16 + m * 2 ^ 8 = (y * 2 ^ 8 + m) * 2 ^ 8 by ring,
      ← Nat.shiftLeft_eq, ← Nat.shiftLeft_add_eq_or_of_lt (show d < 2 ^ 8 by omega)]
  unfold dateCode
  rw [hy', hm', hd', BitVec.ofInt_natCast, BitVec.ofInt_natCast, BitVec.ofInt_natCast,
    BitVec.toNat_or, BitVec.toNat_or, BitVec.toNat_shiftLeft, BitVec.toNat_shiftLeft,
    BitVec.toNat_ofNat, BitVec.toNat_ofNat, BitVec.toNat_ofNat,
    Nat.mod_eq_of_lt (show y < 2 ^ 32 by omega), Nat.mod_eq_of_lt (show m < 2 ^ 32 by omega),
    Nat.mod_eq_of_lt (show d < 2 ^ 32 by omega),
    Nat.mod_eq_of_lt (show y <<< 16 < 2 ^ 32 by rw [Nat.shiftLeft_eq]; omega),
    Nat.mod_eq_of_lt (show m <<< 8 < 2 ^ 32 by rw [Nat.shiftLeft_eq]; omega), hor]
  push_cast
  ring

/-- `Date::Decode` gives the date back. -/
theorem dateDecode_dateCode {year month day} (hy : 1900 ≤ year ∧ year ≤ 9999)
    (hm : 1 ≤ month ∧ month ≤ 12) (hd : 1 ≤ day ∧ day ≤ 31) :
    dateDecode (dateCode year month day) = some (year, month, day) := by
  have hcode := toNat_dateCode hy hm hd
  have hpos : ¬ (dateCode year month day).toInt < 0 := by
    rw [BitVec.toInt_eq_toNat_cond]
    omega
  unfold dateDecode
  rw [if_neg hpos]
  simp only [Option.some.injEq, Prod.mk.injEq]
  omega

/-! ### The round trip -/

/-- The calls suit the columns, one by one. -/
structure SuitedCalls (schema : Schema) (calls : List AppendCall) : Prop where
  length_eq : calls.length = schema.length
  suits : ∀ (i : Nat) (type : ColumnType) (call : AppendCall), schema[i]? = some type →
    calls[i]? = some call → call.Suits type

/-- The bytes of all strings. -/
def stringBytes (calls : List AppendCall) : Nat :=
  (calls.map fun call => call.value.strLength).sum

/-- The view reports what the call appended to column `i`: NULL exactly for
`AppendNULL`, otherwise the value, by the typed getter and by the row-pointer
getter; a date also as year, month and day. -/
structure ReadsBack (view : RowView) (row : List Byte) (i : Nat) (type : ColumnType)
    (call : AppendCall) : Prop where
  isNull : isNullAt row i = some (decide (call = .null))
  get : view.get type i = some call.value.fetch
  getByRow : view.getByRow row type i = some call.value.fetch
  getDate : ∀ year month day, call = .date year month day →
    view.getDate i = some (.ok (some (year, month, day)))

theorem AppendCall.Suits.hasType {call : AppendCall} {type} (h : call.Suits type) :
    call.value.HasType type := by
  cases call with
  | date year month day => exact h.1
  | _ => exact h

theorem AppendCall.value_eq_null_iff (call : AppendCall) : call.value = .null ↔ call = .null := by
  cases call <;> simp [AppendCall.value]

section RoundTrip

variable {schema : Schema} {calls : List AppendCall}

theorem SuitedCalls.typed (h : SuitedCalls schema calls) :
    Typed schema (calls.map AppendCall.value) where
  length_eq := by rw [length_map, h.length_eq]
  hasType i type val htype hval := by
    rw [getElem?_map, map_eq_some_iff] at hval
    obtain ⟨call, hcall, rfl⟩ := hval
    exact (h.suits i type call htype hcall).hasType

/-- An encoded row of the appended values reads back. -/
theorem EncodedRow.readsBack (h : SuitedCalls schema calls) {row}
    (hrow : EncodedRow schema (calls.map AppendCall.value) (getAddrLength row.length) row)
    (hcols : schema.length < 2 ^ 31) (h32 : row.length < 2 ^ 32) {i type call}
    (htype : schema[i]? = some type) (hcall : calls[i]? = some call) :
    ReadsBack (RowView.over schema row) row i type call := by
  have hval : (calls.map AppendCall.value)[i]? = some call.value := by
    rw [getElem?_map, hcall]
    rfl
  refine ⟨?_, RowView.get_eq hrow hcols h32 htype hval,
    RowView.getByRow_eq hrow hcols h32 htype hval, ?_⟩
  · rw [hrow.null i _ hval]
    exact congrArg some (decide_eq_decide.mpr call.value_eq_null_iff)
  · rintro year month day rfl
    obtain ⟨rfl, hy1, hy2, hm1, hm2, hd1, hd2⟩ := h.suits i type _ htype hcall
    unfold RowView.getDate
    rw [RowView.getFixed_eq_readColumn hcols htype (nomatch ·),
      hrow.readColumn_eq h32 htype hval]
    exact congrArg (fun date => some (Fetch.ok date))
      (dateDecode_dateCode ⟨hy1, hy2⟩ ⟨hm1, hm2⟩ ⟨hd1, hd2⟩)

/-- A run over a buffer of the size that `CalTotalLength` gives leaves an encoded
row. -/
theorem SuitedCalls.encodes (h : SuitedCalls schema calls) (hcols : schema.length < 2 ^ 31)
    (hne : schema ≠ []) (hno : NoOverflow schema (stringBytes calls)) {buf}
    (hbuf : buf.length = (RowBuilder.new schema).calTotalLength (stringBytes calls)) :
    ∃ b b', (RowBuilder.new schema).setBuffer buf buf.length = some (true, b) ∧
      b.appendAll calls = some b' ∧ b'.buf.length = buf.length ∧ b'.buf.length < 2 ^ 32 ∧
      EncodedRow schema (calls.map AppendCall.value) (getAddrLength b'.buf.length) b'.buf := by
  obtain ⟨hsize, h32⟩ := calTotalLength_eq hne hno
  rw [← hbuf] at hsize h32
  have hrow : buf.length =
      rowSize schema (calls.map AppendCall.value) (getAddrLength buf.length) := by
    unfold rowSize
    rw [List.map_map]
    exact hsize
  obtain ⟨b, hset, hbsize, hb⟩ := RowBuilder.wrote_setBuffer hrow h32
  obtain ⟨b', hrun, hsize', hb'⟩ := hb.appendAll hcols h.typed (by omega)
    (by rw [Nat.zero_add, h.length_eq]) fun i call hcall => by
      rw [Nat.zero_add, getElem?_map, hcall]
      exact ⟨rfl, fun type htype => h.suits i type call htype hcall⟩
  obtain ⟨hlen, henc⟩ := hb'.encodedRow h.typed
  exact ⟨b, b', hset, hrun, by omega, by omega, henc⟩

/-- **Row codec round trip.** For every schema and calls that suit it, with any
bytes in a buffer of the size that `CalTotalLength` gives: `SetBuffer` accepts
the buffer (unless the schema is empty), every call succeeds without leaving the
buffer, and a `RowView` over the buffer reads every column back. -/
theorem rowBuilder_rowView_roundTrip (hcols : schema.length < 2 ^ 31)
    (hcalls : SuitedCalls schema calls) (hno : NoOverflow schema (stringBytes calls))
    (buf : List Byte)
    (hbuf : buf.length = (RowBuilder.new schema).calTotalLength (stringBytes calls)) :
    ∃ ok b b' view, (RowBuilder.new schema).setBuffer buf buf.length = some (ok, b) ∧
      (schema ≠ [] → ok = true) ∧ b.appendAll calls = some b' ∧
      RowView.ofRow schema b'.buf buf.length = some view ∧
      ∀ (i : Nat) (type : ColumnType) (call : AppendCall), schema[i]? = some type →
        calls[i]? = some call → ReadsBack view b'.buf i type call := by
  by_cases hne : schema = []
  · -- there is no row: the size is zero and there is nothing to append
    subst hne
    obtain rfl : calls = [] := length_eq_zero_iff.mp hcalls.length_eq
    exact ⟨false, _, _, _, if_pos (Or.inl hbuf), fun h => absurd rfl h, rfl, rfl, by simp⟩
  · obtain ⟨b, b', hset, hrun, hlen, h32, henc⟩ := hcalls.encodes hcols hne hno hbuf
    refine ⟨true, b, b', RowView.over schema b'.buf, hset, fun _ => rfl, hrun, ?_,
      fun i type call htype hcall => henc.readsBack hcalls hcols h32 htype hcall⟩
    rw [← hlen]
    exact RowView.ofRow_eq henc hne h32

end RoundTrip

/-- A schema with strings between fixed-length columns, and calls for it. -/
def mixedSchema : Schema := [.kInt32, .kVarchar, .kVarchar, .kDate]
def mixedCalls : List AppendCall := [.int32 7#32, .null, .string [97#8, 98#8], .date 2020 5 22]

theorem suitedCalls_mixed : SuitedCalls mixedSchema mixedCalls := by
  refine ⟨rfl, fun i type call htype hcall => ?_⟩
  obtain _ | _ | _ | _ | i := i
  · cases htype; cases hcall; exact rfl
  · cases htype; cases hcall; exact trivial
  · cases htype; cases hcall; exact rfl
  · cases htype; cases hcall; exact ⟨rfl, by decide⟩
  · cases htype

/-- The round trip of a row with a NULL, a string and a date. -/
theorem rowBuilder_rowView_roundTrip_mixed :
    ∃ ok b b' view,
      (RowBuilder.new mixedSchema).setBuffer (List.replicate 19 0#8) 19 = some (ok, b) ∧
      (mixedSchema ≠ [] → ok = true) ∧ b.appendAll mixedCalls = some b' ∧
      RowView.ofRow mixedSchema b'.buf 19 = some view ∧
      ∀ (i : Nat) (type : ColumnType) (call : AppendCall), mixedSchema[i]? = some type →
        mixedCalls[i]? = some call → ReadsBack view b'.buf i type call := by
  exact rowBuilder_rowView_roundTrip (by decide) suitedCalls_mixed (by unfold NoOverflow; decide)
    (List.replicate 19 0#8) rfl

end HybridSE.Codec
