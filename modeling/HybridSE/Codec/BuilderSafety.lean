import HybridSE.Codec.EncodedRow
import HybridSE.Codec.RowBuilder

/-!
# HybridSE.Codec.BuilderSafety

Which sequences of calls a `RowBuilder` survives, whatever they are.

A builder stands at a `Position`: the column it has come to and where the next string goes. A
call is `Admissible` there if it suits the column and its string has room, and then it should
succeed; every other call should return false and change nothing. `append_spec` says that this is
so unless the call is not `Harmless`: `AppendNULL` does not look whether there is a column left,
or whether the buffer has room for the address, and `AppendString` adds up lengths in 32 bits.
-/

namespace HybridSE.Codec

open HybridSE.Lib List Option

/-- How far a builder has come. -/
structure Position where
  cnt : Nat
  strOffset : Nat

section Calls

variable (schema : Schema) (size : Nat)

/-- The call suits the column, and a string ends inside the buffer. -/
def Admissible (p : Position) (call : AppendCall) : Prop :=
  (∃ type, schema[p.cnt]? = some type ∧ call.Suits type) ∧
    ∀ val, call = .string val → p.strOffset + val.length ≤ size

/-- The call does no harm. A NULL needs a column and, if that is a string, room for its address;
a string that has no room must still be too long when its end is taken modulo `2 ^ 32`. -/
def Harmless (p : Position) : AppendCall → Prop
  | .null => ∃ type, schema[p.cnt]? = some type ∧ (type = .kVarchar →
      strStart schema + getAddrLength size * (strIndex schema p.cnt + 1) ≤ size)
  | .string val => schema[p.cnt]? = some .kVarchar →
      p.strOffset + val.length ≤ size ∨ size < toUInt32 (p.strOffset + val.length)
  | _ => True

/-- The position after a call that succeeds. -/
def Position.next (p : Position) (call : AppendCall) : Position :=
  ⟨p.cnt + 1, p.strOffset + call.value.strLength⟩

/-- All calls of a sequence are harmless where they are made. -/
def HarmlessRun (p : Position) : List AppendCall → Prop
  | [] => True
  | call :: calls => Harmless schema size p call ∧
      (Admissible schema size p call → HarmlessRun (p.next call) calls) ∧
      (¬ Admissible schema size p call → HarmlessRun p calls)

/-- The calls stay inside the buffer, exactly the admissible ones succeed, and those that fail
change nothing. -/
def SafeRun (b : RowBuilder) : List AppendCall → Prop
  | [] => True
  | call :: calls => ∃ ok b', b.append call = some (ok, b') ∧
      (ok = true ↔ Admissible schema size ⟨b.cnt, b.strOffset⟩ call) ∧
      (ok = false → b' = b) ∧ SafeRun b' calls

end Calls

/-- The builder of a schema with a buffer, at a position. -/
structure RowBuilder.At (schema : Schema) (size : Nat) (b : RowBuilder) (p : Position) : Prop where
  schema_eq : b.schema = schema
  length_buf : b.buf.length = size
  size_eq : b.size = size
  offsetVec_eq : b.offsetVec = (layoutLoop (fixedStart schema) schema).offsetVec
  start_eq : b.strFieldStartOffset = strStart schema
  addr_eq : b.strAddrLength = getAddrLength size
  cnt_eq : b.cnt = p.cnt
  strOffset_eq : b.strOffset = p.strOffset
  cnt_le : p.cnt ≤ schema.length
  strOffset_lt : p.strOffset < 2 ^ 32
  strings_le : strStart schema + getAddrLength size * strCount schema ≤ p.strOffset

section Append

variable {schema : Schema} {size : Nat} {b : RowBuilder} {p : Position}

/-- The limits: the schema fits into 32 bits, and the buffer into the checks of `SetBuffer`. -/
structure Limits (schema : Schema) (size : Nat) : Prop where
  columns_lt : schema.length < 2 ^ 31
  noOverflow : NoOverflow schema 0
  size_lt : size < 2 ^ 32
  fixed_le : strStart schema + strCount schema ≤ size

/-- What a call that does no harm comes to. -/
structure Outcome (schema : Schema) (size : Nat) (b : RowBuilder) (p : Position)
    (call : AppendCall) (ok : Bool) (b' : RowBuilder) : Prop where
  ok_iff : ok = true ↔ Admissible schema size p call
  unchanged : ok = false → b' = b
  next : ok = true → b'.At schema size (p.next call)

variable (hl : Limits schema size) (h : b.At schema size p)
include hl h

namespace RowBuilder.At

theorem check_eq (type : ColumnType) :
    b.check type = some (decide (schema[p.cnt]? = some type)) := by
  have hcnt := h.cnt_le
  have hcols := hl.columns_lt
  unfold RowBuilder.check
  rw [h.schema_eq, h.cnt_eq, toInt32_of_lt (by omega)]
  by_cases hlt : p.cnt < schema.length
  · rw [if_neg (by omega), getElem?_eq_getElem hlt]
    simp
  · rw [if_pos (by omega), getElem?_eq_none (by omega)]
    simp

theorem offset_eq {type} (htype : schema[p.cnt]? = some type) :
    b.offsetVec[b.cnt]? =
      some (if type = .kVarchar then strIndex schema p.cnt else fieldOffset schema p.cnt) := by
  rw [h.offsetVec_eq, h.cnt_eq]
  exact layoutLoop_offsetVec hl.noOverflow.strStart_lt htype

/-- The address of a string column, if there is room for it. -/
theorem fillStringOffset_eq (buf : List Byte) (htype : schema[p.cnt]? = some .kVarchar) :
    RowBuilder.fillStringOffset buf b.strFieldStartOffset b.strAddrLength (strIndex schema p.cnt)
        b.strOffset =
      store buf (strStart schema + getAddrLength size * strIndex schema p.cnt)
        (addrBytes (getAddrLength size) p.strOffset) := by
  have hidx := strIndex_lt htype
  have hover := hl.noOverflow
  have hmul := Nat.mul_le_mul (getAddrLength_bounds size).2 (Nat.le_of_succ_le hidx)
  unfold NoOverflow at hover
  unfold RowBuilder.fillStringOffset
  rw [h.start_eq, h.addr_eq, h.strOffset_eq, toUInt32_of_lt (by omega)]

end RowBuilder.At

omit hl h in
theorem outcome_false {call} (hnot : ¬ Admissible schema size p call) :
    Outcome schema size b p call false b :=
  ⟨iff_of_false Bool.false_ne_true hnot, fun _ => rfl, fun hok => Bool.noConfusion hok⟩

theorem outcome_true {call buf strOffset} (hadm : Admissible schema size p call)
    (hbuf : buf.length = size) (hoffset : strOffset = p.strOffset + call.value.strLength) :
    Outcome schema size b p call true
      { b with buf := buf, strOffset := strOffset, cnt := toUInt32 (b.cnt + 1) } := by
  obtain ⟨type, htype, -⟩ := hadm.1
  have hlt := (List.getElem?_eq_some_iff.mp htype).1
  have hcols := hl.columns_lt
  have hend : p.strOffset + call.value.strLength < 2 ^ 32 := by
    cases call with
    | string val => exact Nat.lt_of_le_of_lt (hadm.2 val rfl) hl.size_lt
    | _ => exact h.strOffset_lt
  refine ⟨iff_of_true rfl hadm, fun hok => Bool.noConfusion hok, fun _ => ?_⟩
  exact
    { h with
      length_buf := hbuf
      cnt_eq := by rw [h.cnt_eq]; exact toUInt32_of_lt (by omega)
      strOffset_eq := hoffset
      cnt_le := hlt
      strOffset_lt := hend
      strings_le := Nat.le_trans h.strings_le (Nat.le_add_right _ _) }

/-- The append functions of the fixed-length types. -/
theorem RowBuilder.At.appendFixed {call} (type : ColumnType)
    (happend : b.append call = b.appendFixed type call.value) (hne : type ≠ .kVarchar)
    (htyped : call.value.HasType type) (hnull : call.value ≠ .null)
    (hstring : call.value.strLength = 0) (hcall : ∀ val, call ≠ .string val)
    (hsuits : ∀ type', call.Suits type' ↔ type' = type) :
    ∃ ok b', b.append call = some (ok, b') ∧ Outcome schema size b p call ok b' := by
  have hadm : Admissible schema size p call ↔ schema[p.cnt]? = some type := by
    refine ⟨fun hadm => ?_, fun htype => ⟨⟨type, htype, (hsuits type).mpr rfl⟩, fun val hval =>
      absurd hval (hcall val)⟩⟩
    obtain ⟨type', htype', hsuit⟩ := hadm.1
    rwa [(hsuits type').mp hsuit] at htype'
  rw [happend]
  unfold RowBuilder.appendFixed
  by_cases htype : schema[p.cnt]? = some type
  · have hroom : fieldOffset schema p.cnt + call.value.fixedBytes.length ≤ b.buf.length := by
      have hsum := prefixSum_add_le fixedWidth htype (List.getElem?_eq_some_iff.mp htype).1
      have hle := hl.fixed_le
      rw [prefixSum_length] at hsum
      rw [h.length_buf, Value.length_fixedBytes htyped hnull]
      unfold fieldOffset
      unfold strStart at hle
      omega
    obtain ⟨buf, hbuf⟩ := exists_store hroom
    refine ⟨true, _, ?_, outcome_true hl h (hadm.mpr htype)
      ((length_store hbuf).trans h.length_buf) (by rw [hstring])⟩
    simp [h.check_eq hl, htype, h.offset_eq hl htype, hne, hbuf, ← h.strOffset_eq]
  · exact ⟨false, b, by simp [h.check_eq hl, htype], outcome_false (mt hadm.mp htype)⟩

/-- `AppendNULL` with a column and room for the address. -/
theorem RowBuilder.At.appendNULL (hharm : Harmless schema size p .null) :
    ∃ ok b', b.appendNULL = some (ok, b') ∧ Outcome schema size b p .null ok b' := by
  obtain ⟨type, htype, haddr⟩ := hharm
  have hlt := (List.getElem?_eq_some_iff.mp htype).1
  have hbit : headerLength + p.cnt / 8 < b.buf.length := by
    have hle := hl.fixed_le
    rw [h.length_buf]
    unfold strStart fixedStart bitMapSize at hle
    split at hle <;> omega
  have hstore : headerLength + p.cnt / 8 +
      [b.buf[headerLength + p.cnt / 8] ||| (1#8 <<< (p.cnt % 8))].length ≤ b.buf.length := hbit
  obtain ⟨buf, hbuf⟩ := exists_store hstore
  have hlen := (length_store hbuf).trans h.length_buf
  have hoffset : ∃ buf', b.appendNullOffset buf type = some buf' ∧ buf'.length = size := by
    unfold RowBuilder.appendNullOffset
    by_cases hstr : type = .kVarchar
    · subst hstr
      have hroom : strStart schema + getAddrLength size * strIndex schema p.cnt +
          (addrBytes (getAddrLength size) p.strOffset).length ≤ buf.length := by
        rw [length_addrBytes (getAddrLength_bounds size), hlen, Nat.add_assoc]
        exact haddr rfl
      obtain ⟨buf', hbuf'⟩ := exists_store hroom
      refine ⟨buf', ?_, (length_store hbuf').trans hlen⟩
      simp [h.offset_eq hl htype, h.fillStringOffset_eq hl buf htype, hbuf']
    · exact ⟨buf, by simp [hstr], hlen⟩
  obtain ⟨buf', hbuf', hlen'⟩ := hoffset
  refine ⟨true, _, ?_, outcome_true hl h ⟨⟨type, htype, trivial⟩, fun val hval => ?_⟩ hlen' rfl⟩
  · unfold RowBuilder.appendNULL
    rw [h.schema_eq, h.cnt_eq, getElem?_eq_getElem hbit]
    simp [hbuf, htype, hbuf', ← h.strOffset_eq, AppendCall.value, Value.strLength]
  · cases hval

/-- `AppendNULL` without. -/
theorem RowBuilder.At.appendNULL_eq_none (hharm : ¬ Harmless schema size p .null) :
    b.appendNULL = none := by
  unfold RowBuilder.appendNULL
  rw [h.schema_eq, h.cnt_eq]
  cases htype : schema[p.cnt]? with
  | none => simp
  | some type =>
    obtain ⟨rfl, hout⟩ := Classical.not_imp.mp fun hroom => hharm ⟨type, htype, hroom⟩
    have hfill : ∀ buf, buf.length = b.buf.length → b.appendNullOffset buf .kVarchar = none := by
      intro buf hlen
      unfold RowBuilder.appendNullOffset
      simp only [if_true, h.offset_eq hl htype, bind_eq_bind, bind_some,
        h.fillStringOffset_eq hl buf htype]
      refine if_neg fun hroom => hout ?_
      rwa [length_addrBytes (getAddrLength_bounds size), hlen, h.length_buf, Nat.add_assoc] at hroom
    simp only [bind_eq_bind, bind_some, bind_eq_none_iff]
    intro byte _ buf hbuf buf' hbuf'
    rw [hfill buf (length_store hbuf)] at hbuf'
    cases hbuf'

/-- `AppendString`. -/
theorem RowBuilder.At.appendString (val : List Byte) (hharm : Harmless schema size p (.string val)) :
    ∃ ok b', b.appendString val = some (ok, b') ∧ Outcome schema size b p (.string val) ok b' := by
  unfold RowBuilder.appendString
  by_cases htype : schema[p.cnt]? = some .kVarchar
  · rcases hharm htype with hroom | hlong
    · have hlt := hl.size_lt
      have hslot : strStart schema + getAddrLength size * strIndex schema p.cnt +
          (addrBytes (getAddrLength size) p.strOffset).length ≤ b.buf.length := by
        have hmul := Nat.mul_le_mul_left (getAddrLength size) (strIndex_lt htype)
        have hle := h.strings_le
        rw [length_addrBytes (getAddrLength_bounds size), h.length_buf]
        rw [Nat.mul_add] at hmul
        omega
      obtain ⟨buf, hbuf⟩ := exists_store hslot
      have hbody : p.strOffset + val.length ≤ buf.length := by
        rwa [length_store hbuf, h.length_buf]
      obtain ⟨buf', hbuf'⟩ := exists_store hbody
      have hfill := (h.fillStringOffset_eq hl b.buf htype).trans hbuf
      have hcopy : RowBuilder.copyString buf b.strOffset val = some buf' := by
        rw [h.strOffset_eq]
        exact RowBuilder.copyString_eq hbuf'
      have hend : toUInt32 (b.strOffset + val.length) = p.strOffset + val.length := by
        rw [h.strOffset_eq]
        exact toUInt32_of_lt (Nat.lt_of_le_of_lt hroom hlt)
      refine ⟨true, _, ?_, outcome_true hl h ⟨⟨_, htype, rfl⟩, fun val' hval' => ?_⟩
        ((length_store hbuf').trans ((length_store hbuf).trans h.length_buf)) rfl⟩
      · simp [h.check_eq hl, htype, h.offset_eq hl htype, h.size_eq, hend, Nat.not_lt.mpr hroom,
          hfill, hcopy, AppendCall.value, Value.strLength]
      · cases hval'
        exact hroom
    · refine ⟨false, b, ?_, outcome_false fun hadm => ?_⟩
      · simp [h.check_eq hl, htype, h.size_eq, h.strOffset_eq, hlong]
      · have hroom := hadm.2 val rfl
        have hle := Nat.mod_le (p.strOffset + val.length) (2 ^ 32)
        unfold toUInt32 at hlong
        omega
  · refine ⟨false, b, by simp [h.check_eq hl, htype], outcome_false ?_⟩
    rintro ⟨⟨type, htype', rfl⟩, -⟩
    exact htype htype'

theorem RowBuilder.At.appendString_eq_none {val} (hharm : ¬ Harmless schema size p (.string val)) :
    b.appendString val = none := by
  obtain ⟨htype, hout⟩ := Classical.not_imp.mp hharm
  obtain ⟨hroom, hlong⟩ := not_or.mp hout
  have hcopy : ∀ buf, buf.length = b.buf.length →
      RowBuilder.copyString buf p.strOffset val = none := by
    intro buf hlen
    have hsize : ¬ p.strOffset + val.length ≤ buf.length := by rwa [hlen, h.length_buf]
    unfold RowBuilder.copyString
    by_cases hval : val.length = 0
    · have hlt := h.strOffset_lt
      unfold toUInt32 at hlong
      omega
    · rw [if_pos hval]
      exact if_neg hsize
  unfold RowBuilder.appendString
  simp only [h.check_eq hl, htype, h.offset_eq hl htype, h.size_eq, h.strOffset_eq, hlong,
    bind_eq_bind, bind_some, decide_true, Bool.not_true, Bool.false_eq_true, if_true, if_false,
    bind_eq_none_iff]
  intro buf hbuf buf' hbuf'
  rw [hcopy buf (length_store hbuf)] at hbuf'
  cases hbuf'

/-- A call that does no harm. -/
theorem RowBuilder.At.append {call} (hharm : Harmless schema size p call) :
    ∃ ok b', b.append call = some (ok, b') ∧ Outcome schema size b p call ok b' := by
  cases call with
  | null => exact h.appendNULL hl hharm
  | string val => exact h.appendString hl val hharm
  | date year month day =>
    by_cases hdate : 1900 ≤ year ∧ year ≤ 9999 ∧ 1 ≤ month ∧ month ≤ 12 ∧ 1 ≤ day ∧ day ≤ 31
    · refine h.appendFixed hl .kDate ?_ nofun rfl nofun rfl nofun fun _ => and_iff_left hdate
      show b.appendDate year month day = _
      unfold RowBuilder.appendDate
      rw [if_neg (by omega), if_neg (by omega), if_neg (by omega)]
      rfl
    · refine ⟨false, b, ?_, outcome_false fun hadm => ?_⟩
      · show b.appendDate year month day = _
        unfold RowBuilder.appendDate
        split_ifs <;> first | omega | rfl
      · obtain ⟨type, -, hsuit⟩ := hadm.1
        exact hdate hsuit.2
  | bool val => exact h.appendFixed hl .kBool rfl nofun rfl nofun rfl nofun fun _ => Iff.rfl
  | int16 val => exact h.appendFixed hl .kInt16 rfl nofun rfl nofun rfl nofun fun _ => Iff.rfl
  | int32 val => exact h.appendFixed hl .kInt32 rfl nofun rfl nofun rfl nofun fun _ => Iff.rfl
  | int64 val => exact h.appendFixed hl .kInt64 rfl nofun rfl nofun rfl nofun fun _ => Iff.rfl
  | float val => exact h.appendFixed hl .kFloat rfl nofun rfl nofun rfl nofun fun _ => Iff.rfl
  | double val => exact h.appendFixed hl .kDouble rfl nofun rfl nofun rfl nofun fun _ => Iff.rfl
  | timestamp val =>
    exact h.appendFixed hl .kTimestamp rfl nofun rfl nofun rfl nofun fun _ => Iff.rfl

theorem RowBuilder.At.append_eq_none {call} (hharm : ¬ Harmless schema size p call) :
    b.append call = none := by
  cases call with
  | null => exact h.appendNULL_eq_none hl hharm
  | string val => exact h.appendString_eq_none hl hharm
  | _ => exact absurd trivial hharm

end Append

theorem safeRun_iff_harmlessRun {schema size} (hl : Limits schema size) (calls : List AppendCall)
    {b p} (h : b.At schema size p) :
    SafeRun schema size b calls ↔ HarmlessRun schema size p calls := by
  induction calls generalizing b p with
  | nil => exact Iff.rfl
  | cons call calls ih =>
    have hpos : (⟨b.cnt, b.strOffset⟩ : Position) = p := by rw [h.cnt_eq, h.strOffset_eq]
    unfold SafeRun HarmlessRun
    rw [hpos]
    by_cases hharm : Harmless schema size p call
    · obtain ⟨ok, b', happend, hout⟩ := h.append hl hharm
      rw [and_iff_right hharm, happend]
      cases ok with
      | true =>
        have hadm := hout.ok_iff.mp rfl
        simp [hadm, ih (hout.next rfl)]
      | false =>
        have hadm : ¬ Admissible schema size p call := fun hadm =>
          Bool.noConfusion (hout.ok_iff.mpr hadm)
        obtain rfl := hout.unchanged rfl
        simp [hadm, ih h]
    · simp [h.append_eq_none hl hharm, hharm]

/-- The calls after a successful `SetBuffer` stay inside the buffer, succeed where they should and
change nothing where they fail exactly if each of them is harmless where it is made. -/
theorem rowBuilder_safe_iff {schema : Schema} {size : Nat} {buf : List Byte} {b : RowBuilder}
    (hcols : schema.length < 2 ^ 31) (hover : NoOverflow schema 0) (hbuf : buf.length = size)
    (hsize : size < 2 ^ 32) (hset : (RowBuilder.new schema).setBuffer buf size = some (true, b))
    (calls : List AppendCall) :
    SafeRun schema size b calls ↔ HarmlessRun schema size
      ⟨0, strStart schema + getAddrLength size * strCount schema⟩ calls := by
  have hstart : (RowBuilder.new schema).strFieldStartOffset = strStart schema :=
    layoutLoop_strFieldStartOffset hover.strStart_lt
  have hcnt : (RowBuilder.new schema).strFieldCnt = strCount schema :=
    layoutLoop_strFieldCnt schema _
  have hmul := Nat.mul_le_mul_right (strCount schema) (getAddrLength_bounds size).2
  unfold NoOverflow at hover
  unfold RowBuilder.setBuffer at hset
  rw [hstart, hcnt, toUInt32_of_lt (by omega)] at hset
  split at hset
  · cases hset
  · next hroom =>
    obtain ⟨hpos, hroom⟩ := not_or.mp hroom
    obtain ⟨buf₁, h₁, hset⟩ := bind_eq_some_iff.mp hset
    obtain ⟨buf₂, h₂, hset⟩ := bind_eq_some_iff.mp hset
    obtain ⟨buf₃, h₃, hset⟩ := bind_eq_some_iff.mp hset
    obtain ⟨buf₄, h₄, hset⟩ := bind_eq_some_iff.mp hset
    cases hset
    have hlen : buf₄.length = size := by
      rw [length_store h₄, length_store h₃, length_store h₂, length_store h₁, hbuf]
    refine safeRun_iff_harmlessRun ⟨hcols, hover, hsize, Nat.not_lt.mp hroom⟩ calls ?_
    exact
      { schema_eq := rfl, length_buf := hlen, size_eq := rfl, offsetVec_eq := rfl
        start_eq := rfl, addr_eq := rfl, cnt_eq := rfl, cnt_le := Nat.zero_le _
        strOffset_eq := by
          show toUInt32 (strStart schema + toUInt32 (getAddrLength size * strCount schema)) = _
          rw [toUInt32_of_lt (show getAddrLength size * strCount schema < _ by omega)]
          exact toUInt32_of_lt (by omega)
        strOffset_lt := by show strStart schema + getAddrLength size * strCount schema < _; omega
        strings_le := Nat.le_refl _ }

/-- A value, and a call of a type that the column does not have. -/
theorem rowBuilder_safe_mismatch :
    ∃ b, (RowBuilder.new [.kInt32, .kInt32]).setBuffer (replicate 15 0#8) 15 = some (true, b) ∧
      SafeRun [.kInt32, .kInt32] 15 b [.int32 7#32, .bool true] := by
  have hover : NoOverflow [.kInt32, .kInt32] 0 := by unfold NoOverflow; decide
  have hbuf : (replicate 15 0#8).length = 15 := rfl
  refine ⟨_, rfl, (rowBuilder_safe_iff (by decide) hover hbuf (by decide) rfl _).mpr ?_⟩
  have hbool : ∀ p, HarmlessRun [.kInt32, .kInt32] 15 p [.bool true] :=
    fun p => ⟨trivial, fun _ => trivial, fun _ => trivial⟩
  exact ⟨trivial, fun _ => hbool _, fun _ => hbool _⟩

/-- The row is full, and `AppendNULL` looks for the next column. -/
theorem not_safeRun_null :
    ∃ b, (RowBuilder.new [.kBool]).setBuffer (replicate 8 0#8) 8 = some (true, b) ∧
      ¬ SafeRun [.kBool] 8 b [.bool true, .null] := by
  refine ⟨_, rfl, ?_⟩
  rintro ⟨ok, b', hbool, -, -, ok', b'', hnull, -⟩
  cases hbool
  cases hnull

end HybridSE.Codec
