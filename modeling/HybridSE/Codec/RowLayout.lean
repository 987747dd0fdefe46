import Mathlib.Data.List.Induction
import HybridSE.Lib.ByteBuffer
import HybridSE.Lib.Machine
import HybridSE.Lib.PrefixSum

/-!
# HybridSE.Codec.RowLayout

The default row format: column types and their sizes, the loop over a schema that
every component of `src/codec` runs to place the columns, address widths, and the
values of a row.

A row is a header (two version bytes and the size), a null bitmap, the
fixed-length columns, one address per string column and the string bodies. The
layout loop (`layoutLoop`) gives a fixed-length column its byte offset and a
string column its number among the string columns; `layoutLoop_offsetVec` says
where that is.
-/

namespace HybridSE.Codec

open HybridSE.Lib List Option

/-- The column types that the row format supports (`type::Type` of
`proto/fe_type.proto` without `kBlob` and `kNull`). -/
inductive ColumnType
  | kBool
  | kInt16
  | kInt32
  | kInt64
  | kFloat
  | kDouble
  | kVarchar
  | kDate
  | kTimestamp
  deriving DecidableEq, Repr

/-- `Schema`: only the types of the columns matter for the layout. -/
abbrev Schema := List ColumnType

/-- `VERSION_LENGTH` and `HEADER_LENGTH`. -/
def versionLength : Nat := 2
def headerLength : Nat := 6

/-- `BitMapSize`. -/
def bitMapSize (size : Nat) : Nat := size / 8 + if size % 8 = 0 then 0 else 1

/-- `DEFAULT_TYPE_SIZE_MAP`; a string column has no entry. -/
def typeSize : ColumnType → Option Nat
  | .kBool => some 1
  | .kInt16 => some 2
  | .kInt32 => some 4
  | .kFloat => some 4
  | .kInt64 => some 8
  | .kTimestamp => some 8
  | .kDate => some 4
  | .kDouble => some 8
  | .kVarchar => none

/-- `GetAddrLength`. -/
def getAddrLength (size : Nat) : Nat :=
  if size ≤ 255 then 1 else if size ≤ 65535 then 2 else if size ≤ 2 ^ 24 - 1 then 3 else 4

/-- `v1::GetAddrSpace`. -/
def getAddrSpace (size : Nat) : Nat :=
  if size ≤ 255 then 1 else if size ≤ 65535 then 2 else if size ≤ 2 ^ 24 then 3 else 4

/-! ### The layout loop -/

/-- The variables of the layout loop. -/
structure Layout where
  offsetVec : List Nat
  strFieldCnt : Nat
  strFieldStartOffset : Nat

/-- One round of the loop, by the size of the column; one without a size is a string. -/
def Layout.push (l : Layout) : Option Nat → Layout
  | none => { l with
      offsetVec := l.offsetVec ++ [l.strFieldCnt]
      strFieldCnt := l.strFieldCnt + 1 }
  | some size => { l with
      offsetVec := l.offsetVec ++ [l.strFieldStartOffset]
      strFieldStartOffset := toUInt32 (l.strFieldStartOffset + size) }

/-- Before the first column. -/
def Layout.empty (base : Nat) : Layout :=
  { offsetVec := [], strFieldCnt := 0, strFieldStartOffset := toUInt32 base }

/-- The loop over the schema, from the offset behind the bitmap. -/
def layoutLoop (base : Nat) (schema : Schema) : Layout :=
  schema.foldl (fun l type => l.push (typeSize type)) (Layout.empty base)

/-- The room that a column takes among the fixed-length columns. -/
def fixedWidth (type : ColumnType) : Nat := (typeSize type).getD 0

/-- The room that a column takes among the string columns. -/
def strWidth (type : ColumnType) : Nat := if type = .kVarchar then 1 else 0

/-- Where the fixed-length columns start. -/
def fixedStart (schema : Schema) : Nat := headerLength + bitMapSize schema.length

/-- Where the string addresses start. -/
def strStart (schema : Schema) : Nat := fixedStart schema + (schema.map fixedWidth).sum

/-- The number of string columns. -/
def strCount (schema : Schema) : Nat := (schema.map strWidth).sum

/-- The byte offset of a fixed-length column. -/
def fieldOffset (schema : Schema) (i : Nat) : Nat := fixedStart schema + prefixSum fixedWidth schema i

/-- The number of a string column among the string columns. -/
def strIndex (schema : Schema) (i : Nat) : Nat := prefixSum strWidth schema i

theorem typeSize_eq_none_iff {type} : typeSize type = none ↔ type = .kVarchar := by
  cases type <;> simp [typeSize]

/-- The room of a column of the size among the fixed-length ones, and among the strings. -/
def sizeRoom (size : Option Nat) : Nat := size.getD 0

def stringRoom (size : Option Nat) : Nat := if size = none then 1 else 0

theorem Layout.push_append (base : Nat) (sizes : List (Option Nat)) (size : Option Nat) :
    (sizes ++ [size]).foldl Layout.push (Layout.empty base) =
      (sizes.foldl Layout.push (Layout.empty base)).push size := by
  simp

/-- What the loop computes. -/
theorem Layout.foldl_push (base : Nat) (sizes : List (Option Nat)) :
    (sizes.foldl Layout.push (Layout.empty base)).offsetVec.length = sizes.length ∧
      (sizes.foldl Layout.push (Layout.empty base)).strFieldCnt = (sizes.map stringRoom).sum ∧
      (sizes.foldl Layout.push (Layout.empty base)).strFieldStartOffset =
        toUInt32 (base + (sizes.map sizeRoom).sum) ∧
      ∀ i size, sizes[i]? = some size →
        (sizes.foldl Layout.push (Layout.empty base)).offsetVec[i]? =
          some (if size = none then prefixSum stringRoom sizes i
            else toUInt32 (base + prefixSum sizeRoom sizes i)) := by
  induction sizes using List.reverseRecOn with
  | nil => exact ⟨rfl, rfl, rfl, fun i size h => by simp at h⟩
  | append_singleton sizes last ih =>
    obtain ⟨hlen, hcnt, hstart, hvec⟩ := ih
    -- the columns before the last one keep their places
    have hold : ∀ (x i : Nat) (size : Option Nat), i < sizes.length →
        (sizes ++ [last])[i]? = some size →
        ((sizes.foldl Layout.push (Layout.empty base)).offsetVec ++ [x])[i]? =
          some (if size = none then prefixSum stringRoom (sizes ++ [last]) i
            else toUInt32 (base + prefixSum sizeRoom (sizes ++ [last]) i)) := by
      intro x i size hi hsize
      rw [getElem?_append_left hi] at hsize
      rw [getElem?_append_left (by rwa [hlen]), prefixSum_append _ _ hi.le,
        prefixSum_append _ _ hi.le, hvec i size hsize]
    have hsplit : ∀ i size, (sizes ++ [last])[i]? = some size →
        i < sizes.length ∨ i = sizes.length ∧ size = last := by
      intro i size hsize
      rcases Nat.lt_trichotomy i sizes.length with hi | hi | hi
      · exact Or.inl hi
      · rw [hi, getElem?_concat_length] at hsize
        exact Or.inr ⟨hi, (Option.some.inj hsize).symm⟩
      · rw [getElem?_eq_none (by simp; omega)] at hsize
        cases hsize
    rw [Layout.push_append]
    cases last with
    | none =>
      refine ⟨by simp [Layout.push, hlen], by simp [Layout.push, hcnt, stringRoom], ?_,
        fun i size hsize => ?_⟩
      · simp [Layout.push, hstart, sizeRoom]
      · rcases hsplit i size hsize with hi | ⟨rfl, rfl⟩
        · exact hold _ i size hi hsize
        · rw [prefixSum_append _ _ (Nat.le_refl _), prefixSum_length, ← hlen]
          exact (getElem?_concat_length).trans (congrArg some hcnt)
    | some last =>
      refine ⟨by simp [Layout.push, hlen], by simp [Layout.push, hcnt, stringRoom], ?_,
        fun i size hsize => ?_⟩
      · simp [Layout.push, hstart, toUInt32_toUInt32_add, sizeRoom, Nat.add_assoc]
      · rcases hsplit i size hsize with hi | ⟨rfl, rfl⟩
        · exact hold _ i size hi hsize
        · rw [if_neg (some_ne_none last), prefixSum_append _ _ (Nat.le_refl _),
            prefixSum_length, ← hstart, ← hlen]
          exact getElem?_concat_length

theorem layoutLoop_eq_foldl_push (base : Nat) (schema : Schema) :
    layoutLoop base schema = (schema.map typeSize).foldl Layout.push (Layout.empty base) := by
  rw [foldl_map]
  rfl

theorem stringRoom_typeSize (type : ColumnType) : stringRoom (typeSize type) = strWidth type := by
  cases type <;> rfl

/-- What the loop over a schema computes. -/
theorem layoutLoop_spec (base : Nat) (schema : Schema) :
    (layoutLoop base schema).offsetVec.length = schema.length ∧
      (layoutLoop base schema).strFieldCnt = strCount schema ∧
      (layoutLoop base schema).strFieldStartOffset =
        toUInt32 (base + (schema.map fixedWidth).sum) ∧
      ∀ i type, schema[i]? = some type → (layoutLoop base schema).offsetVec[i]? =
        some (if type = .kVarchar then prefixSum strWidth schema i
          else toUInt32 (base + prefixSum fixedWidth schema i)) := by
  obtain ⟨hlen, hcnt, hstart, hvec⟩ := Layout.foldl_push base (schema.map typeSize)
  rw [← layoutLoop_eq_foldl_push] at hlen hcnt hstart hvec
  have hstring : stringRoom ∘ typeSize = strWidth := funext stringRoom_typeSize
  rw [List.map_map, hstring] at hcnt
  rw [List.map_map] at hstart
  rw [length_map] at hlen
  refine ⟨hlen, hcnt, hstart, fun i type htype => ?_⟩
  rw [hvec i (typeSize type) (by rw [getElem?_map, htype]; rfl), prefixSum_map, prefixSum_map,
    hstring]
  simp only [typeSize_eq_none_iff]
  rfl

/-- Under one bound on the row there is no wrap-around in the layout. -/
theorem layoutLoop_offsetVec {schema} (h : strStart schema < 2 ^ 32) {i type}
    (htype : schema[i]? = some type) :
    (layoutLoop (fixedStart schema) schema).offsetVec[i]? =
      some (if type = .kVarchar then strIndex schema i else fieldOffset schema i) := by
  have hle := prefixSum_le_sum fixedWidth schema i
  unfold strStart at h
  rw [(layoutLoop_spec _ schema).2.2.2 i type htype, toUInt32_of_lt (by omega)]
  rfl

theorem layoutLoop_strFieldStartOffset {schema} (h : strStart schema < 2 ^ 32) :
    (layoutLoop (fixedStart schema) schema).strFieldStartOffset = strStart schema := by
  rw [(layoutLoop_spec _ schema).2.2.1]
  exact toUInt32_of_lt h

theorem layoutLoop_strFieldCnt (schema : Schema) (base : Nat) :
    (layoutLoop base schema).strFieldCnt = strCount schema := (layoutLoop_spec _ schema).2.1

section Size

variable {schema : Schema} {stringLength : Nat}

/-- The row fits into 32 bits, with addresses of any width. -/
def NoOverflow (schema : Schema) (stringLength : Nat) : Prop :=
  strStart schema + stringLength + strCount schema * 4 < 2 ^ 32

theorem NoOverflow.strStart_lt (h : NoOverflow schema stringLength) : strStart schema < 2 ^ 32 := by
  unfold NoOverflow at h
  omega

/-- The size of the row with addresses of a given width, as the encoders compute it. -/
theorem NoOverflow.withAddr_eq (h : NoOverflow schema stringLength) {width} (hw : width ≤ 4) :
    toUInt32 (toUInt32 (strStart schema + stringLength) + toUInt32 (strCount schema * width)) =
      strStart schema + width * strCount schema + stringLength := by
  unfold NoOverflow at h
  have hmul := Nat.mul_le_mul_left (strCount schema) hw
  have htotal : toUInt32 (strStart schema + stringLength) = strStart schema + stringLength :=
    toUInt32_of_lt (by omega)
  have haddr : toUInt32 (strCount schema * width) = strCount schema * width :=
    toUInt32_of_lt (by omega)
  rw [toUInt32_of_lt (by omega), Nat.mul_comm width]
  omega

end Size

/-! ### Values -/

/-- The value of a column. Numbers are their bit patterns, a date its code. -/
inductive Value
  | null
  | bool (b : Bool)
  | int16 (v : BitVec 16)
  | int32 (v : BitVec 32)
  | int64 (v : BitVec 64)
  | float (bits : BitVec 32)
  | double (bits : BitVec 64)
  | timestamp (ts : BitVec 64)
  | date (code : BitVec 32)
  | varchar (bytes : List Byte)
  deriving DecidableEq

namespace Value

/-- May the value stand in a column of the type? -/
def HasType : Value → ColumnType → Prop
  | null, _ => True
  | bool _, type => type = .kBool
  | int16 _, type => type = .kInt16
  | int32 _, type => type = .kInt32
  | int64 _, type => type = .kInt64
  | float _, type => type = .kFloat
  | double _, type => type = .kDouble
  | timestamp _, type => type = .kTimestamp
  | date _, type => type = .kDate
  | varchar _, type => type = .kVarchar

/-- The bytes of a fixed-length value. -/
def fixedBytes : Value → List Byte
  | null => []
  | bool b => leBytes 1 (if b then 1 else 0)
  | int16 v => leBytes 2 v.toNat
  | int32 v => leBytes 4 v.toNat
  | int64 v => leBytes 8 v.toNat
  | float v => leBytes 4 v.toNat
  | double v => leBytes 8 v.toNat
  | timestamp v => leBytes 8 v.toNat
  | date v => leBytes 4 v.toNat
  | varchar _ => []

/-- The length of a string. -/
def strLength : Value → Nat
  | varchar bytes => bytes.length
  | _ => 0

/-- The value of a fixed-length column with given bytes. A bool is true only if
its byte is one. -/
def ofFixedBytes (type : ColumnType) (bytes : List Byte) : Value :=
  match type with
  | .kBool => bool (leNat bytes == 1)
  | .kInt16 => int16 (BitVec.ofNat 16 (leNat bytes))
  | .kInt32 => int32 (BitVec.ofNat 32 (leNat bytes))
  | .kInt64 => int64 (BitVec.ofNat 64 (leNat bytes))
  | .kFloat => float (BitVec.ofNat 32 (leNat bytes))
  | .kDouble => double (BitVec.ofNat 64 (leNat bytes))
  | .kTimestamp => timestamp (BitVec.ofNat 64 (leNat bytes))
  | .kDate => date (BitVec.ofNat 32 (leNat bytes))
  | .kVarchar => null

variable {v : Value}

theorem HasType.exists_varchar (h : v.HasType .kVarchar) (hne : v ≠ null) :
    ∃ bytes, v = varchar bytes := by
  cases v <;> first | exact ⟨_, rfl⟩ | exact absurd rfl hne | cases h

theorem length_fixedBytes {type} (h : v.HasType type) (hne : v ≠ null) :
    v.fixedBytes.length = fixedWidth type := by
  cases v <;> first | exact absurd rfl hne | (cases h; simp [fixedBytes, fixedWidth, typeSize])

theorem ofNat_leNat_leBytes (w : Nat) (v : BitVec (8 * w)) :
    BitVec.ofNat (8 * w) (leNat (leBytes w v.toNat)) = v := by
  have hlt : v.toNat < 256 ^ w := by
    have := v.isLt
    rwa [Nat.pow_mul] at this
  rw [leNat_leBytes_of_lt hlt, BitVec.ofNat_toNat, BitVec.setWidth_eq]

/-- Reading the bytes of a fixed-length value back. -/
theorem ofFixedBytes_fixedBytes {type} (h : v.HasType type) (hne : v ≠ null)
    (htype : type ≠ .kVarchar) : ofFixedBytes type v.fixedBytes = v := by
  cases v with
  | null => exact absurd rfl hne
  | varchar bytes => exact absurd h htype
  | bool b => cases h; cases b <;> rfl
  | int16 v => cases h; exact congrArg int16 (ofNat_leNat_leBytes 2 v)
  | int32 v => cases h; exact congrArg int32 (ofNat_leNat_leBytes 4 v)
  | int64 v => cases h; exact congrArg int64 (ofNat_leNat_leBytes 8 v)
  | float v => cases h; exact congrArg float (ofNat_leNat_leBytes 4 v)
  | double v => cases h; exact congrArg double (ofNat_leNat_leBytes 8 v)
  | timestamp v => cases h; exact congrArg timestamp (ofNat_leNat_leBytes 8 v)
  | date v => cases h; exact congrArg date (ofNat_leNat_leBytes 4 v)

end Value

/-! ### String addresses -/

/-- The bytes of an address: three-byte addresses have the most significant byte
first, the others the least significant one. -/
def addrBytes (addrLength strOffset : Nat) : List Byte :=
  if addrLength = 1 then leBytes 1 strOffset
  else if addrLength = 2 then leBytes 2 strOffset
  else if addrLength = 3 then
    [BitVec.ofNat 8 (strOffset / 2 ^ 16), BitVec.ofNat 8 (strOffset / 2 ^ 8),
      BitVec.ofNat 8 strOffset]
  else leBytes 4 strOffset

/-- The address with given bytes. -/
def addrNat (addrLength : Nat) (bytes : List Byte) : Nat :=
  if addrLength = 3 then bytes.foldl (fun n b => n * 2 ^ 8 + b.toNat) 0 else leNat bytes

theorem getAddrLength_cases (size : Nat) :
    getAddrLength size = 1 ∧ size ≤ 255 ∨ getAddrLength size = 2 ∧ 255 < size ∧ size ≤ 65535 ∨
      getAddrLength size = 3 ∧ 65535 < size ∧ size < 2 ^ 24 ∨
      getAddrLength size = 4 ∧ 2 ^ 24 ≤ size := by
  unfold getAddrLength
  split
  · omega
  · split
    · omega
    · split <;> omega

theorem getAddrLength_bounds (size : Nat) : 1 ≤ getAddrLength size ∧ getAddrLength size ≤ 4 := by
  have := getAddrLength_cases size
  omega

theorem length_addrBytes {addrLength} (h : 1 ≤ addrLength ∧ addrLength ≤ 4) (strOffset : Nat) :
    (addrBytes addrLength strOffset).length = addrLength := by
  obtain rfl | rfl | rfl | rfl : addrLength = 1 ∨ addrLength = 2 ∨ addrLength = 3 ∨
    addrLength = 4 := by omega
  all_goals simp [addrBytes]

/-- An offset inside the row fits into an address. -/
theorem addrNat_addrBytes {size strOffset} (h : strOffset ≤ size) (h32 : size < 2 ^ 32) :
    addrNat (getAddrLength size) (addrBytes (getAddrLength size) strOffset) = strOffset := by
  rcases getAddrLength_cases size with ⟨ha, hs⟩ | ⟨ha, -, hs⟩ | ⟨ha, -, hs⟩ | ⟨ha, -⟩ <;> rw [ha]
  · exact leNat_leBytes_of_lt (by omega)
  · exact leNat_leBytes_of_lt (by omega)
  · simp only [addrNat, addrBytes, if_true, Nat.reduceEqDiff, if_false,
      foldl_cons, foldl_nil, BitVec.toNat_ofNat]
    omega
  · exact leNat_leBytes_of_lt (by omega)

end HybridSE.Codec
