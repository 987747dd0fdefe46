import HybridSE.Codec.RowBuilder
import HybridSE.Codec.RowView

/-!
# HybridSE.Codec.NativeEncoder

Model of the compiled row encoder and of the decoders that compiled code and the
column lists use, for the default row format:

* the steps that `BufNativeEncoderIRBuilder` of `src/codegen/buf_ir_builder.cc`
  emits, with `v1::CalcTotalLength`, `v1::AppendNullBit` and `v1::AppendString`
  of `src/codec/type_codec.cc`;
* `RowFormat` of `src/codec/fe_row_codec.cc` with the field getters of
  `type_codec.h`, as `BufNativeIRBuilder::BuildGetField` calls them;
* `ColumnImpl` and `StringColumnImpl` of `list_iterator_codec.h`.

As elsewhere, `none` is an access outside the row.
-/

namespace HybridSE.Codec

open HybridSE.Lib

/-! ### The encoder -/

/-- What the generated code holds for an output column: a value, with a null flag
or without, or a NULL. The store of a NULL fixed-length column still writes some
bytes: those of its type, or one byte for a constant NULL. A constant NULL of a string
type is an undefined pointer. -/
inductive NativeValue
  | value (val : Value) (nullable : Bool)
  | null (payload : List Byte)
  | constNullString
  deriving DecidableEq

/-- The value of the column. -/
def NativeValue.toValue : NativeValue → Value
  | .value val _ => val
  | .null _ => .null
  | .constNullString => .null

/-- `v1::CalcTotalLength`: the size of the row and the width of the addresses. -/
def calcTotalLength (primarySize strFieldCnt strSize : Nat) : Nat × Nat :=
  let totalSize := toUInt32 (primarySize + strSize)
  let withAddr := fun width => toUInt32 (totalSize + toUInt32 (strFieldCnt * width))
  if withAddr 1 ≤ 255 then (withAddr 1, 1)
  else if withAddr 2 ≤ 65535 then (withAddr 2, 2)
  else if withAddr 3 ≤ 2 ^ 24 then (withAddr 3, 3)
  else (withAddr 4, 4)

/-- `v1::AppendNullBit`. -/
def appendNullBit (buf : List Byte) (colIdx : Nat) (isNull : Bool) : Option (List Byte) := do
  let byte ← buf[headerLength + colIdx / 8]?
  let bit := 1#8 <<< (colIdx % 8)
  store buf (headerLength + colIdx / 8) [if isNull then byte ||| bit else byte &&& ~~~bit]

/-- `v1::AppendString` for a NULL. The address width is computed from the size of
the row again. -/
def appendNullString (buf : List Byte) (bufSize colIdx strStartOffset strFieldOffset
    strBodyOffset : Nat) : Option (List Byte × Nat) := do
  let buf ← appendNullBit buf colIdx true
  let buf ← RowBuilder.fillStringOffset buf strStartOffset (getAddrLength bufSize) strFieldOffset
    strBodyOffset
  some (buf, strBodyOffset)

/-- `v1::AppendString` for a string: the row and the body offset of the next one;
`-1` is `2 ^ 32 - 1` there. -/
def appendString (buf : List Byte) (bufSize : Nat) (val : List Byte) (strStartOffset
    strFieldOffset strAddrSpace strBodyOffset : Nat) : Option (List Byte × Nat) :=
  let strOffset := toUInt32 (strStartOffset + toUInt32 (strFieldOffset * strAddrSpace))
  if bufSize < toUInt32 (strOffset + val.length) then some (buf, 2 ^ 32 - 1)
  else do
    let buf ← store buf strOffset (addrBytes strAddrSpace strBodyOffset)
    let buf ← RowBuilder.copyString buf strBodyOffset val
    some (buf, toUInt32 (strBodyOffset + val.length))

/-- `BufNativeEncoderIRBuilder::AppendPrimary`. -/
def appendPrimary (buf : List Byte) (output : NativeValue) (fieldIdx fieldOffset : Nat) :
    Option (List Byte) :=
  match output with
  | .value val true => do
      let buf ← appendNullBit buf fieldIdx false
      store buf fieldOffset val.fixedBytes
  | .value val false => store buf fieldOffset val.fixedBytes
  | .null payload => do
      let buf ← appendNullBit buf fieldIdx true
      store buf fieldOffset payload
  | .constNullString => none

/-- `BufNativeEncoderIRBuilder::AppendString`. -/
def encodeString (buf : List Byte) (bufSize fieldIdx : Nat) (output : NativeValue)
    (strStartOffset strAddrSpace strBodyOffset strFieldIdx : Nat) : Option (List Byte × Nat) :=
  match output with
  | .value (.varchar bytes) _ =>
    appendString buf bufSize bytes strStartOffset strFieldIdx strAddrSpace strBodyOffset
  | _ => appendNullString buf bufSize fieldIdx strStartOffset strFieldIdx strBodyOffset

/-- The size of the row and the width of the addresses, with a length of zero for NULL
strings. Without string columns the address width is not set; zero stands for it. -/
def totalSize (layout : Layout) (schema : Schema) (outputs : List NativeValue) : Nat × Nat :=
  if layout.strFieldCnt = 0 ∨ schema.length = 0 then (layout.strFieldStartOffset, 0)
  else calcTotalLength layout.strFieldStartOffset layout.strFieldCnt
    (toUInt32 ((outputs.map fun output => output.toValue.strLength).sum))

/-- `BufNativeEncoderIRBuilder::CalcTotalSize`. The length of every string is loaded before
the null flag selects it or zero; for a constant NULL the load is through an undefined
pointer. -/
def calcTotalSize (layout : Layout) (schema : Schema) (outputs : List NativeValue) :
    Option (Nat × Nat) :=
  if (layout.strFieldCnt ≠ 0 ∧ schema.length ≠ 0) ∧ .constNullString ∈ outputs then none
  else some (totalSize layout schema outputs)

/-- `BufNativeEncoderIRBuilder::AppendHeader`. -/
def appendHeader (buf : List Byte) (size bitmapSize : Nat) : Option (List Byte) := do
  let buf ← store buf 0 [1#8]
  let buf ← store buf 1 [1#8]
  let buf ← store buf 2 (leBytes 4 size)
  store buf 6 (List.replicate bitmapSize 0#8)

/-- The loop of `BufNativeEncoderIRBuilder::BuildEncode` over the columns from
`idx` on. `strBodyOffset` is `none` until the first string column. -/
def encodeColumns (layout : Layout) (size strAddrSpace : Nat) :
    List ColumnType → List NativeValue → Nat → Option Nat → List Byte → Option (List Byte)
  | type :: types, output :: outputs, idx, strBodyOffset, buf => do
      let offset ← layout.offsetVec[idx]?
      if type = .kVarchar then do
        let bodyOffset := strBodyOffset.getD (toUInt32 (layout.strFieldStartOffset +
          toUInt32 (layout.strFieldCnt * strAddrSpace)))
        let (buf, next) ← encodeString buf size idx output layout.strFieldStartOffset strAddrSpace
          bodyOffset offset
        encodeColumns layout size strAddrSpace types outputs (idx + 1) (some next) buf
      else do
        let buf ← appendPrimary buf output idx offset
        encodeColumns layout size strAddrSpace types outputs (idx + 1) strBodyOffset buf
  | _, _, _, _, buf => some buf

/-- The layout that the encoder computes. -/
def encoderLayout (schema : Schema) : Layout :=
  layoutLoop (headerLength + bitMapSize schema.length) schema

/-- The size of the row that the encoder allocates. -/
def encodedSize (schema : Schema) (outputs : List NativeValue) : Nat :=
  (totalSize (encoderLayout schema) schema outputs).1

/-- The steps that `BufNativeEncoderIRBuilder::BuildEncode` emits, on freshly
allocated memory `buf` of that size. -/
def encode (schema : Schema) (outputs : List NativeValue) (buf : List Byte) :
    Option (List Byte) := do
  let (size, strAddrSpace) ← calcTotalSize (encoderLayout schema) schema outputs
  let buf ← appendHeader buf size (bitMapSize schema.length)
  encodeColumns (encoderLayout schema) size strAddrSpace schema outputs 0 none buf

/-! ### The decoders of compiled code -/

/-- `RowFormat`: the columns' offsets, the next string of every string, and the start
of the addresses. -/
structure RowFormat where
  offsets : List Nat
  nextStrPos : List (Nat × Nat)
  strFieldStartOffset : Nat

/-- The second loop of `RowFormat::RowFormat`, from the last string to the first:
every entry takes the number of the one behind it. -/
def nextStrPosLoop : List (Nat × Nat) → Nat × List (Nat × Nat)
  | [] => (0, [])
  | (idx, pos) :: rest =>
    let (nextPos, rest) := nextStrPosLoop rest
    (pos, (idx, nextPos) :: rest)

/-- `RowFormat::RowFormat`. -/
def RowFormat.new (schema : Schema) : RowFormat :=
  let layout := layoutLoop (headerLength + bitMapSize schema.length) schema
  { offsets := layout.offsetVec
    nextStrPos := (nextStrPosLoop ((List.range layout.strFieldCnt).map fun idx => (idx, idx))).2
    strFieldStartOffset := layout.strFieldStartOffset }

/-- `RowFormat::GetStringColumnInfo`: offset, next offset and start of the addresses. -/
def RowFormat.getStringColumnInfo (format : RowFormat) (idx : Nat) : Option (Nat × Nat × Nat) := do
  let offset ← format.offsets[idx]?
  let next ← format.nextStrPos.find? fun entry => entry.1 == offset
  some (offset, next.2, format.strFieldStartOffset)

/-- The family `v1::GetBoolField`, `v1::GetInt16Field` and so on. -/
def getField (type : ColumnType) (row : List Byte) (idx offset : Nat) : Option (Fetch Value) := do
  if ← isNullAt row idx then
    return .isNull
  let val ← getFieldUnsafe type row offset
  return .ok val

/-- `v1::GetStrField`. -/
def getStrField (row : List Byte) (idx strFieldOffset nextStrFieldOffset strStartOffset
    addrSpace : Nat) : Option (Fetch (Nat × Nat)) := do
  if ← isNullAt row idx then
    return .isNull
  getStrFieldUnsafe row strFieldOffset nextStrFieldOffset strStartOffset addrSpace

/-- The read that `BufNativeIRBuilder::BuildGetField` emits for a row of a given size. -/
def RowFormat.getField (format : RowFormat) (row : List Byte) (type : ColumnType) (idx : Nat) :
    Option (Fetch Value) :=
  if type = .kVarchar then do
    let (offset, next, start) ← format.getStringColumnInfo idx
    fetchBytes row (← getStrField row idx offset next start (getAddrSpace row.length))
  else do
    let offset ← format.offsets[idx]?
    Codec.getField type row idx offset

/-- `ColumnImpl::GetField` and `StringColumnImpl::GetField`, on the columns that
`MemoryWindowDecodeIRBuilder::BuildGetCol` makes. -/
def columnGetField (format : RowFormat) (row : List Byte) (type : ColumnType) (idx : Nat) :
    Option (Fetch Value) :=
  if type = .kVarchar then do
    let (strFieldOffset, nextStrFieldOffset, strStartOffset) ← format.getStringColumnInfo idx
    if ← isNullAt row idx then
      return .isNull
    let addrSpace := getAddrSpace row.length
    fetchBytes row
      (← getStrFieldUnsafe row strFieldOffset nextStrFieldOffset strStartOffset addrSpace)
  else do
    let offset ← format.offsets[idx]?
    if ← isNullAt row idx then
      return .isNull
    let bytes ← load row offset (fixedWidth type)
    return .ok (Value.ofFixedBytes type bytes)

end HybridSE.Codec
