import HybridSE.Codec.RowLayout

/-!
# HybridSE.Codec.RowBuilder

Model of `RowBuilder` of `src/codec/fe_row_codec.cc` for the default row format.

The builder's buffer is a byte list of the size given to `SetBuffer`. A function
returns `none` if the C++ code would read or write outside that buffer or look up
a column that is not there, and otherwise the C++ return value with the new
state.
-/

namespace HybridSE.Codec

open HybridSE.Lib

/-- `RowBuilder`. -/
structure RowBuilder where
  schema : Schema
  buf : List Byte
  cnt : Nat
  size : Nat
  strFieldCnt : Nat
  strAddrLength : Nat
  strFieldStartOffset : Nat
  strOffset : Nat
  offsetVec : List Nat

/-- The code of a date, as `AppendDate` computes it. -/
def dateCode (year month day : Int) : BitVec 32 :=
  (BitVec.ofInt 32 (year - 1900) <<< 16) ||| (BitVec.ofInt 32 (month - 1) <<< 8) |||
    BitVec.ofInt 32 day

/-- What `CalTotalLength` computes from the builder's members. -/
def totalLength (columns strFieldStartOffset strFieldCnt stringLength : Nat) : Nat :=
  if columns = 0 then 0
  else
    let totalLength := toUInt32 (strFieldStartOffset + stringLength)
    let withAddr := fun width => toUInt32 (totalLength + toUInt32 (strFieldCnt * width))
    if withAddr 1 ≤ 255 then withAddr 1
    else if withAddr 2 ≤ 65535 then withAddr 2
    else if withAddr 3 ≤ 2 ^ 24 - 1 then withAddr 3
    else if withAddr 4 ≤ 2 ^ 32 - 1 then withAddr 4
    else 0

namespace RowBuilder

/-- `RowBuilder::RowBuilder`. -/
def new (schema : Schema) : RowBuilder :=
  let layout := layoutLoop (headerLength + bitMapSize schema.length) schema
  { schema := schema
    buf := []
    cnt := 0
    size := 0
    strFieldCnt := layout.strFieldCnt
    strAddrLength := 0
    strFieldStartOffset := layout.strFieldStartOffset
    strOffset := 0
    offsetVec := layout.offsetVec }

/-- `RowBuilder::SetBuffer` with a buffer that is not `NULL`. -/
def setBuffer (b : RowBuilder) (buf : List Byte) (size : Nat) : Option (Bool × RowBuilder) :=
  if size = 0 ∨ size < toUInt32 (b.strFieldStartOffset + b.strFieldCnt) then some (false, b)
  else do
    let buf ← store buf 0 [1#8]
    let buf ← store buf 1 [1#8]
    let buf ← store buf versionLength (leBytes 4 size)
    let buf ← store buf headerLength (List.replicate (bitMapSize b.schema.length) 0#8)
    some (true, { b with
      buf := buf
      size := size
      cnt := 0
      strAddrLength := getAddrLength size
      strOffset := toUInt32 (b.strFieldStartOffset +
        toUInt32 (getAddrLength size * b.strFieldCnt)) })

/-- `RowBuilder::CalTotalLength`. -/
def calTotalLength (b : RowBuilder) (stringLength : Nat) : Nat :=
  totalLength b.schema.length b.strFieldStartOffset b.strFieldCnt stringLength

/-- `RowBuilder::Check`. -/
def check (b : RowBuilder) (type : ColumnType) : Option Bool :=
  if (b.schema.length : Int) ≤ toInt32 b.cnt then some false
  else do
    let column ← b.schema[b.cnt]?
    some (decide (column = type))

/-- `FillNullStringOffset`, which `AppendString` repeats. -/
def fillStringOffset (buf : List Byte) (start addrLength strIdx strOffset : Nat) :
    Option (List Byte) :=
  store buf (start + toUInt32 (addrLength * strIdx)) (addrBytes addrLength strOffset)

/-- The branch of `AppendNULL` for the column's type: a string column still gets an
address. -/
def appendNullOffset (b : RowBuilder) (buf : List Byte) (column : ColumnType) :
    Option (List Byte) :=
  if column = .kVarchar then do
    let strIdx ← b.offsetVec[b.cnt]?
    fillStringOffset buf b.strFieldStartOffset b.strAddrLength strIdx b.strOffset
  else some buf

/-- `RowBuilder::AppendNULL`. -/
def appendNULL (b : RowBuilder) : Option (Bool × RowBuilder) := do
  let byte ← b.buf[headerLength + b.cnt / 8]?
  let buf ← store b.buf (headerLength + b.cnt / 8) [byte ||| (1#8 <<< (b.cnt % 8))]
  let column ← b.schema[b.cnt]?
  let buf ← b.appendNullOffset buf column
  some (true, { b with buf := buf, cnt := toUInt32 (b.cnt + 1) })

/-- The common body of the append functions of the fixed-length types. -/
def appendFixed (b : RowBuilder) (type : ColumnType) (val : Value) : Option (Bool × RowBuilder) := do
  if !(← b.check type) then
    return (false, b)
  let offset ← b.offsetVec[b.cnt]?
  let buf ← store b.buf offset val.fixedBytes
  return (true, { b with buf := buf, cnt := toUInt32 (b.cnt + 1) })

def appendBool (b : RowBuilder) (val : Bool) := b.appendFixed .kBool (.bool val)
def appendInt32 (b : RowBuilder) (val : BitVec 32) := b.appendFixed .kInt32 (.int32 val)
def appendInt16 (b : RowBuilder) (val : BitVec 16) := b.appendFixed .kInt16 (.int16 val)
def appendTimestamp (b : RowBuilder) (val : BitVec 64) := b.appendFixed .kTimestamp (.timestamp val)
def appendInt64 (b : RowBuilder) (val : BitVec 64) := b.appendFixed .kInt64 (.int64 val)
def appendFloat (b : RowBuilder) (val : BitVec 32) := b.appendFixed .kFloat (.float val)
def appendDouble (b : RowBuilder) (val : BitVec 64) := b.appendFixed .kDouble (.double val)

/-- `RowBuilder::AppendDate`. -/
def appendDate (b : RowBuilder) (year month day : Int) : Option (Bool × RowBuilder) :=
  if year < 1900 ∨ 9999 < year then some (false, b)
  else if month < 1 ∨ 12 < month then some (false, b)
  else if day < 1 ∨ 31 < day then some (false, b)
  else b.appendFixed .kDate (.date (dateCode year month day))

/-- Copy a string body, unless it is empty. -/
def copyString (buf : List Byte) (strOffset : Nat) (val : List Byte) : Option (List Byte) :=
  if val.length ≠ 0 then store buf strOffset val else some buf

theorem copyString_eq {buf buf' val strOffset} (h : store buf strOffset val = some buf') :
    copyString buf strOffset val = some buf' := by
  unfold copyString
  split
  · exact h
  · rename_i hlen
    obtain rfl := List.length_eq_zero_iff.mp (not_not.mp hlen)
    have hle : strOffset ≤ buf.length := (store_eq_some h).1
    rw [← h, store_nil hle]

/-- `RowBuilder::AppendString` with a pointer that is not `NULL`. -/
def appendString (b : RowBuilder) (val : List Byte) : Option (Bool × RowBuilder) := do
  if !(← b.check .kVarchar) then
    return (false, b)
  if b.size < toUInt32 (b.strOffset + val.length) then
    return (false, b)
  let strIdx ← b.offsetVec[b.cnt]?
  let buf ← fillStringOffset b.buf b.strFieldStartOffset b.strAddrLength strIdx b.strOffset
  let buf ← copyString buf b.strOffset val
  return (true, { b with
    buf := buf
    strOffset := toUInt32 (b.strOffset + val.length)
    cnt := toUInt32 (b.cnt + 1) })

end RowBuilder

/-- A call of one of the append functions, with its arguments. -/
inductive AppendCall
  | null
  | bool (val : Bool)
  | int16 (val : BitVec 16)
  | int32 (val : BitVec 32)
  | int64 (val : BitVec 64)
  | float (val : BitVec 32)
  | double (val : BitVec 64)
  | timestamp (val : BitVec 64)
  | date (year month day : Int)
  | string (val : List Byte)
  deriving DecidableEq

/-- Run a call. -/
def RowBuilder.append (b : RowBuilder) : AppendCall → Option (Bool × RowBuilder)
  | .null => b.appendNULL
  | .bool val => b.appendBool val
  | .int16 val => b.appendInt16 val
  | .int32 val => b.appendInt32 val
  | .int64 val => b.appendInt64 val
  | .float val => b.appendFloat val
  | .double val => b.appendDouble val
  | .timestamp val => b.appendTimestamp val
  | .date year month day => b.appendDate year month day
  | .string val => b.appendString val

/-- Run some calls; `none` as soon as one of them fails or leaves the buffer. -/
def RowBuilder.appendAll (b : RowBuilder) : List AppendCall → Option RowBuilder
  | [] => some b
  | call :: calls => do
      let (ok, b) ← b.append call
      if ok then b.appendAll calls else none

/-- The value that a call puts into its column. -/
def AppendCall.value : AppendCall → Value
  | .null => .null
  | .bool val => .bool val
  | .int16 val => .int16 val
  | .int32 val => .int32 val
  | .int64 val => .int64 val
  | .float val => .float val
  | .double val => .double val
  | .timestamp val => .timestamp val
  | .date year month day => .date (dateCode year month day)
  | .string val => .varchar val

/-- The calls that suit a column: any call of the column's type, with a date that
`AppendDate` takes. -/
def AppendCall.Suits : AppendCall → ColumnType → Prop
  | .date year month day, type =>
    type = .kDate ∧ 1900 ≤ year ∧ year ≤ 9999 ∧ 1 ≤ month ∧ month ≤ 12 ∧ 1 ≤ day ∧ day ≤ 31
  | call, type => call.value.HasType type

end HybridSE.Codec
