import HybridSE.Codec.RowLayout

/-!
# HybridSE.Codec.RowView

Model of `RowView` of `src/codec/fe_row_codec.cc` and of the readers of
`src/codec/type_codec.cc` that it uses, for the default row format.

As in the builder's model, `none` is an access outside the row (or a lookup of a
column that is not there). Otherwise a getter's C++ return code and output are a
`Fetch`: the value for code 0, NULL for code 1, or the negative error code.
-/

namespace HybridSE.Codec

open HybridSE.Lib

/-- Return code and output of a getter. -/
inductive Fetch (α : Type)
  | ok (val : α)
  | isNull
  | error (code : Int)
  deriving DecidableEq

/-! ### Readers of `type_codec.cc` -/

/-- `v1::IsNullAt`, which `RowView::IsNULL` repeats. -/
def isNullAt (row : List Byte) (idx : Nat) : Option Bool := do
  let byte ← row[headerLength + idx / 8]?
  some (decide (byte &&& (1#8 <<< (idx % 8)) ≠ 0#8))

/-- The family `v1::GetBoolFieldUnsafe`, `v1::GetInt16FieldUnsafe` and so on. -/
def getFieldUnsafe (type : ColumnType) (row : List Byte) (offset : Nat) : Option Value := do
  let bytes ← load row offset (fixedWidth type)
  some (Value.ofFixedBytes type bytes)

/-- An address of the string address part. -/
def readAddr (row : List Byte) (start addrSpace strIdx : Nat) : Option Nat := do
  let bytes ← load row (start + toUInt32 (strIdx * addrSpace)) addrSpace
  some (addrNat addrSpace bytes)

/-- The size field of the header. -/
def getSize (row : List Byte) : Option Nat := do
  let bytes ← load row versionLength 4
  some (leNat bytes)

/-- `v1::GetStrFieldUnsafe`: where the string starts in the row and its length.
`next_str_field_offset = 0` says that it is the last string column. -/
def getStrFieldUnsafe (row : List Byte) (fieldOffset nextStrFieldOffset strStartOffset
    addrSpace : Nat) : Option (Fetch (Nat × Nat)) :=
  if 1 ≤ addrSpace ∧ addrSpace ≤ 4 then do
    let strOffset ← readAddr row strStartOffset addrSpace fieldOffset
    if nextStrFieldOffset = 0 then do
      let totalLength ← getSize row
      if totalLength < strOffset then return .error (-3)
      return .ok (strOffset, totalLength - strOffset)
    else do
      let nextStrOffset ← readAddr row strStartOffset addrSpace nextStrFieldOffset
      if nextStrOffset < strOffset then return .error (-3)
      return .ok (strOffset, nextStrOffset - strOffset)
  else some (.error (-2))

/-- The bytes that a string's pointer and length stand for. -/
def fetchBytes (row : List Byte) : Fetch (Nat × Nat) → Option (Fetch Value)
  | .ok (offset, length) => do
      let bytes ← load row offset length
      some (.ok (.varchar bytes))
  | .isNull => some .isNull
  | .error code => some (.error code)

/-- `Date::Decode`; a negative code leaves the outputs as they are. -/
def dateDecode (date : BitVec 32) : Option (Int × Int × Int) :=
  if date.toInt < 0 then none
  else some (1900 + date.toNat / 2 ^ 16, 1 + date.toNat / 2 ^ 8 % 2 ^ 8, date.toNat % 2 ^ 8)

/-! ### `RowView` -/

/-- `RowView`; the row is `none` for `NULL`. -/
structure RowView where
  strAddrLength : Nat
  isValid : Bool
  stringFieldCnt : Nat
  strFieldStartOffset : Nat
  size : Nat
  row : Option (List Byte)
  schema : Schema
  offsetVec : List Nat

namespace RowView

/-- `RowView::RowView(schema)`, that is `RowView::Init`. -/
def new (schema : Schema) : RowView :=
  let layout := layoutLoop (headerLength + bitMapSize schema.length) schema
  { strAddrLength := 0
    isValid := true
    stringFieldCnt := layout.strFieldCnt
    strFieldStartOffset := layout.strFieldStartOffset
    size := 0
    row := none
    schema := schema
    offsetVec := layout.offsetVec }

/-- `RowView::Reset(row, size)` with a row that is not `NULL`. -/
def reset (view : RowView) (row : List Byte) (size : Nat) : Option (Bool × RowView) :=
  if view.schema.length = 0 ∨ size ≤ headerLength then some (false, { view with isValid := false })
  else do
    let rowSize ← getSize row
    if rowSize ≠ size then return (false, { view with isValid := false })
    return (true, { view with
      row := some row, size := size, strAddrLength := getAddrLength size, isValid := true })

/-- `RowView::RowView(schema, row, size)`. -/
def ofRow (schema : Schema) (row : List Byte) (size : Nat) : Option RowView :=
  if schema.length = 0 then some { new schema with isValid := false, row := some row, size := size }
  else do
    let (_, view) ← { new schema with row := some row, size := size }.reset row size
    some view

/-- The column of an index, as the getters look it up; the index is cast to `int32_t`
before it is compared with the number of columns. -/
def column (view : RowView) (idx : Nat) : Option (Option ColumnType) :=
  if (view.schema.length : Int) ≤ toInt32 idx then some none
  else do
    let type ← view.schema[idx]?
    some (some type)

/-- `RowView::CheckValid`. -/
def checkValid (view : RowView) (idx : Nat) (type : ColumnType) : Option Bool :=
  if view.row = none ∨ view.isValid = false then some false
  else do
    let column ← view.column idx
    some (decide (column = some type))

/-- The common body of the typed getters of the fixed-length types. -/
def getFixed (view : RowView) (type : ColumnType) (idx : Nat) : Option (Fetch Value) := do
  if !(← view.checkValid idx type) then
    return .error (-1)
  let row ← view.row
  if ← isNullAt row idx then
    return .isNull
  let offset ← view.offsetVec[idx]?
  let val ← getFieldUnsafe type row offset
  return .ok val

def getBool (view : RowView) (idx : Nat) := view.getFixed .kBool idx
def getInt32 (view : RowView) (idx : Nat) := view.getFixed .kInt32 idx
def getTimestamp (view : RowView) (idx : Nat) := view.getFixed .kTimestamp idx
def getInt64 (view : RowView) (idx : Nat) := view.getFixed .kInt64 idx
def getInt16 (view : RowView) (idx : Nat) := view.getFixed .kInt16 idx
def getFloat (view : RowView) (idx : Nat) := view.getFixed .kFloat idx
def getDouble (view : RowView) (idx : Nat) := view.getFixed .kDouble idx

/-- `RowView::GetDate(idx, year, month, day)`. -/
def getDate (view : RowView) (idx : Nat) : Option (Fetch (Option (Int × Int × Int))) := do
  match ← view.getFixed .kDate idx with
  | .ok (.date code) => return .ok (dateDecode code)
  | .ok _ => none
  | .isNull => return .isNull
  | .error code => return .error code

/-- The number of the next string column, or zero. -/
def nextStrFieldOffset (view : RowView) (fieldOffset : Nat) : Nat :=
  if fieldOffset < toUInt32 (view.stringFieldCnt + (2 ^ 32 - 1)) then fieldOffset + 1 else 0

/-- `RowView::GetString`. -/
def getString (view : RowView) (idx : Nat) : Option (Fetch (Nat × Nat)) := do
  if !(← view.checkValid idx .kVarchar) then
    return .error (-1)
  let row ← view.row
  if (← getSize row) ≤ headerLength then
    return .error (-1)
  if ← isNullAt row idx then
    return .isNull
  let fieldOffset ← view.offsetVec[idx]?
  getStrFieldUnsafe row fieldOffset (view.nextStrFieldOffset fieldOffset) view.strFieldStartOffset
    view.strAddrLength

/-- `RowView::GetValue(row, idx, type, val)`. -/
def getValue (view : RowView) (row : List Byte) (idx : Nat) (type : ColumnType) :
    Option (Fetch Value) := do
  if view.schema.length = 0 then
    return .error (-1)
  if (← view.column idx) ≠ some type then
    return .error (-1)
  if (← getSize row) ≤ headerLength then
    return .error (-1)
  if ← isNullAt row idx then
    return .isNull
  let offset ← view.offsetVec[idx]?
  if type = .kVarchar then
    return .error (-1)
  let val ← getFieldUnsafe type row offset
  return .ok val

/-- `RowView::GetValue(row, idx, val, length)`, the overload for strings. -/
def getValueString (view : RowView) (row : List Byte) (idx : Nat) :
    Option (Fetch (Nat × Nat)) := do
  if view.schema.length = 0 then
    return .error (-1)
  if (← view.column idx) ≠ some .kVarchar then
    return .error (-1)
  let size ← getSize row
  if size ≤ headerLength then
    return .error (-1)
  if ← isNullAt row idx then
    return .isNull
  let fieldOffset ← view.offsetVec[idx]?
  getStrFieldUnsafe row fieldOffset (view.nextStrFieldOffset fieldOffset) view.strFieldStartOffset
    (getAddrLength size)

/-- Read a column with the typed getter of its type. For a date this is the code that
`GetDate` decodes. -/
def get (view : RowView) (type : ColumnType) (idx : Nat) : Option (Fetch Value) :=
  match type with
  | .kVarchar => do
      let row ← view.row
      fetchBytes row (← view.getString idx)
  | .kBool => view.getBool idx
  | .kInt16 => view.getInt16 idx
  | .kInt32 => view.getInt32 idx
  | .kInt64 => view.getInt64 idx
  | .kFloat => view.getFloat idx
  | .kDouble => view.getDouble idx
  | .kDate => view.getFixed .kDate idx
  | .kTimestamp => view.getTimestamp idx

/-- Read a column with the row-pointer getter of its type. -/
def getByRow (view : RowView) (row : List Byte) (type : ColumnType) (idx : Nat) :
    Option (Fetch Value) :=
  if type = .kVarchar then do fetchBytes row (← view.getValueString row idx)
  else view.getValue row idx type

end RowView

end HybridSE.Codec
