import HybridSE.Codec.EncodedRow
import HybridSE.Lib.DecimalText
import HybridSE.Lib.SeparatedText

/-!
# HybridSE.Vm.KeyGenerator

The three functions that turn key columns into one string: `KeyGenerator::Gen` and
`KeyGenerator::GenConst` of `src/vm/runner.cc`, and
`SimpleCatalogTableHandler::DecodeKeysAndTs` of `src/vm/simple_catalog.cc`.

Each of them is one loop that joins the texts of the columns with `|`, and they
differ in how a column is read and formatted. `genText`, `constText` and
`storedText` are these formats on the values of the columns, `gen`, `genConst` and
`decodeKeys` the strings of a tuple. `genRow`, `genConstRow` and `decodeKeysRow` run
over the bytes of a row with the getters of `RowView`; on an encoded row they give
the string of the tuple it holds (`genRow_eq`, `genConstRow_eq`, `decodeKeysRow_eq`).
-/

namespace HybridSE.Vm

open HybridSE.Lib HybridSE.Codec List Option

/-- `codec::NONETOKEN`. -/
def noneToken : List Byte := ascii ['!', 'N', '@', 'U', '#', 'L', '$', 'L', '%']

/-- `codec::EMPTY_STRING`. -/
def emptyString : List Byte := ascii ['!', '@', '#', '$', '%']

/-- The separator `|`. -/
def keySep : Byte := 124#8

/-- The texts of `true` and `false`. -/
def boolText (b : Bool) : List Byte :=
  if b then ascii ['t', 'r', 'u', 'e'] else ascii ['f', 'a', 'l', 's', 'e']

/-- The text `NA` of a value that cannot be read. -/
def naText : List Byte := ascii ['N', 'A']

/-- Strings as keys: the empty one has a token of its own. -/
def nonEmptyText (bytes : List Byte) : List Byte := if bytes = [] then emptyString else bytes

/-! ### The formats -/

/-- What `Gen` appends for a value; the `default` of its `switch` appends nothing. -/
def genText : Value → List Byte
  | .null => noneToken
  | .varchar bytes => nonEmptyText bytes
  | .date code => intText code.toInt
  | .bool b => boolText b
  | .int16 v => intText v.toInt
  | .int32 v => intText v.toInt
  | .int64 v => intText v.toInt
  | .timestamp ts => intText ts.toInt
  | .float _ => []
  | .double _ => []

/-- `%4d-%.2d-%.2d` into a buffer of eleven bytes. -/
def dateText (year month day : Int) : List Byte :=
  ((intText year).leftpad 4 32#8 ++ 45#8 :: (intText month).leftpad 2 48#8 ++
    45#8 :: (intText day).leftpad 2 48#8).take 10

/-- `RowView::GetAsString` of a value that is not NULL. A date that does not decode
prints uninitialised variables, hence `none`. -/
def asString : Value → Option (List Byte)
  | .null => some (ascii ['N', 'U', 'L', 'L'])
  | .varchar bytes => some (bytes.take 4096)
  | .date code => (dateDecode code).map fun (year, month, day) => dateText year month day
  | .bool b => some (boolText b)
  | .int16 v => some (intText v.toInt)
  | .int32 v => some (intText v.toInt)
  | .int64 v => some (intText v.toInt)
  | .timestamp ts => some (intText ts.toInt)
  | .float bits => some (floatingText 8 23 bits.toNat)
  | .double bits => some (floatingText 11 52 bits.toNat)

/-- What `GenConst` appends for a value. -/
def constText : Value → List Byte
  | .null => noneToken
  | .date code => nonEmptyText (intText code.toInt)
  | val => nonEmptyText ((asString val).getD [])

/-- `RowView::GetInteger` of a value that is not NULL, for an output that is zero
before: other types leave it alone. -/
def integerOf : Value → Int
  | .int16 v => v.toInt
  | .int32 v => v.toInt
  | .int64 v => v.toInt
  | .date code => code.toInt
  | .timestamp ts => ts.toInt
  | _ => 0

/-- What `DecodeKeysAndTs` appends for a value. -/
def storedText : Value → List Byte
  | .null => noneToken
  | .varchar bytes => nonEmptyText bytes
  | val => intText (integerOf val)

/-! ### The strings of a tuple -/

/-- `KeyGenerator::Gen` of a row; `none` is a row of size zero. -/
def gen : Option (List Value) → List Byte
  | none => noneToken
  | some vals => joinFields keySep (vals.map genText)

theorem gen_some (vals : List Value) : gen (some vals) = joinFields keySep (vals.map genText) := rfl

/-- `KeyGenerator::GenConst`; resetting the view of no columns fails. -/
def genConst (vals : List Value) : List Byte :=
  if vals = [] then naText else joinFields keySep (vals.map constText)

/-- The key of `SimpleCatalogTableHandler::DecodeKeysAndTs`. -/
def decodeKeys (vals : List Value) : List Byte := joinFields keySep (vals.map storedText)

/-! ### The loops over the bytes of a row -/

/-- One column of `Gen`. -/
def genColumn (schema : Schema) (row : List Byte) (pos : Nat) : Option (List Byte) := do
  if ← isNullAt row pos then
    return noneToken
  let type ← schema[pos]?
  if type = .kFloat ∨ type = .kDouble then
    return []
  match ← (RowView.new schema).getByRow row type pos with
  | .ok val => return genText val
  | _ => return []

/-- The loop of `Gen` over the columns of the projected key row. -/
def genRow (schema : Schema) (keyRow : List Byte) : Option (List Byte) :=
  (List.range schema.length).foldlM
    (fun keys pos => do return appendField keySep keys (← genColumn schema keyRow pos)) []

/-- `RowView::Reset(row)`. -/
def resetView (schema : Schema) (row : List Byte) : Option (Bool × RowView) :=
  if schema.length = 0 then some (false, { RowView.new schema with isValid := false })
  else do
    let size ← getSize row
    let view := { RowView.new schema with row := some row, size := size }
    if size ≤ headerLength then
      return (false, { view with isValid := false })
    return (true, { view with strAddrLength := getAddrLength size, isValid := true })

/-- `RowView::GetAsString`. -/
def getAsString (view : RowView) (idx : Nat) : Option (List Byte) := do
  if view.schema.length = 0 ∨ view.row = none ∨ view.size = 0 then
    return naText
  let row ← view.row
  match ← view.column idx with
  | none => return naText
  | some type =>
    if ← isNullAt row idx then
      return ascii ['N', 'U', 'L', 'L']
    match ← view.get type idx with
    | .ok val => asString val
    | _ => return naText

/-- One column of `GenConst`. -/
def genConstColumn (view : RowView) (pos : Nat) : Option (List Byte) := do
  let row ← view.row
  if ← isNullAt row pos then
    return noneToken
  let type ← view.schema[pos]?
  if type = .kDate then
    -- `GetDateUnsafe`
    let val ← getFieldUnsafe .kDate row (← view.offsetVec[pos]?)
    return nonEmptyText (intText (integerOf val))
  return nonEmptyText (← getAsString view pos)

/-- The loop of `GenConst` over the columns of the constant row. -/
def genConstRow (schema : Schema) (keyRow : List Byte) : Option (List Byte) := do
  let (ok, view) ← resetView schema keyRow
  if !ok then
    return naText
  (List.range schema.length).foldlM
    (fun keys pos => do return appendField keySep keys (← genConstColumn view pos)) []

/-- One column of `DecodeKeysAndTs`: its position and type in the index. -/
def decodeColumn (schema : Schema) (row : List Byte) (col : Nat × ColumnType) :
    Option (List Byte) := do
  if ← isNullAt row col.1 then
    return noneToken
  if col.2 = .kVarchar then
    match ← (RowView.new schema).getByRow row .kVarchar col.1 with
    | .ok (.varchar bytes) => return nonEmptyText bytes
    | _ => return emptyString
  else if col.2 = .kBool ∨ col.2 = .kFloat ∨ col.2 = .kDouble then
    return intText 0
  else
    match ← (RowView.new schema).getByRow row col.2 col.1 with
    | .ok val => return intText (integerOf val)
    | _ => return intText 0

/-- The loop of `DecodeKeysAndTs` over the columns of the index. -/
def decodeKeysRow (schema : Schema) (row : List Byte) (cols : List (Nat × ColumnType)) :
    Option (List Byte) :=
  cols.foldlM (fun keys col => do return appendField keySep keys (← decodeColumn schema row col)) []

/-! ### Reading an encoded row -/

/-- A loop that reads a text per column joins the texts. -/
theorem foldlM_appendField {β : Type*} {read} {cols : List β} {texts}
    (h : cols.mapM read = some texts) (keys : List Byte) :
    cols.foldlM (fun keys col => do return appendField keySep keys (← read col)) keys =
      some (texts.foldl (appendField keySep) keys) := by
  induction cols generalizing texts keys with
  | nil =>
    obtain rfl : [] = texts := by simpa using h
    rfl
  | cons col cols ih =>
    rw [mapM_cons] at h
    simp only [bind_eq_bind, bind_eq_some_iff, Option.pure_def,
      Option.some.injEq] at h
    obtain ⟨text, htext, rest, hrest, rfl⟩ := h
    rw [foldlM_cons, htext]
    exact ih hrest _

/-- Reading the columns of a row one after the other. -/
theorem mapM_range {vals : List Value} {read} {text : Value → List Byte}
    (h : ∀ (i : Nat) (val : Value), vals[i]? = some val → read i = some (text val)) :
    (List.range vals.length).mapM read = some (vals.map text) := by
  induction vals using List.reverseRecOn with
  | nil => rfl
  | append_singleton vals val ih =>
    have hlast : read vals.length = some (text val) := h _ val (by simp)
    have hinit := ih fun i v hv => h i v (by
      rwa [getElem?_append_left (List.getElem?_eq_some_iff.mp hv).1])
    rw [length_append, length_singleton, range_succ, mapM_append, hinit]
    simp [hlast]

/-- Every value has a column. -/
theorem exists_type_of_typed {schema vals} (h : Typed schema vals) {i : Nat} {val}
    (hval : vals[i]? = some val) : ∃ type, schema[i]? = some type := by
  have hi : i < schema.length := h.length_eq ▸ (List.getElem?_eq_some_iff.mp hval).1
  exact ⟨schema[i], getElem?_eq_getElem hi⟩

section Encoded

variable {schema : Schema} {vals : List Value} {row : List Byte} {i : Nat} {type : ColumnType}
  {val : Value} (h : EncodedRow schema vals (getAddrLength row.length) row)
  (hcols : schema.length < 2 ^ 31) (h32 : row.length < 2 ^ 32)

include h h32

/-- The view that `Reset` leaves. -/
theorem resetView_eq (hne : schema ≠ []) :
    resetView schema row = some (true, RowView.over schema row) := by
  have hlen : ¬ schema.length = 0 := fun h0 => hne (length_eq_zero_iff.mp h0)
  have hsize := h.headerLength_lt (getElem?_eq_getElem (Nat.pos_of_ne_zero hlen))
  unfold resetView
  rw [if_neg hlen, h.getSize_eq h32]
  simp only [bind_eq_bind, bind_some, if_neg hsize]
  rfl

include hcols

/-- The row-pointer getters do not use the row that the view was reset to. -/
theorem getByRow_new (htype : schema[i]? = some type) (hval : vals[i]? = some val) :
    (RowView.new schema).getByRow row type i = some val.fetch :=
  RowView.getByRow_eq h hcols h32 htype hval

theorem genColumn_eq (htype : schema[i]? = some type) (hval : vals[i]? = some val) :
    genColumn schema row i = some (genText val) := by
  have hhas := h.typed.hasType i type val htype hval
  have hnull := h.null i val hval
  have hget := getByRow_new h hcols h32 htype hval
  unfold genColumn
  simp only [hnull, htype, hget, bind_eq_bind, bind_some, decide_eq_true_eq]
  cases val <;> simp_all [Value.HasType, Value.fetch, genText]

theorem getAsString_eq (htype : schema[i]? = some type) (hval : vals[i]? = some val) :
    getAsString (RowView.over schema row) i = asString val := by
  have hguard : ¬ ((RowView.over schema row).schema.length = 0 ∨
      (RowView.over schema row).row = none ∨ (RowView.over schema row).size = 0) := by
    have hlen := h.headerLength_lt htype
    have hidx := (List.getElem?_eq_some_iff.mp htype).1
    simp only [RowView.over, RowView.new, reduceCtorEq, false_or]
    omega
  have hrow : (RowView.over schema row).row = some row := rfl
  unfold getAsString
  rw [if_neg hguard]
  simp only [hrow, RowView.column_over hcols htype, h.null i val hval,
    RowView.get_eq h hcols h32 htype hval, bind_eq_bind, bind_some,
    decide_eq_true_eq]
  unfold Value.fetch
  split
  case isTrue hnull => rw [hnull]; rfl
  case isFalse => rfl

theorem genConstColumn_eq (htype : schema[i]? = some type) (hval : vals[i]? = some val) :
    genConstColumn (RowView.over schema row) i = some (constText val) := by
  have hhas := h.typed.hasType i type val htype hval
  have hrow : (RowView.over schema row).row = some row := rfl
  have hschema : (RowView.over schema row).schema = schema := rfl
  unfold genConstColumn
  simp only [hrow, hschema, htype, h.null i val hval, getAsString_eq h hcols h32 htype hval,
    RowView.offsetVec_over htype, h.toUInt32_fieldOffset h32, bind_eq_bind, bind_some,
    decide_eq_true_eq]
  cases val with
  | date code =>
    obtain rfl : type = .kDate := hhas
    have hfield := h.getFieldUnsafe_eq htype hval (by decide) (by simp)
    simp [hfield, constText, integerOf]
  | _ => simp_all [Value.HasType, constText, asString]

theorem decodeColumn_eq (htype : schema[i]? = some type) (hval : vals[i]? = some val) :
    decodeColumn schema row (i, type) = some (storedText val) := by
  have hhas := h.typed.hasType i type val htype hval
  have hnull := h.null i val hval
  have hget := getByRow_new h hcols h32 htype hval
  unfold decodeColumn
  simp only [hnull, bind_eq_bind, bind_some, decide_eq_true_eq]
  cases val <;> simp_all [Value.HasType, Value.fetch, storedText, integerOf]

/-- `Gen` of an encoded key row is the string of its tuple. -/
theorem genRow_eq : genRow schema row = some (gen (some vals)) := by
  unfold genRow
  rw [← h.typed.length_eq]
  refine foldlM_appendField (mapM_range fun i val hval => ?_) []
  obtain ⟨type, htype⟩ := exists_type_of_typed h.typed hval
  exact genColumn_eq h hcols h32 htype hval

/-- `GenConst` of an encoded constant row is the string of its tuple. -/
theorem genConstRow_eq : genConstRow schema row = some (genConst vals) := by
  unfold genConstRow genConst
  by_cases hne : schema = []
  · have hvals : vals = [] := length_eq_zero_iff.mp (h.typed.length_eq.trans (by rw [hne]; rfl))
    rw [hne, if_pos hvals]
    rfl
  · have hvals : vals ≠ [] := by
      rintro rfl
      exact hne (length_eq_zero_iff.mp h.typed.length_eq.symm)
    rw [resetView_eq h h32 hne, if_neg hvals, ← h.typed.length_eq]
    refine foldlM_appendField (mapM_range fun i val hval => ?_) []
    obtain ⟨type, htype⟩ := exists_type_of_typed h.typed hval
    exact genConstColumn_eq h hcols h32 htype hval

/-- `DecodeKeysAndTs` of an encoded row is the string of the indexed columns. -/
theorem decodeKeysRow_eq {cols : List (Nat × ColumnType)} {keys : List Value}
    (hkeys : List.Forall₂ (fun (col : Nat × ColumnType) (key : Value) =>
      schema[col.1]? = some col.2 ∧ vals[col.1]? = some key) cols keys) :
    decodeKeysRow schema row cols = some (decodeKeys keys) := by
  refine foldlM_appendField ?_ []
  induction hkeys with
  | nil => rfl
  | cons hcol _ ih =>
    rw [mapM_cons, decodeColumn_eq h hcols h32 hcol.1 hcol.2, ih]
    rfl

end Encoded

end HybridSE.Vm
