import HybridSE.Codec.EncodedRow

/-!
# HybridSE.Codec.ViewGetters

All getters of `RowView` on one row, well formed or not.

Behind their checks the typed getters and the row-pointer getters read a column in the same way,
`readColumn`, whatever the bytes are (`get_eq_lookup`, `getByRow_eq_lookup`). What is left is
where they do not agree, `GetInteger` and one overload of `GetDate` (`gettersAgree_iff`), and for
which bytes a getter stays inside the row (`readsInside_iff`).
-/

namespace HybridSE.Codec

open HybridSE.Lib List Option

/-- The integer that a value of an integer type stands for. -/
def Value.toInteger : Value → Int
  | .int16 v => v.toInt
  | .int32 v | .date v => v.toInt
  | .int64 v | .timestamp v => v.toInt
  | _ => 0

/-- The date that a value stands for. -/
def Value.toDate : Value → Option (Int × Int × Int)
  | .date code => dateDecode code
  | _ => none

def Fetch.map {α β : Type} (f : α → β) : Fetch α → Fetch β
  | .ok val => .ok (f val)
  | .isNull => .isNull
  | .error code => .error code

/-- The types that `RowView::GetInteger` takes. -/
def ColumnType.isInteger : ColumnType → Bool
  | .kInt16 | .kInt32 | .kDate | .kInt64 | .kTimestamp => true
  | _ => false

namespace RowView

/-- `RowView::GetDate(idx, date)`; `date` says whether the pointer is not `NULL`. The test of it
is the wrong way round. -/
def getDateCode (view : RowView) (idx : Nat) (date : Bool) : Option (Fetch Value) :=
  if date then some (.error (-1))
  else do
    if !(← view.checkValid idx .kDate) then
      return .error (-1)
    if ← isNullAt (← view.row) idx then
      return .isNull
    none

/-- `RowView::GetInteger`. Only the branch of `kInt16` keeps the return value of `GetValue`; the
others go on with zero. -/
def getInteger (view : RowView) (row : List Byte) (idx : Nat) (type : ColumnType) :
    Option (Fetch Int) :=
  match type with
  | .kInt16 => do return (← view.getValue row idx type).map Value.toInteger
  | .kDate | .kInt32 | .kTimestamp | .kInt64 => do
      match ← view.getValue row idx type with
      | .ok val => return .ok val.toInteger
      | _ => return .ok 0
  | _ => some (.error (-1))

end RowView

/-! ### Getters with their checks -/

/-- A getter of any of the two kinds. An index from `2 ^ 31` on is negative where it is compared
with the number of columns. -/
def lookup (schema : Schema) (row : List Byte) (type : ColumnType) (idx : Nat) :
    Option (Fetch Value) :=
  if 2 ^ 31 ≤ idx then none
  else if schema[idx]? = some type then readColumn schema row type idx
  else some (.error (-1))

section Lookup

variable {schema : Schema} {row : List Byte} {type : ColumnType} {idx : Nat}
  (hcols : schema.length < 2 ^ 31) (hidx : idx < 2 ^ 32)
include hcols hidx

theorem column_eq : (RowView.over schema row).column idx =
    if 2 ^ 31 ≤ idx then none else some schema[idx]? := by
  have hschema : (RowView.over schema row).schema = schema := rfl
  unfold RowView.column
  rw [hschema]
  by_cases hneg : 2 ^ 31 ≤ idx
  · have hcast : toInt32 idx < 0 := by
      unfold toInt32
      rw [Int.bmod_def]
      split <;> omega
    rw [if_pos hneg, if_neg (by omega), getElem?_eq_none (by omega)]
    rfl
  · rw [if_neg hneg, toInt32_of_lt (by omega)]
    by_cases hlt : idx < schema.length
    · rw [if_neg (by omega), getElem?_eq_getElem hlt]
      rfl
    · rw [if_pos (by omega), getElem?_eq_none (by omega)]

theorem checkValid_eq : (RowView.over schema row).checkValid idx type =
    if 2 ^ 31 ≤ idx then none else some (decide (schema[idx]? = some type)) := by
  have hvalid : ¬ ((RowView.over schema row).row = none ∨
      (RowView.over schema row).isValid = false) := by
    simp [RowView.over]
  unfold RowView.checkValid
  rw [if_neg hvalid, column_eq hcols hidx]
  by_cases hneg : 2 ^ 31 ≤ idx
  · rw [if_pos hneg, if_pos hneg]
    rfl
  · rw [if_neg hneg, if_neg hneg]
    rfl

variable (hread : schema[idx]? = some type → getSize row = some row.length ∧
  ¬ row.length ≤ headerLength)
include hread

theorem get_eq_lookup : (RowView.over schema row).get type idx = lookup schema row type idx := by
  unfold lookup
  by_cases htype : schema[idx]? = some type
  · have hlt : ¬ 2 ^ 31 ≤ idx := by
      have := (List.getElem?_eq_some_iff.mp htype).1
      omega
    rw [if_neg hlt, if_pos htype,
      RowView.get_eq_readColumn hcols (hread htype).1 (hread htype).2 htype]
  · have hvalid : (RowView.over schema row).checkValid idx type = _ := checkValid_eq hcols hidx
    have hfixed : (RowView.over schema row).getFixed type idx =
        if 2 ^ 31 ≤ idx then none else some (.error (-1)) := by
      unfold RowView.getFixed
      rw [hvalid]
      split <;> simp [htype]
    rw [if_neg htype, ← hfixed]
    by_cases hstr : type = .kVarchar
    · subst hstr
      rw [hfixed]
      simp only [RowView.get, RowView.getString, RowView.row_over, bind_eq_bind, bind_some, hvalid]
      split <;> simp [htype, fetchBytes]
    · exact RowView.get_eq_getFixed _ hstr

theorem getByRow_eq_lookup (hne : schema ≠ []) :
    (RowView.over schema row).getByRow row type idx = lookup schema row type idx := by
  unfold lookup
  by_cases htype : schema[idx]? = some type
  · have hlt : ¬ 2 ^ 31 ≤ idx := by
      have := (List.getElem?_eq_some_iff.mp htype).1
      omega
    rw [if_neg hlt, if_pos htype,
      RowView.getByRow_eq_readColumn hcols (hread htype).1 (hread htype).2 htype]
  · have hcolumn : (RowView.over schema row).column idx = _ := column_eq hcols hidx
    have hschema : ¬ (RowView.over schema row).schema.length = 0 := by
      simpa [RowView.over, RowView.new] using hne
    rw [if_neg htype]
    by_cases hstr : type = .kVarchar
    · subst hstr
      simp only [RowView.getByRow, RowView.getValueString, hcolumn, hschema, if_false, if_true]
      split <;> simp [htype, fetchBytes]
    · simp only [RowView.getByRow, RowView.getValue, hcolumn, hschema, hstr, if_false]
      split <;> simp [htype]

end Lookup

/-! ### Agreement on well-formed rows -/

/-- What every getter of a type has to report for a column. -/
def expected (schema : Schema) (vals : List Value) (type : ColumnType) (idx : Nat) : Fetch Value :=
  if schema[idx]? = some type then (vals[idx]?.map Value.fetch).getD (.error (-1))
  else .error (-1)

/-- All getters report the same for an index. -/
structure GettersAgree (view : RowView) (row : List Byte) (vals : List Value) (type : ColumnType)
    (idx : Nat) : Prop where
  isNULL : view.schema[idx]? = some type →
    isNullAt row idx = some (decide (expected view.schema vals type idx = .isNull))
  typed : view.get type idx = some (expected view.schema vals type idx)
  byRow : view.getByRow row type idx = some (expected view.schema vals type idx)
  integer : view.getInteger row idx type = some (if type.isInteger then
    (expected view.schema vals type idx).map Value.toInteger else .error (-1))
  date : type = .kDate → view.getDate idx = some ((expected view.schema vals type idx).map
    Value.toDate) ∧ view.getDateCode idx true = some (expected view.schema vals type idx)

/-- The types of which `GetInteger` hides NULL and errors. -/
def ColumnType.hidesNull (type : ColumnType) : Bool := type.isInteger && type != .kInt16

def Fetch.integer : Fetch Value → Int
  | .ok val => val.toInteger
  | _ => 0

section Agree

variable {schema : Schema} {vals : List Value} {row : List Byte} {type : ColumnType} {idx : Nat}

theorem expected_cases (htyped : Typed schema vals) (type : ColumnType) (idx : Nat) :
    (∃ val, schema[idx]? = some type ∧ vals[idx]? = some val ∧ val.HasType type ∧
      expected schema vals type idx = val.fetch) ∨
    schema[idx]? ≠ some type ∧ expected schema vals type idx = .error (-1) := by
  unfold expected
  by_cases htype : schema[idx]? = some type
  · obtain ⟨val, hval, hhas⟩ := htyped.exists_val htype
    exact Or.inl ⟨val, htype, hval, hhas, by simp [htype, hval]⟩
  · exact Or.inr ⟨htype, if_neg htype⟩

theorem getInteger_eq (view : RowView) {fetch}
    (hvalue : type ≠ .kVarchar → view.getValue row idx type = some fetch) :
    view.getInteger row idx type = some (
      if type.hidesNull then .ok fetch.integer
      else if type.isInteger then fetch.map Value.toInteger else .error (-1)) := by
  cases type <;> first
    | rfl
    | (simp only [RowView.getInteger, hvalue (nomatch ·)]; cases fetch <;> rfl)

variable (h : EncodedRow schema vals (getAddrLength row.length) row)
include h

theorem EncodedRow.lookup_eq (h32 : row.length < 2 ^ 32) (hlt : idx < 2 ^ 31) :
    lookup schema row type idx = some (expected schema vals type idx) := by
  unfold lookup
  rw [if_neg (by omega)]
  rcases expected_cases h.typed type idx with ⟨val, htype, hval, -, hexp⟩ | ⟨htype, hexp⟩
  · rw [if_pos htype, h.readColumn_eq h32 htype hval, hexp]
  · rw [if_neg htype, hexp]

theorem EncodedRow.isNullAt_eq (htype : schema[idx]? = some type) :
    isNullAt row idx = some (decide (expected schema vals type idx = .isNull)) := by
  rcases expected_cases h.typed type idx with ⟨val, -, hval, -, hexp⟩ | ⟨hne, -⟩
  · rw [h.null idx val hval, hexp]
    unfold Value.fetch
    by_cases hnull : val = .null <;> simp [hnull]
  · exact absurd htype hne

end Agree

/-- **The getters agree** for exactly the indices below `2 ^ 31` and the types without a wrong
branch; for an integer type other than `kInt16` only where there is a value. -/
theorem gettersAgree_iff {schema : Schema} {vals : List Value} {row : List Byte} {view : RowView}
    (h : EncodedRow schema vals (getAddrLength row.length) row) (hne : schema ≠ [])
    (hcols : schema.length < 2 ^ 31) (h32 : row.length < 2 ^ 32)
    (hview : RowView.ofRow schema row row.length = some view) {idx : Nat} (hidx : idx < 2 ^ 32)
    (type : ColumnType) :
    GettersAgree view row vals type idx ↔ idx < 2 ^ 31 ∧ type ≠ .kDate ∧
      (type.hidesNull → ∃ val, expected schema vals type idx = .ok val) := by
  rw [RowView.ofRow_eq h hne h32] at hview
  obtain rfl := Option.some.inj hview
  have hread : schema[idx]? = some type → getSize row = some row.length ∧
      ¬ row.length ≤ headerLength := fun htype => ⟨h.getSize_eq h32, h.headerLength_lt htype⟩
  have hget := get_eq_lookup hcols hidx hread
  have hbyRow := getByRow_eq_lookup hcols hidx hread hne
  have hinteger : idx < 2 ^ 31 → (RowView.over schema row).getInteger row idx type = _ := fun hlt =>
    getInteger_eq _ fun hstr => by
      rw [h.lookup_eq h32 hlt] at hbyRow
      exact (if_neg hstr).symm.trans hbyRow
  constructor
  · rintro ⟨-, htyped, -, hint, hdate⟩
    have hlt : idx < 2 ^ 31 := by
      by_contra hneg
      rw [hget] at htyped
      exact absurd ((if_pos (by omega)).symm.trans htyped) (by simp)
    rw [hinteger hlt] at hint
    have hvalue : type.hidesNull → ∃ val, expected schema vals type idx = .ok val := by
      intro hhides
      have hisInt : type.isInteger := (Bool.and_eq_true_iff.mp hhides).1
      rw [if_pos hhides, if_pos hisInt] at hint
      cases hexp : expected schema vals type idx with
      | ok val => exact ⟨val, rfl⟩
      | _ => simp [RowView.over, RowView.new, hexp, Fetch.map] at hint
    refine ⟨hlt, ?_, hvalue⟩
    -- the other overload of `GetDate` reports an error, `GetInteger` a value
    rintro rfl
    obtain ⟨val, hval⟩ := hvalue rfl
    have hcode := (hdate rfl).2
    simp [RowView.getDateCode, RowView.over, RowView.new, hval] at hcode
  · rintro ⟨hlt, hdate, hvalue⟩
    refine ⟨fun htype => h.isNullAt_eq htype, ?_, ?_, ?_, fun heq => absurd heq hdate⟩
    · rw [hget, h.lookup_eq h32 hlt]
      rfl
    · rw [hbyRow, h.lookup_eq h32 hlt]
      rfl
    · rw [hinteger hlt]
      by_cases hhides : type.hidesNull = true
      · have hisInt : type.isInteger := (Bool.and_eq_true_iff.mp hhides).1
        obtain ⟨val, hval⟩ := hvalue hhides
        simp [RowView.over, RowView.new, hhides, hisInt, hval, Fetch.map, Fetch.integer]
      · rw [if_neg hhides]
        rfl

/-- A row of one column, which is NULL. -/
def nullRow (type : ColumnType) : List Byte :=
  [1#8, 1#8] ++ leBytes 4 (7 + fixedWidth type) ++ 1#8 :: List.replicate (fixedWidth type) 0#8

theorem encodedRow_nullRow {type} (hne : type ≠ .kVarchar) :
    EncodedRow [type] [.null] (getAddrLength (nullRow type).length) (nullRow type) := by
  have hsingle : ∀ (i : Nat) (val : Value), [Value.null][i]? = some val → i = 0 ∧ val = .null := by
    intro i val hval
    cases i with
    | zero => exact ⟨rfl, by simpa using hval.symm⟩
    | succ i => simp at hval
  refine ⟨⟨rfl, fun i t val _ hval => ?_⟩, ?_, ?_, fun i val hval => ?_, fun i t val _ hval _ h => ?_,
    fun i htype => ?_, fun i bytes hval => ?_⟩
  · rw [(hsingle i val hval).2]
    trivial
  · cases type <;> first | decide | exact absurd rfl hne
  · cases type <;> rfl
  · obtain ⟨rfl, rfl⟩ := hsingle i val hval
    cases type <;> rfl
  · exact absurd (hsingle i val hval).2 h
  · cases i with
    | zero => exact absurd (Option.some.inj htype) hne
    | succ i => simp at htype
  · exact absurd (hsingle i _ hval).2 (by simp)

/-- The getters agree on a NULL of type `kInt16`. -/
theorem gettersAgree_null : ∃ view, RowView.ofRow [.kInt16] (nullRow .kInt16) 9 = some view ∧
    GettersAgree view (nullRow .kInt16) [.null] .kInt16 0 := by
  have h : EncodedRow [.kInt16] [.null] (getAddrLength (nullRow .kInt16).length) (nullRow .kInt16) :=
    encodedRow_nullRow (by decide)
  have hview := RowView.ofRow_eq h (by decide) (by decide)
  exact ⟨_, hview, (gettersAgree_iff h (by decide) (by decide) (by decide) hview (by decide)
    .kInt16).mpr ⟨by decide, by decide, fun hhides => absurd hhides (by decide)⟩⟩

/-- For a NULL of type `kInt32`, `GetInteger` returns 0 with the value zero. -/
theorem not_gettersAgree_null :
    EncodedRow [.kInt32] [.null] (getAddrLength (nullRow .kInt32).length) (nullRow .kInt32) ∧
      ∃ view, RowView.ofRow [.kInt32] (nullRow .kInt32) (nullRow .kInt32).length = some view ∧
        view.getInt32 0 = some .isNull ∧
        view.getInteger (nullRow .kInt32) 0 .kInt32 = some (.ok 0) ∧
        ¬ GettersAgree view (nullRow .kInt32) [.null] .kInt32 0 := by
  have h : EncodedRow [.kInt32] [.null] (getAddrLength (nullRow .kInt32).length) (nullRow .kInt32) :=
    encodedRow_nullRow (by decide)
  exact ⟨h, _, RowView.ofRow_eq h (by decide) (by decide), by decide, by decide,
    fun hagree => absurd hagree.integer (by decide)⟩

/-! ### Rows with arbitrary bytes -/

/-- The getters stay inside the row for an index. -/
structure ReadsInside (view : RowView) (row : List Byte) (type : ColumnType) (idx : Nat) : Prop where
  typed : view.get type idx ≠ none
  byRow : view.getByRow row type idx ≠ none
  isNULL : view.schema[idx]? = some type → isNullAt row idx ≠ none
  integer : view.getInteger row idx type ≠ none
  date : type = .kDate → view.getDate idx ≠ none ∧ view.getDateCode idx true ≠ none

/-- Where the address of a string stands. -/
def addrSlot (schema : Schema) (row : List Byte) (strIdx : Nat) : Nat :=
  toUInt32 (strStart schema) + toUInt32 (strIdx * getAddrLength row.length)

/-- The address there. -/
def addrAt (schema : Schema) (row : List Byte) (strIdx : Nat) : Nat :=
  addrNat (getAddrLength row.length)
    ((row.drop (addrSlot schema row strIdx)).take (getAddrLength row.length))

/-- Where the string of a column ends, as the row says. -/
def strEnd (schema : Schema) (row : List Byte) (i : Nat) : Nat :=
  if nextStr schema i = 0 then row.length else addrAt schema row (nextStr schema i)

/-- The addresses that a string needs are inside the row, and so is the string if its end is not
before its start. -/
structure StringInside (schema : Schema) (row : List Byte) (i : Nat) : Prop where
  addr : addrSlot schema row (strIndex schema i) + getAddrLength row.length ≤ row.length
  next : nextStr schema i ≠ 0 →
    addrSlot schema row (nextStr schema i) + getAddrLength row.length ≤ row.length
  body : addrAt schema row (strIndex schema i) ≤ strEnd schema row i →
    strEnd schema row i ≤ row.length

/-- What the bytes of a column have to be like. -/
structure CellInside (schema : Schema) (row : List Byte) (type : ColumnType) (i : Nat) : Prop where
  nullBit : headerLength + i / 8 < row.length
  string : type = .kVarchar → isNullAt row i = some false → StringInside schema row i
  fixed : type ≠ .kVarchar → isNullAt row i = some false →
    toUInt32 (fieldOffset schema i) + fixedWidth type ≤ row.length

section Inside

variable {schema : Schema} {row : List Byte} {type : ColumnType} {idx : Nat}

theorem load_ne_none_iff {off w} : load row off w ≠ none ↔ off + w ≤ row.length := by
  unfold load
  split <;> simp_all

theorem isNullAt_ne_none_iff : isNullAt row idx ≠ none ↔ headerLength + idx / 8 < row.length := by
  by_cases hlt : headerLength + idx / 8 < row.length
  · simp [isNullAt, hlt]
  · simp [isNullAt, Nat.not_lt.mp hlt]

theorem readAddr_eq_ite (strIdx : Nat) :
    readAddr row (toUInt32 (strStart schema)) (getAddrLength row.length) strIdx =
      if addrSlot schema row strIdx + getAddrLength row.length ≤ row.length then
        some (addrAt schema row strIdx) else none := by
  unfold readAddr load addrAt addrSlot
  split <;> rfl

/-- Either the string's end is before its start, which is an error, or it has to be inside. -/
theorem range_ne_none_iff {start stop} :
    ((if stop < start then some (Fetch.error (-3)) else some (.ok (start, stop - start))) >>=
      fetchBytes row) ≠ none ↔ (start ≤ stop → stop ≤ row.length) := by
  by_cases hlt : stop < start
  · simp [hlt, fetchBytes, Nat.not_le_of_lt hlt]
  · have hload : load row start (stop - start) ≠ none ↔ stop ≤ row.length := by
      rw [load_ne_none_iff]
      omega
    rw [if_neg hlt, forall_prop_of_true (Nat.not_lt.mp hlt), ← hload]
    cases h : load row start (stop - start) <;> simp [fetchBytes, h]

theorem string_ne_none_iff (hsize : getSize row = some row.length) :
    (getStrFieldUnsafe row (strIndex schema idx) (nextStr schema idx) (toUInt32 (strStart schema))
      (getAddrLength row.length) >>= fetchBytes row) ≠ none ↔ StringInside schema row idx := by
  unfold getStrFieldUnsafe
  rw [if_pos (getAddrLength_bounds row.length), readAddr_eq_ite, readAddr_eq_ite, hsize]
  by_cases haddr : addrSlot schema row (strIndex schema idx) + getAddrLength row.length ≤ row.length
  · rw [if_pos haddr]
    by_cases hnext : nextStr schema idx = 0
    · have hend : strEnd schema row idx = row.length := if_pos hnext
      simp only [hnext, if_true, bind_eq_bind, bind_some]
      refine range_ne_none_iff.trans ?_
      exact ⟨fun _ => ⟨haddr, absurd hnext, fun _ => hend.le⟩, fun _ _ => le_rfl⟩
    · have hend : strEnd schema row idx = addrAt schema row (nextStr schema idx) := if_neg hnext
      simp only [hnext, if_false, bind_eq_bind, bind_some]
      by_cases hslot : addrSlot schema row (nextStr schema idx) + getAddrLength row.length ≤
          row.length
      · simp only [hslot, if_true, bind_some]
        refine range_ne_none_iff.trans ?_
        rw [← hend]
        exact ⟨fun hbody => ⟨haddr, fun _ => hslot, hbody⟩, StringInside.body⟩
      · simp only [hslot, if_false, bind_none, ne_eq, not_true_eq_false, false_iff]
        exact fun hin => hslot (hin.next hnext)
  · simp only [haddr, if_false, bind_eq_bind, bind_none, ne_eq, not_true_eq_false, false_iff]
    exact fun hin => haddr hin.addr

theorem readColumn_ne_none_iff (hsize : getSize row = some row.length) :
    readColumn schema row type idx ≠ none ↔ CellInside schema row type idx := by
  unfold readColumn
  cases hnull : isNullAt row idx with
  | none =>
    refine iff_of_false (fun h => h rfl) fun hin => ?_
    exact isNullAt_ne_none_iff.mpr hin.nullBit hnull
  | some null =>
    have hbit := isNullAt_ne_none_iff.mp (hnull ▸ Option.some_ne_none null)
    cases null with
    | true => exact iff_of_true (by simp) ⟨hbit, by simp [hnull], by simp [hnull]⟩
    | false =>
      by_cases hstr : type = .kVarchar
      · simp only [hstr, bind_eq_bind, bind_some, if_true, Bool.false_eq_true, if_false]
        refine (string_ne_none_iff hsize).trans ?_
        exact ⟨fun hin => ⟨hbit, fun _ _ => hin, absurd rfl⟩, fun hin => hin.string rfl hnull⟩
      · simp only [hstr, bind_eq_bind, bind_some, Bool.false_eq_true, if_false]
        have hcell : CellInside schema row type idx ↔
            load row (toUInt32 (fieldOffset schema idx)) (fixedWidth type) ≠ none := by
          rw [load_ne_none_iff]
          exact ⟨fun hin => hin.fixed hstr hnull, fun hle => ⟨hbit, fun h => absurd h hstr,
            fun _ _ => hle⟩⟩
        rw [hcell]
        cases h : load row (toUInt32 (fieldOffset schema idx)) (fixedWidth type) <;>
          simp [getFieldUnsafe, h]

theorem getFixed_date {view : RowView} {val} (h : view.getFixed .kDate idx = some (.ok val)) :
    ∃ code, val = .date code := by
  unfold RowView.getFixed getFieldUnsafe at h
  simp only [Option.bind_eq_bind, Option.bind_eq_some_iff] at h
  obtain ⟨valid, -, h⟩ := h
  cases valid with
  | false => simp at h
  | true =>
    obtain ⟨row, -, -, offset, -, bytes, -, hval⟩ := by simpa [Option.bind_eq_some_iff] using h
    exact ⟨_, hval.symm⟩

theorem getDate_ne_none {view : RowView} (hget : view.getFixed .kDate idx ≠ none) :
    view.getDate idx ≠ none := by
  unfold RowView.getDate
  cases hfetch : view.getFixed .kDate idx with
  | none => exact absurd hfetch hget
  | some fetch =>
    cases fetch with
    | ok val =>
      obtain ⟨code, rfl⟩ := getFixed_date hfetch
      simp
    | _ => simp

/-- What `Reset` has checked. -/
theorem reset_eq_some {view}
    (hreset : (RowView.new schema).reset row row.length = some (true, view)) :
    schema ≠ [] ∧ ¬ row.length ≤ headerLength ∧ getSize row = some row.length ∧
      view = RowView.over schema row := by
  have hschema : (RowView.new schema).schema = schema := rfl
  unfold RowView.reset at hreset
  split at hreset
  · simp at hreset
  · cases hsize : getSize row with
    | none => simp [hsize] at hreset
    | some size =>
      simp only [hsize, bind_eq_bind, bind_some] at hreset
      split at hreset
      · simp at hreset
      · rename_i hguard heq
        have hview := (Prod.mk.inj (Option.some.inj hreset)).2
        simp_all [RowView.over]

end Inside

/-- **The getters stay inside an accepted row** for exactly the indices below `2 ^ 31` and, where
the column has the type, the bytes that `CellInside` describes. -/
theorem readsInside_iff {schema : Schema} {row : List Byte} {view : RowView}
    (hcols : schema.length < 2 ^ 31)
    (hreset : (RowView.new schema).reset row row.length = some (true, view)) {idx : Nat}
    (hidx : idx < 2 ^ 32) (type : ColumnType) :
    ReadsInside view row type idx ↔
      idx < 2 ^ 31 ∧ (schema[idx]? = some type → CellInside schema row type idx) := by
  obtain ⟨hne, hlen, hsize, rfl⟩ := reset_eq_some hreset
  have hread : schema[idx]? = some type → getSize row = some row.length ∧
      ¬ row.length ≤ headerLength := fun _ => ⟨hsize, hlen⟩
  have hget := get_eq_lookup hcols hidx hread
  have hbyRow := getByRow_eq_lookup hcols hidx hread hne
  have hlookup : lookup schema row type idx ≠ none ↔
      idx < 2 ^ 31 ∧ (schema[idx]? = some type → CellInside schema row type idx) := by
    unfold lookup
    by_cases hneg : 2 ^ 31 ≤ idx
    · rw [if_pos hneg]
      exact iff_of_false (fun h => h rfl) fun h => by omega
    · rw [if_neg hneg, ← readColumn_ne_none_iff hsize]
      by_cases htype : schema[idx]? = some type
      · rw [if_pos htype]
        exact ⟨fun h => ⟨by omega, fun _ => h⟩, fun h => h.2 htype⟩
      · rw [if_neg htype]
        exact iff_of_true (by simp) ⟨by omega, fun h => absurd h htype⟩
  rw [← hlookup]
  refine ⟨fun hin => hget ▸ hin.typed, fun hin => ⟨hget ▸ hin, hbyRow ▸ hin, fun htype => ?_, ?_, ?_⟩⟩
  · exact isNullAt_ne_none_iff.mpr ((hlookup.mp hin).2 htype).nullBit
  · obtain ⟨fetch, hfetch⟩ := Option.ne_none_iff_exists'.mp hin
    rw [getInteger_eq _ fun hstr => (if_neg hstr).symm.trans (hbyRow.trans hfetch)]
    simp
  · rintro rfl
    rw [RowView.get_eq_getFixed _ (by decide)] at hget
    exact ⟨getDate_ne_none (hget ▸ hin), by simp [RowView.getDateCode]⟩

/-- A row that ends before its only column is accepted, and the getter reads behind it. -/
theorem not_readsInside_short : ∃ view,
    (RowView.new [.kInt64]).reset [1#8, 1#8, 7#8, 0#8, 0#8, 0#8, 0#8] 7 = some (true, view) ∧
      ¬ ReadsInside view [1#8, 1#8, 7#8, 0#8, 0#8, 0#8, 0#8] .kInt64 0 := by
  refine ⟨RowView.over [.kInt64] [1#8, 1#8, 7#8, 0#8, 0#8, 0#8, 0#8], rfl, fun hin => ?_⟩
  exact hin.typed (by decide)

/-- On a row with a NULL all getters stay inside. -/
theorem readsInside_null : ∃ view,
    (RowView.new [.kInt16]).reset (nullRow .kInt16) (nullRow .kInt16).length = some (true, view) ∧
      ReadsInside view (nullRow .kInt16) .kInt16 0 := by
  have hreset : (RowView.new [.kInt16]).reset (nullRow .kInt16) (nullRow .kInt16).length =
      some (true, RowView.over [.kInt16] (nullRow .kInt16)) := rfl
  refine ⟨_, hreset, (readsInside_iff (by decide) hreset (by decide) .kInt16).mpr
    ⟨by decide, fun _ => ⟨by decide, fun h => absurd h (by decide), by decide⟩⟩⟩

end HybridSE.Codec
