import Mathlib.Order.Interval.Finset.Nat
import HybridSE.Codec.RowBuilder

/-!
# HybridSE.Codec.Layouts

The row layouts of `RowBuilder`, `RowView`, `RowFormat` and `BufNativeEncoderIRBuilder`, for
the default row format and for Spark's UnsafeRow, and for columns of every declared type.

Three of the four loops leave a string column out of the fixed-length part and number the
string columns. The encoder's loop gives a string column eight bytes of the fixed-length part
in the UnsafeRow format, so there the four agree only without string columns. A column of a
type without a size (`kBlob`, `kNull`) is skipped by `RowBuilder` and `RowFormat`, whose
vectors then are too short, and makes `RowView` invalid.

`OneLayout` says that the four agree and that header, bitmap, fields and addresses are
disjoint parts of the row; `oneLayout_iff` says when.
-/

namespace HybridSE.Codec

open HybridSE.Lib

/-- `type::Type`: also the types that rows do not support. -/
inductive DeclaredType
  | column (type : ColumnType)
  | kBlob
  | kNull
  deriving DecidableEq

/-- The row formats: `FLAGS_enable_spark_unsaferow_format` is off or on. -/
inductive Format
  | standard
  | unsafeRow
  deriving DecidableEq

/-- `BitMapSize`, which `GetBitmapSize` calls. -/
def bitMapSizeOf : Format → Nat → Nat
  | .standard, size => bitMapSize size
  | .unsafeRow, size => (size / 64 + if size % 128 = 0 then 0 else 1) * 8

/-- `GetStartOffset`. -/
def getStartOffset (format : Format) (columns : Nat) : Nat :=
  headerLength + bitMapSizeOf format columns

/-- `GetTypeSizeMap`. -/
def typeSizeOf : Format → DeclaredType → Option Nat
  | .standard, .column type => typeSize type
  | .unsafeRow, .column .kVarchar => none
  | .unsafeRow, .column _ => some 8
  | _, .kBlob => none
  | _, .kNull => none

/-! ### The four loops -/

/-- What a component knows about the rows of a schema. -/
structure RowPlan extends Layout where
  bitmapSize : Nat

/-- One round of the loop of `RowBuilder::RowBuilder`. -/
def rowBuilderStep (format : Format) (l : Layout) (type : DeclaredType) : Layout :=
  if type = .column .kVarchar then l.push none
  else match typeSizeOf format type with
    | none => l
    | some size => l.push (some size)

/-- `RowBuilder::RowBuilder`. -/
def rowBuilderPlan (format : Format) (schema : List DeclaredType) : RowPlan where
  toLayout := schema.foldl (rowBuilderStep format)
    (Layout.empty (headerLength + bitMapSizeOf format schema.length))
  bitmapSize := bitMapSizeOf format schema.length

/-- The loop of `RowView::Init`; `none` is the return value false. -/
def rowViewLoop (format : Format) : List DeclaredType → Layout → Option Layout
  | [], l => some l
  | type :: types, l =>
    if type = .column .kVarchar then rowViewLoop format types (l.push none)
    else match typeSizeOf format type with
      | none => none
      | some size => rowViewLoop format types (l.push (some size))

/-- `RowView::Init`. -/
def rowViewPlan (format : Format) (schema : List DeclaredType) : Option RowPlan := do
  let layout ← rowViewLoop format schema
    (Layout.empty (headerLength + bitMapSizeOf format schema.length))
  some { toLayout := layout, bitmapSize := bitMapSizeOf format schema.length }

/-- `ColInfo`. -/
structure ColInfo where
  type : DeclaredType
  idx : Nat
  offset : Nat

/-- The variables of the first loop of `RowFormat::RowFormat`. -/
structure RowFormatState where
  infos : List ColInfo
  stringFieldCnt : Nat
  offset : Nat

/-- One round of that loop. -/
def RowFormatState.step (format : Format) (s : RowFormatState) (column : DeclaredType × Nat) :
    RowFormatState :=
  if column.1 = .column .kVarchar then
    { s with
      infos := s.infos ++ [⟨column.1, column.2, s.stringFieldCnt⟩]
      stringFieldCnt := s.stringFieldCnt + 1 }
  else match typeSizeOf format column.1 with
    | none => s
    | some size =>
      { s with
        infos := s.infos ++ [⟨column.1, column.2, s.offset⟩]
        offset := toUInt32 (s.offset + size) }

/-- `RowFormat::RowFormat`. A column is looked up by its place in `infos_`. -/
def rowFormatPlan (format : Format) (schema : List DeclaredType) : RowPlan :=
  let s := schema.zipIdx.foldl (RowFormatState.step format)
    { infos := [], stringFieldCnt := 0, offset := toUInt32 (getStartOffset format schema.length) }
  { offsetVec := s.infos.map ColInfo.offset
    strFieldCnt := s.stringFieldCnt
    strFieldStartOffset := s.offset
    bitmapSize := bitMapSizeOf format schema.length }

/-- One round of the loop of `BufNativeEncoderIRBuilder::BufNativeEncoderIRBuilder`. -/
def encoderStep (format : Format) (l : Layout) (type : DeclaredType) : Layout :=
  match format with
  | .unsafeRow =>
    if type = .column .kVarchar then
      { l.push (some 8) with strFieldCnt := l.strFieldCnt + 1 }
    else l.push (some 8)
  | .standard =>
    if type = .column .kVarchar then l.push none
    else match typeSizeOf .standard type with
      | none => l
      | some size => l.push (some size)

/-- `BufNativeEncoderIRBuilder::BufNativeEncoderIRBuilder`, and the size of the bitmap that
`BuildEncode` clears. -/
def encoderPlan (format : Format) (schema : List DeclaredType) : RowPlan where
  toLayout := schema.foldl (encoderStep format)
    (Layout.empty (getStartOffset format schema.length))
  bitmapSize := bitMapSizeOf format schema.length

/-! ### One layout -/

/-- Two components agree about the rows of a schema. -/
structure SamePlan (schema : List DeclaredType) (p q : RowPlan) : Prop where
  bitmapSize : p.bitmapSize = q.bitmapSize
  /-- The byte offset of a fixed-length column, the number of a string column. -/
  columns : ∀ (i : Nat) (type : ColumnType), schema[i]? = some (.column type) →
    p.offsetVec[i]? = q.offsetVec[i]?
  strFieldStartOffset : p.strFieldStartOffset = q.strFieldStartOffset

namespace RowPlan

/-- The bytes of a fixed-length column. -/
def field (plan : RowPlan) (format : Format) (schema : List DeclaredType) (i : Nat) :
    Option (Finset Nat) := do
  let type ← schema[i]?
  let size ← typeSizeOf format type
  let offset ← plan.offsetVec[i]?
  some (Finset.Ico offset (offset + size))

/-- The bytes of the fixed-length columns. -/
def fields (plan : RowPlan) (format : Format) (schema : List DeclaredType) : List (Finset Nat) :=
  (List.range schema.length).filterMap (plan.field format schema)

/-- The parts of a row: header, bitmap, addresses, and the fixed-length columns. -/
def regions (plan : RowPlan) (format : Format) (schema : List DeclaredType) (addrLength : Nat) :
    List (Finset Nat) :=
  Finset.Ico 0 headerLength ::
    Finset.Ico headerLength (headerLength + plan.bitmapSize) ::
    Finset.Ico plan.strFieldStartOffset
      (plan.strFieldStartOffset + plan.strFieldCnt * addrLength) ::
    plan.fields format schema

end RowPlan

/-- The size of a row whose strings have the given length in all. -/
def builtSize (format : Format) (schema : List DeclaredType) (stringLength : Nat) : Nat :=
  totalLength schema.length (rowBuilderPlan format schema).strFieldStartOffset
    (rowBuilderPlan format schema).strFieldCnt stringLength

/-- All components have one layout, and its parts are disjoint parts of the row. -/
structure OneLayout (format : Format) (schema : List DeclaredType) (stringLength : Nat) :
    Prop where
  rowView : ∃ plan, rowViewPlan format schema = some plan ∧
    SamePlan schema (rowBuilderPlan format schema) plan
  rowFormat : SamePlan schema (rowBuilderPlan format schema) (rowFormatPlan format schema)
  encoder : SamePlan schema (rowBuilderPlan format schema) (encoderPlan format schema)
  /-- Every column has a bit of its own in the bitmap. -/
  bits : ∀ i < schema.length, i < 8 * (rowBuilderPlan format schema).bitmapSize
  disjoint : ((rowBuilderPlan format schema).regions format schema
    (getAddrLength (builtSize format schema stringLength))).Pairwise Disjoint
  inside : ∀ region ∈ (rowBuilderPlan format schema).regions format schema
      (getAddrLength (builtSize format schema stringLength)),
    region ⊆ Finset.range (builtSize format schema stringLength)

/-- Every column has a type that rows support. -/
def Supported (schema : List DeclaredType) : Prop :=
  ∀ type ∈ schema, ∃ columnType, type = DeclaredType.column columnType

/-- Where the addresses start, without wrap-around. -/
def addressStart (format : Format) (schema : List DeclaredType) : Nat :=
  getStartOffset format schema.length +
    ((schema.map (typeSizeOf format)).map sizeRoom).sum

/-- The number of string columns. -/
def stringCount (schema : List DeclaredType) : Nat := schema.count (.column .kVarchar)

/-- The size of a row, without wrap-around: addresses are as narrow as the row allows. -/
def plainLength (start count stringLength : Nat) : Nat :=
  if start + stringLength + count ≤ 255 then start + stringLength + count
  else if start + stringLength + count * 2 ≤ 65535 then start + stringLength + count * 2
  else if start + stringLength + count * 3 ≤ 2 ^ 24 - 1 then start + stringLength + count * 3
  else start + stringLength + count * 4

/-- When there is one layout. -/
structure LayoutFits (format : Format) (schema : List DeclaredType) (stringLength : Nat) :
    Prop where
  nonempty : schema ≠ []
  supported : Supported schema
  noString : format = .unsafeRow → .column .kVarchar ∉ schema
  fits : plainLength (addressStart format schema) (stringCount schema) stringLength < 2 ^ 32

/-! ### The loops agree -/

section Loops

variable {format : Format} {schema : List DeclaredType}

theorem rowBuilderStep_column (format : Format) (l : Layout) (type : ColumnType) :
    rowBuilderStep format l (.column type) = l.push (typeSizeOf format (.column type)) := by
  cases format <;> cases type <;> rfl

theorem foldl_rowBuilderStep (h : Supported schema) (l : Layout) :
    schema.foldl (rowBuilderStep format) l =
      (schema.map (typeSizeOf format)).foldl Layout.push l := by
  induction schema generalizing l with
  | nil => rfl
  | cons type types ih =>
    obtain ⟨columnType, rfl⟩ := h type List.mem_cons_self
    rw [List.foldl_cons, rowBuilderStep_column]
    exact ih (fun t ht => h t (List.mem_cons_of_mem _ ht)) _

/-- `RowView::Init` returns true for supported columns only, and then it has run the loop of the
builder. -/
theorem rowViewLoop_eq_some_iff {l l'} :
    rowViewLoop format schema l = some l' ↔
      Supported schema ∧ schema.foldl (rowBuilderStep format) l = l' := by
  induction schema generalizing l with
  | nil =>
    refine Option.some_inj.trans (iff_of_eq ?_)
    simp [Supported]
  | cons type types ih =>
    have hcons : Supported (type :: types) ↔
        (∃ columnType, type = .column columnType) ∧ Supported types := List.forall_mem_cons
    rw [hcons, List.foldl_cons]
    unfold rowViewLoop
    cases type with
    | column columnType =>
      have htype : ∃ t, DeclaredType.column columnType = .column t := ⟨_, rfl⟩
      simp only [htype, true_and]
      rw [← ih]
      cases format <;> cases columnType <;> rfl
    | kBlob => cases format <;> simp [typeSizeOf]
    | kNull => cases format <;> simp [typeSizeOf]

theorem rowViewPlan_eq_some_iff {plan} :
    rowViewPlan format schema = some plan ↔
      Supported schema ∧ rowBuilderPlan format schema = plan := by
  unfold rowViewPlan
  constructor
  · intro h
    obtain ⟨l, hl, h⟩ := Option.bind_eq_some_iff.mp h
    obtain ⟨hs, rfl⟩ := rowViewLoop_eq_some_iff.mp hl
    exact ⟨hs, Option.some.inj h⟩
  · rintro ⟨hs, rfl⟩
    rw [rowViewLoop_eq_some_iff.mpr ⟨hs, rfl⟩]
    rfl

/-- The variables of `RowFormat`'s loop as those of the builder's. -/
def RowFormatState.toLayout (s : RowFormatState) : Layout where
  offsetVec := s.infos.map ColInfo.offset
  strFieldCnt := s.stringFieldCnt
  strFieldStartOffset := s.offset

theorem RowFormatState.toLayout_step (s : RowFormatState) (column : DeclaredType × Nat) :
    (s.step format column).toLayout = rowBuilderStep format s.toLayout column.1 := by
  unfold RowFormatState.step rowBuilderStep
  split
  · simp [toLayout, Layout.push]
  · cases typeSizeOf format column.1 with
    | none => rfl
    | some size => simp [toLayout, Layout.push]

theorem RowFormatState.toLayout_foldl (format : Format) (columns : List (DeclaredType × Nat))
    (s : RowFormatState) :
    (columns.foldl (RowFormatState.step format) s).toLayout =
      (columns.map Prod.fst).foldl (rowBuilderStep format) s.toLayout := by
  induction columns generalizing s with
  | nil => rfl
  | cons column columns ih =>
    rw [List.foldl_cons, ih, toLayout_step, List.map_cons, List.foldl_cons]

theorem rowFormatPlan_eq : rowFormatPlan format schema = rowBuilderPlan format schema := by
  have h := RowFormatState.toLayout_foldl format schema.zipIdx
    ⟨[], 0, toUInt32 (getStartOffset format schema.length)⟩
  rw [List.zipIdx_map_fst] at h
  rw [RowPlan.mk.injEq]
  exact ⟨h, rfl⟩

theorem encoderPlan_standard : encoderPlan .standard schema = rowBuilderPlan .standard schema := rfl

theorem encoderPlan_unsafeRow (hs : Supported schema) (h : .column .kVarchar ∉ schema) :
    encoderPlan .unsafeRow schema = rowBuilderPlan .unsafeRow schema := by
  have hfold : ∀ (types : List DeclaredType) (l : Layout), Supported types →
      .column .kVarchar ∉ types →
        types.foldl (encoderStep .unsafeRow) l = types.foldl (rowBuilderStep .unsafeRow) l := by
    intro types
    induction types with
    | nil => exact fun _ _ _ => rfl
    | cons type types ih =>
      intro l hs h
      rw [List.mem_cons, not_or] at h
      obtain ⟨columnType, rfl⟩ := hs type List.mem_cons_self
      have hstep : encoderStep .unsafeRow l (.column columnType) =
          rowBuilderStep .unsafeRow l (.column columnType) := by
        cases columnType with
        | kVarchar => exact absurd rfl h.1
        | _ => rfl
      rw [List.foldl_cons, hstep]
      exact ih _ (fun t ht => hs t (List.mem_cons_of_mem _ ht)) h.2
  rw [RowPlan.mk.injEq]
  exact ⟨hfold schema _ hs h, rfl⟩

/-- In the UnsafeRow format every column of the encoder takes eight bytes. -/
theorem foldl_encoderStep_unsafeRow (l l' : Layout) (hvec : l.offsetVec = l'.offsetVec)
    (hstart : l.strFieldStartOffset = l'.strFieldStartOffset) :
    (schema.foldl (encoderStep .unsafeRow) l).offsetVec =
        ((schema.map fun _ => some 8).foldl Layout.push l').offsetVec ∧
      (schema.foldl (encoderStep .unsafeRow) l).strFieldStartOffset =
        ((schema.map fun _ => some 8).foldl Layout.push l').strFieldStartOffset := by
  induction schema generalizing l l' with
  | nil => exact ⟨hvec, hstart⟩
  | cons type types ih =>
    refine ih _ _ ?_ ?_
    · by_cases htype : type = .column .kVarchar <;>
        simp [encoderStep, Layout.push, htype, hvec, hstart]
    · by_cases htype : type = .column .kVarchar <;>
        simp [encoderStep, Layout.push, htype, hstart]

/-- What the loop of the builder computes. -/
theorem rowBuilderPlan_spec (format : Format) (h : Supported schema) :
    (rowBuilderPlan format schema).strFieldCnt =
        ((schema.map (typeSizeOf format)).map stringRoom).sum ∧
      (rowBuilderPlan format schema).strFieldStartOffset =
        toUInt32 (addressStart format schema) ∧
      ∀ i type, schema[i]? = some type → (rowBuilderPlan format schema).offsetVec[i]? =
        some (if typeSizeOf format type = none
          then prefixSum stringRoom (schema.map (typeSizeOf format)) i
          else toUInt32 (getStartOffset format schema.length +
            prefixSum sizeRoom (schema.map (typeSizeOf format)) i)) := by
  obtain ⟨-, hcnt, hstart, hvec⟩ :=
    Layout.foldl_push (getStartOffset format schema.length) (schema.map (typeSizeOf format))
  rw [← foldl_rowBuilderStep h] at hcnt hstart hvec
  exact ⟨hcnt, hstart, fun i type htype =>
    hvec i _ (by rw [List.getElem?_map, htype]; rfl)⟩

/-- The number of a string column and the offset that the encoder gives it differ, at least
for the first one. -/
theorem not_samePlan_of_string (hs : Supported schema) (h : .column .kVarchar ∈ schema) :
    ¬ SamePlan schema (rowBuilderPlan .unsafeRow schema) (encoderPlan .unsafeRow schema) := by
  intro hsame
  obtain ⟨before, after, rfl, hbefore⟩ := List.eq_append_cons_of_mem h
  have hget : (before ++ .column .kVarchar :: after)[before.length]? =
      some (DeclaredType.column .kVarchar) := by simp
  have hcolumn := hsame.columns before.length .kVarchar hget
  have hbuilder := (rowBuilderPlan_spec .unsafeRow hs).2.2 before.length _ hget
  have hencoder : (encoderPlan .unsafeRow (before ++ .column .kVarchar :: after)).offsetVec = _ :=
    (foldl_encoderStep_unsafeRow _ _ rfl rfl).1
  rw [hbuilder, hencoder, (Layout.foldl_push _ _).2.2.2 before.length (some 8)
    (by rw [List.getElem?_map, hget]; rfl)] at hcolumn
  -- no string column is before it, and the other offsets are six modulo eight
  have hzero : prefixSum stringRoom ((before ++ .column .kVarchar :: after).map
      (typeSizeOf .unsafeRow)) before.length = 0 := by
    rw [prefixSum_map]
    unfold prefixSum
    rw [List.take_left]
    refine List.sum_eq_zero fun n hn => ?_
    obtain ⟨type, htype, rfl⟩ := List.mem_map.mp hn
    obtain ⟨columnType, rfl⟩ := hs type (List.mem_append_left _ htype)
    cases columnType with
    | kVarchar => exact absurd htype hbefore
    | _ => rfl
  have height : prefixSum sizeRoom ((before ++ .column .kVarchar :: after).map
      fun _ => some 8) before.length = before.length * 8 := by
    simp [prefixSum, sizeRoom]
  rw [hzero, height] at hcolumn
  simp [typeSizeOf, getStartOffset, bitMapSizeOf, headerLength, toUInt32] at hcolumn
  omega

theorem sum_stringRoom (h : Supported schema) :
    ((schema.map (typeSizeOf format)).map stringRoom).sum = stringCount schema := by
  induction schema with
  | nil => rfl
  | cons type types ih =>
    obtain ⟨columnType, rfl⟩ := h type List.mem_cons_self
    have htypes := ih fun t ht => h t (List.mem_cons_of_mem _ ht)
    unfold stringCount at htypes ⊢
    rw [List.map_cons, List.map_cons, List.sum_cons, htypes, List.count_cons, Nat.add_comm]
    cases format <;> cases columnType <;> rfl

end Loops

/-! ### The size of the row -/

theorem totalLength_lt (columns start count stringLength : Nat) :
    totalLength columns start count stringLength < 2 ^ 32 := by
  unfold totalLength toUInt32
  dsimp only
  split
  · decide
  · repeat (split <;> try omega)

section Size

variable {columns start count stringLength : Nat}

theorem plainLength_le : plainLength start count stringLength ≤ start + stringLength + count * 4 := by
  unfold plainLength
  split_ifs <;> omega

theorem wide_lt_of_plainLength_lt (h : plainLength start count stringLength < 2 ^ 32) :
    start + stringLength + count * 4 < 2 ^ 32 := by
  unfold plainLength at h
  split_ifs at h <;> omega

theorem withAddr_eq_mod (start count stringLength width : Nat) :
    toUInt32 (toUInt32 (start + stringLength) + toUInt32 (count * width)) =
      (start + stringLength + count * width) % 2 ^ 32 :=
  (Nat.add_mod _ _ _).symm

/-- Without wrap-around the addresses fit into the row. -/
theorem totalLength_of_plainLength_lt (hcolumns : columns ≠ 0)
    (h : plainLength start count stringLength < 2 ^ 32) :
    totalLength columns start count stringLength = plainLength start count stringLength ∧
      start + count * getAddrLength (plainLength start count stringLength) ≤
        plainLength start count stringLength := by
  have hwide := wide_lt_of_plainLength_lt h
  have haddr : ∀ width ≤ 4, (start + stringLength + count * width) % 2 ^ 32 =
      start + stringLength + count * width := by
    intro width hwidth
    have hmul := Nat.mul_le_mul_left count hwidth
    exact Nat.mod_eq_of_lt (by omega)
  constructor
  · unfold totalLength plainLength
    simp only [withAddr_eq_mod]
    rw [haddr 1 (by decide), haddr 2 (by decide), haddr 3 (by decide), haddr 4 (by decide),
      if_neg hcolumns, Nat.mul_one,
      if_pos (show start + stringLength + count * 4 ≤ 2 ^ 32 - 1 by omega)]
  · have hwidth := getAddrLength_cases (plainLength start count stringLength)
    unfold plainLength at hwidth ⊢
    split_ifs at hwidth ⊢ <;> rcases hwidth with hw | hw | hw | hw <;> rw [hw.1] <;> omega

/-- The addresses have the width that the size was computed with, unless the size has
wrapped to less than the number of strings. -/
theorem totalLength_eq_mod (hcolumns : columns ≠ 0)
    (hcount : count ≤ totalLength columns start count stringLength) :
    totalLength columns start count stringLength = (start + stringLength +
      count * getAddrLength (totalLength columns start count stringLength)) % 2 ^ 32 := by
  have hwidth := getAddrLength_cases (totalLength columns start count stringLength)
  revert hwidth hcount
  unfold totalLength
  simp only [withAddr_eq_mod]
  split_ifs <;> intro hcount hwidth <;> rcases hwidth with hw | hw | hw | hw <;> rw [hw.1] <;> omega

/-- Where the addresses fit into the row there was no wrap-around. -/
theorem plainLength_lt_of_le (hcolumns : columns ≠ 0) (hstring : stringLength < 2 ^ 32)
    (h : start + count * getAddrLength (totalLength columns start count stringLength) ≤
      totalLength columns start count stringLength) :
    plainLength start count stringLength < 2 ^ 32 := by
  have hwidth := getAddrLength_cases (totalLength columns start count stringLength)
  have hcount : count ≤ totalLength columns start count stringLength := by
    have hmul := Nat.le_mul_of_pos_right count
      (getAddrLength_bounds (totalLength columns start count stringLength)).1
    omega
  have hmod := totalLength_eq_mod hcolumns hcount
  refine Nat.lt_of_le_of_lt plainLength_le ?_
  rcases hwidth with hw | hw | hw | hw <;> rw [hw.1] at h hmod <;> omega

end Size

/-! ### The length that the builder reports -/

section Reported

variable (schema : Schema) (stringLength : Nat)

/-- `CalTotalLength` gives zero, or a sum that is exact and whose addresses have the width that
is read off it later; and zero if the sum needs more than 32 bits. -/
structure LengthExact : Prop where
  exact : (RowBuilder.new schema).calTotalLength stringLength ≠ 0 →
    (RowBuilder.new schema).calTotalLength stringLength = strStart schema + stringLength +
      strCount schema * getAddrLength ((RowBuilder.new schema).calTotalLength stringLength)
  overflow : 2 ^ 32 ≤ plainLength (strStart schema) (strCount schema) stringLength →
    (RowBuilder.new schema).calTotalLength stringLength = 0

/-- The wrapped sum for some width is zero, and those for smaller widths leave their brackets. -/
def WrapsToZero : Prop :=
  ∃ width ∈ [1, 2, 3, 4],
    (strStart schema + stringLength + strCount schema * width) % 2 ^ 32 = 0 ∧
      ∀ w ∈ [1, 2, 3], w < width →
        2 ^ (8 * w) ≤ (strStart schema + stringLength + strCount schema * w) % 2 ^ 32

variable {schema stringLength}

/-- The sums of the builder are those of the exact lengths, modulo `2 ^ 32`. -/
theorem calTotalLength_new :
    (RowBuilder.new schema).calTotalLength stringLength =
      totalLength schema.length (strStart schema) (strCount schema) stringLength := by
  have hstart : (RowBuilder.new schema).strFieldStartOffset = toUInt32 (strStart schema) :=
    (layoutLoop_spec _ schema).2.2.1
  have hcount : (RowBuilder.new schema).strFieldCnt = strCount schema :=
    layoutLoop_strFieldCnt schema _
  rw [RowBuilder.calTotalLength, hstart, hcount]
  unfold totalLength
  rw [toUInt32_toUInt32_add]
  rfl

/-- The reported length is right exactly without columns, if the sum needs at most 32 bits, or
if what is left of it is zero. -/
theorem lengthExact_iff (schema : Schema) (stringLength : Nat) :
    LengthExact schema stringLength ↔
      schema = [] ∨ plainLength (strStart schema) (strCount schema) stringLength < 2 ^ 32 ∨
        WrapsToZero schema stringLength := by
  by_cases hne : schema = []
  · subst hne
    exact iff_of_true ⟨fun h => absurd rfl h, fun _ => rfl⟩ (.inl rfl)
  rw [or_iff_right hne]
  have hlength : schema.length ≠ 0 := fun h => hne (List.length_eq_zero_iff.mp h)
  by_cases hlt : plainLength (strStart schema) (strCount schema) stringLength < 2 ^ 32
  · refine iff_of_true ⟨fun _ => ?_, fun h => absurd hlt (Nat.not_lt.mpr h)⟩ (.inl hlt)
    rw [calTotalLength_new, (totalLength_of_plainLength_lt hlength hlt).1]
    have hwidth := getAddrLength_cases
      (plainLength (strStart schema) (strCount schema) stringLength)
    unfold plainLength at hwidth ⊢
    split_ifs at hwidth ⊢ <;> rcases hwidth with hw | hw | hw | hw <;> rw [hw.1] <;> omega
  · -- a sum that needs more is only reported right as zero
    have hzero : LengthExact schema stringLength ↔
        (RowBuilder.new schema).calTotalLength stringLength = 0 :=
      ⟨fun h => h.overflow (Nat.not_lt.mp hlt), fun h => ⟨fun hnot => absurd h hnot, fun _ => h⟩⟩
    rw [hzero, calTotalLength_new]
    unfold totalLength WrapsToZero
    simp only [withAddr_eq_mod, List.mem_cons, List.not_mem_nil, or_false,
      exists_eq_or_imp, exists_eq_left, forall_eq_or_imp, forall_eq]
    split_ifs <;> omega

/-- One string of `2 ^ 32 - 1` bytes: the reported length is that of the fixed part. -/
theorem not_lengthExact_wrapped :
    (RowBuilder.new [.kVarchar]).calTotalLength (2 ^ 32 - 1) = 7 ∧
      ¬ LengthExact [.kVarchar] (2 ^ 32 - 1) := by
  have hlength : (RowBuilder.new [.kVarchar]).calTotalLength (2 ^ 32 - 1) = 7 := by decide
  refine ⟨hlength, fun h => ?_⟩
  have hzero := h.overflow (by decide)
  omega

end Reported

/-! ### The parts of the row -/

variable {a b n : Nat}

theorem disjoint_Ico_of_le {c d} (h : b ≤ c) : Disjoint (Finset.Ico a b) (Finset.Ico c d) := by
  rw [Finset.disjoint_left]
  intro x hx hx'
  rw [Finset.mem_Ico] at hx hx'
  omega

theorem Ico_subset_range (h : b ≤ n) : Finset.Ico a b ⊆ Finset.range n := by
  intro x hx
  rw [Finset.mem_Ico] at hx
  exact Finset.mem_range.mpr (by omega)

theorem le_of_Ico_subset_range (hlt : a < b) (h : Finset.Ico a b ⊆ Finset.range n) : b ≤ n := by
  have hlast := Finset.mem_range.mp (h (Finset.mem_Ico.mpr ⟨Nat.le_sub_one_of_lt hlt, by omega⟩))
  omega

theorem lt_bitMapSizeOf (format : Format) {i} (h : i < n) : i < 8 * bitMapSizeOf format n := by
  cases format with
  | standard =>
    show i < 8 * bitMapSize n
    unfold bitMapSize
    split <;> omega
  | unsafeRow =>
    -- the rounding adds a word too many for some multiples of 64, and never one too few
    show i < 8 * ((n / 64 + if n % 128 = 0 then 0 else 1) * 8)
    split <;> omega

section Regions

variable {format : Format} {schema : List DeclaredType}

theorem field_eq_some_iff (hs : Supported schema) {i region} :
    (rowBuilderPlan format schema).field format schema i = some region ↔
      ∃ size, (schema.map (typeSizeOf format))[i]? = some (some size) ∧
        region = Finset.Ico
          (toUInt32 (getStartOffset format schema.length +
            prefixSum sizeRoom (schema.map (typeSizeOf format)) i))
          (toUInt32 (getStartOffset format schema.length +
            prefixSum sizeRoom (schema.map (typeSizeOf format)) i) + size) := by
  have hvec := (rowBuilderPlan_spec format hs).2.2 i
  unfold RowPlan.field
  rw [List.getElem?_map]
  cases htype : schema[i]? with
  | none => simp
  | some type =>
    rw [hvec type htype]
    cases hsize : typeSizeOf format type with
    | none => simp [hsize]
    | some size =>
      simp [Option.bind_eq_bind, Option.bind_some, hsize, Option.map_some, Option.some.injEq,
        exists_eq_left', eq_comm]

theorem pos_of_typeSizeOf {type width} (h : typeSizeOf format type = some width) : 0 < width := by
  cases type with
  | column columnType =>
    cases format <;> cases columnType <;>
      simp only [typeSizeOf, typeSize, Option.some.injEq, reduceCtorEq] at h <;> omega
  | kBlob => cases format <;> cases h
  | kNull => cases format <;> cases h

theorem pos_of_getElem? {i width : Nat}
    (h : (schema.map (typeSizeOf format))[i]? = some (some width)) : 0 < width := by
  rw [List.getElem?_map, Option.map_eq_some_iff] at h
  obtain ⟨type, -, htype⟩ := h
  exact pos_of_typeSizeOf htype

theorem mem_fields_iff {plan : RowPlan} {region} :
    region ∈ plan.fields format schema ↔ ∃ i, plan.field format schema i = some region := by
  unfold RowPlan.fields
  rw [List.mem_filterMap]
  refine ⟨fun ⟨i, _, h⟩ => ⟨i, h⟩, fun ⟨i, h⟩ => ⟨i, ?_, h⟩⟩
  rw [List.mem_range]
  by_contra hlt
  rw [Nat.not_lt] at hlt
  unfold RowPlan.field at h
  rw [List.getElem?_eq_none hlt] at h
  cases h

section Fits

variable (hs : Supported schema) (hstart : addressStart format schema < 2 ^ 32)
include hs hstart

/-- Without wrap-around the fields are where they should be. -/
theorem field_of_addressStart_lt {i region}
    (h : (rowBuilderPlan format schema).field format schema i = some region) :
    ∃ size, (schema.map (typeSizeOf format))[i]? = some (some size) ∧
      region = Finset.Ico
        (getStartOffset format schema.length +
          prefixSum sizeRoom (schema.map (typeSizeOf format)) i)
        (getStartOffset format schema.length +
          prefixSum sizeRoom (schema.map (typeSizeOf format)) (i + 1)) := by
  obtain ⟨size, hsize, rfl⟩ := (field_eq_some_iff hs).mp h
  have hle := prefixSum_le_sum sizeRoom (schema.map (typeSizeOf format)) i
  unfold addressStart at hstart
  refine ⟨size, hsize, ?_⟩
  rw [toUInt32_of_lt (by omega), prefixSum_succ sizeRoom hsize, Nat.add_assoc]
  rfl

theorem fields_disjoint :
    ((rowBuilderPlan format schema).fields format schema).Pairwise Disjoint := by
  unfold RowPlan.fields
  rw [List.pairwise_filterMap]
  refine List.pairwise_lt_range.imp fun {i j} hij region hregion region' hregion' => ?_
  obtain ⟨size, hsize, rfl⟩ := field_of_addressStart_lt hs hstart hregion
  obtain ⟨size', hsize', rfl⟩ := field_of_addressStart_lt hs hstart hregion'
  exact disjoint_Ico_of_le (Nat.add_le_add_left (prefixSum_mono _ _ hij) _)

theorem strFieldStartOffset_of_lt :
    (rowBuilderPlan format schema).strFieldStartOffset = addressStart format schema := by
  rw [(rowBuilderPlan_spec format hs).2.1, toUInt32_of_lt hstart]

theorem regions_disjoint (addrLength : Nat) :
    ((rowBuilderPlan format schema).regions format schema addrLength).Pairwise Disjoint := by
  have hfield : ∀ region ∈ (rowBuilderPlan format schema).fields format schema,
      ∃ a b, region = Finset.Ico a b ∧ getStartOffset format schema.length ≤ a ∧
        b ≤ addressStart format schema := by
    intro region hregion
    obtain ⟨i, hi⟩ := mem_fields_iff.mp hregion
    obtain ⟨size, -, rfl⟩ := field_of_addressStart_lt hs hstart hi
    exact ⟨_, _, rfl, Nat.le_add_right _ _, Nat.add_le_add_left (prefixSum_le_sum _ _ _) _⟩
  have hle : getStartOffset format schema.length ≤ addressStart format schema :=
    Nat.le_add_right _ _
  unfold RowPlan.regions
  rw [strFieldStartOffset_of_lt hs hstart]
  simp only [List.pairwise_cons, List.forall_mem_cons]
  refine ⟨⟨disjoint_Ico_of_le (Nat.le_refl _), disjoint_Ico_of_le ?_, ?_⟩,
    ⟨disjoint_Ico_of_le hle, ?_⟩, ?_, fields_disjoint hs hstart⟩
  · exact (Nat.le_add_right _ _).trans hle
  · intro region hregion
    obtain ⟨a, b, rfl, ha, -⟩ := hfield region hregion
    exact disjoint_Ico_of_le ((Nat.le_add_right _ _).trans ha)
  · intro region hregion
    obtain ⟨a, b, rfl, ha, -⟩ := hfield region hregion
    exact disjoint_Ico_of_le ha
  · intro region hregion
    obtain ⟨a, b, rfl, -, hb⟩ := hfield region hregion
    exact (disjoint_Ico_of_le hb).symm

theorem regions_subset {addrLength size : Nat}
    (hsize : addressStart format schema + stringCount schema * addrLength ≤ size) :
    ∀ region ∈ (rowBuilderPlan format schema).regions format schema addrLength,
      region ⊆ Finset.range size := by
  have hle : getStartOffset format schema.length ≤ addressStart format schema :=
    Nat.le_add_right _ _
  have hcnt : (rowBuilderPlan format schema).strFieldCnt = stringCount schema :=
    (rowBuilderPlan_spec format hs).1.trans (sum_stringRoom hs)
  unfold RowPlan.regions
  rw [strFieldStartOffset_of_lt hs hstart, hcnt]
  simp only [List.forall_mem_cons]
  refine ⟨Ico_subset_range ?_, Ico_subset_range ?_, Ico_subset_range hsize, ?_⟩
  · have : headerLength ≤ getStartOffset format schema.length := Nat.le_add_right _ _
    omega
  · have : headerLength + (rowBuilderPlan format schema).bitmapSize =
        getStartOffset format schema.length := rfl
    omega
  · intro region hregion
    obtain ⟨i, hi⟩ := mem_fields_iff.mp hregion
    obtain ⟨width, -, rfl⟩ := field_of_addressStart_lt hs hstart hi
    have hsum := prefixSum_le_sum sizeRoom (schema.map (typeSizeOf format)) (i + 1)
    refine Ico_subset_range ?_
    unfold addressStart at hsize
    omega

end Fits

/-- If every part is inside the row, no field starts behind a wrap-around. -/
theorem addressStart_lt_of_inside (hs : Supported schema) {addrLength size : Nat}
    (hsize : size < 2 ^ 32)
    (h : ∀ region ∈ (rowBuilderPlan format schema).regions format schema addrLength,
      region ⊆ Finset.range size) : addressStart format schema < 2 ^ 32 := by
  unfold RowPlan.regions at h
  simp only [List.forall_mem_cons] at h
  obtain ⟨-, hbitmap, -, hfields⟩ := h
  -- the offsets behind the columns are below `2 ^ 32` one after the other
  have hprefix : ∀ i, getStartOffset format schema.length +
      prefixSum sizeRoom (schema.map (typeSizeOf format)) i < 2 ^ 32 := by
    intro i
    induction i with
    | zero =>
      rw [prefixSum_zero]
      by_cases hzero : (rowBuilderPlan format schema).bitmapSize = 0
      · have : getStartOffset format schema.length = headerLength :=
          congrArg (headerLength + ·) hzero
        rw [this]
        decide
      · have hlt := Nat.lt_add_of_pos_right (n := headerLength) (Nat.pos_of_ne_zero hzero)
        exact Nat.lt_of_le_of_lt (le_of_Ico_subset_range hlt hbitmap) hsize
    | succ i ih =>
      cases hget : (schema.map (typeSizeOf format))[i]? with
      | none =>
        rw [prefixSum_of_length_le _ (List.getElem?_eq_none_iff.mp hget)] at ih
        rwa [prefixSum_of_length_le _ ((List.getElem?_eq_none_iff.mp hget).trans
          (Nat.le_succ i))]
      | some width =>
        rw [prefixSum_succ _ hget]
        cases width with
        | none => exact ih
        | some width =>
          have hregion := hfields _ (mem_fields_iff.mpr
            ⟨i, (field_eq_some_iff hs).mpr ⟨width, hget, rfl⟩⟩)
          rw [toUInt32_of_lt ih] at hregion
          have hpos := pos_of_getElem? hget
          have hle := le_of_Ico_subset_range (by omega) hregion
          rw [← Nat.add_assoc]
          exact Nat.lt_of_le_of_lt hle hsize
  have hlast := hprefix (schema.map (typeSizeOf format)).length
  rwa [prefixSum_length] at hlast

/-- If every part is inside the row, so is the end of the addresses. -/
theorem addresses_le_of_inside (hs : Supported schema) (hne : schema ≠ [])
    (hstart : addressStart format schema < 2 ^ 32) {addrLength size : Nat} (haddr : 0 < addrLength)
    (h : ∀ region ∈ (rowBuilderPlan format schema).regions format schema addrLength,
      region ⊆ Finset.range size) :
    addressStart format schema + stringCount schema * addrLength ≤ size := by
  have hcnt : (rowBuilderPlan format schema).strFieldCnt = stringCount schema :=
    (rowBuilderPlan_spec format hs).1.trans (sum_stringRoom hs)
  unfold RowPlan.regions at h
  rw [strFieldStartOffset_of_lt hs hstart, hcnt] at h
  simp only [List.forall_mem_cons] at h
  obtain ⟨-, -, haddresses, hfields⟩ := h
  by_cases hzero : stringCount schema = 0
  · -- the last column is a fixed-length one, and it ends where the addresses would start
    rw [hzero, Nat.zero_mul]
    obtain ⟨types, last, rfl⟩ := (List.eq_nil_or_concat' schema).resolve_left hne
    obtain ⟨columnType, rfl⟩ := hs last (by simp)
    obtain ⟨width, hwidth⟩ : ∃ width, typeSizeOf format (.column columnType) = some width := by
      have hnot := List.count_eq_zero.mp hzero
      cases columnType with
      | kVarchar => exact absurd (by simp) hnot
      | _ => cases format <;> exact ⟨_, rfl⟩
    have hget : ((types ++ [DeclaredType.column columnType]).map
        (typeSizeOf format))[types.length]? = some (some width) := by simp [hwidth]
    have hfield := (field_eq_some_iff hs).mpr ⟨width, hget, rfl⟩
    have hregion := hfields _ (mem_fields_iff.mpr ⟨types.length, hfield⟩)
    obtain ⟨_, -, hend⟩ := field_of_addressStart_lt hs hstart hfield
    rw [hend, prefixSum_succ _ hget] at hregion
    have hsum : addressStart format (types ++ [.column columnType]) =
        getStartOffset format (types ++ [DeclaredType.column columnType]).length +
          (prefixSum sizeRoom ((types ++ [DeclaredType.column columnType]).map
            (typeSizeOf format)) types.length + sizeRoom (some width)) := by
      rw [← prefixSum_succ _ hget, prefixSum_of_length_le _ (by simp)]
      rfl
    rw [hsum]
    have hpos : 0 < sizeRoom (some width) := pos_of_typeSizeOf hwidth
    exact le_of_Ico_subset_range (by omega) hregion
  · refine le_of_Ico_subset_range ?_ haddresses
    have := Nat.mul_pos (Nat.pos_of_ne_zero hzero) haddr
    omega

end Regions

/-- The four components compute one layout, whose parts are disjoint parts of the row, if and
only if there are columns, all of them of supported types, the UnsafeRow format has no string
columns and the size of the row fits into 32 bits. -/
theorem oneLayout_iff (format : Format) (schema : List DeclaredType) {stringLength : Nat}
    (hstring : stringLength < 2 ^ 32) :
    OneLayout format schema stringLength ↔ LayoutFits format schema stringLength := by
  have hcnt : Supported schema →
      (rowBuilderPlan format schema).strFieldCnt = stringCount schema :=
    fun hs => (rowBuilderPlan_spec format hs).1.trans (sum_stringRoom hs)
  constructor
  · rintro ⟨⟨plan, hview, -⟩, -, hencoder, -, -, hinside⟩
    have hs := (rowViewPlan_eq_some_iff.mp hview).1
    have hlength : schema.length ≠ 0 := by
      intro hzero
      -- without columns the size is zero, and the header is not inside the row
      have hheader := hinside _ List.mem_cons_self
      have hsize : builtSize format schema stringLength = 0 := if_pos hzero
      rw [hsize] at hheader
      exact absurd (le_of_Ico_subset_range (by decide) hheader) (by decide)
    have hne : schema ≠ [] := fun h => hlength (congrArg List.length h)
    have hstart := addressStart_lt_of_inside hs (totalLength_lt _ _ _ _) hinside
    have haddresses := addresses_le_of_inside hs hne hstart (getAddrLength_bounds _).1 hinside
    unfold builtSize at haddresses
    rw [strFieldStartOffset_of_lt hs hstart, hcnt hs] at haddresses
    refine ⟨hne, hs, ?_, plainLength_lt_of_le hlength hstring haddresses⟩
    rintro rfl hvarchar
    exact not_samePlan_of_string hs hvarchar hencoder
  · rintro ⟨hne, hs, hnoString, hfits⟩
    have hlength : schema.length ≠ 0 := fun h => hne (List.length_eq_zero_iff.mp h)
    have hstart : addressStart format schema < 2 ^ 32 := by
      have := wide_lt_of_plainLength_lt hfits
      omega
    have hencoder : encoderPlan format schema = rowBuilderPlan format schema := by
      cases format with
      | standard => exact encoderPlan_standard
      | unsafeRow => exact encoderPlan_unsafeRow hs (hnoString rfl)
    have hsame : SamePlan schema (rowBuilderPlan format schema) (rowBuilderPlan format schema) :=
      ⟨rfl, fun _ _ _ => rfl, rfl⟩
    obtain ⟨htotal, hroom⟩ := totalLength_of_plainLength_lt hlength hfits
    have hsize : builtSize format schema stringLength =
        plainLength (addressStart format schema) (stringCount schema) stringLength := by
      unfold builtSize
      rw [strFieldStartOffset_of_lt hs hstart, hcnt hs, htotal]
    refine ⟨⟨_, rowViewPlan_eq_some_iff.mpr ⟨hs, rfl⟩, hsame⟩, ?_, ?_, ?_, ?_, ?_⟩
    · rw [rowFormatPlan_eq]
      exact hsame
    · rw [hencoder]
      exact hsame
    · exact fun i hi => lt_bitMapSizeOf format hi
    · exact regions_disjoint hs hstart _
    · rw [hsize]
      exact regions_subset hs hstart hroom

theorem oneLayout_wide :
    OneLayout .unsafeRow (List.replicate 65 (.column .kInt16)) 0 ∧
      OneLayout .standard [.column .kVarchar, .column .kInt32, .column .kVarchar] 5 := by
  constructor
  · refine (oneLayout_iff _ _ (by decide)).mpr ⟨by decide, fun type h => ?_, fun _ => by decide, ?_⟩
    · exact ⟨_, List.eq_of_mem_replicate h⟩
    · decide
  · refine (oneLayout_iff _ _ (by decide)).mpr ⟨by decide, ?_, nofun, by decide⟩
    simp [Supported]

/-- With a string column the encoder of UnsafeRows puts the columns where the view does not
look for them. -/
theorem encoderPlan_shifts :
    (rowBuilderPlan .unsafeRow [.column .kVarchar, .column .kInt32]).offsetVec = [0, 14] ∧
      (encoderPlan .unsafeRow [.column .kVarchar, .column .kInt32]).offsetVec = [14, 22] ∧
      (rowBuilderPlan .unsafeRow [.column .kVarchar, .column .kInt32]).strFieldStartOffset = 22 ∧
      (encoderPlan .unsafeRow [.column .kVarchar, .column .kInt32]).strFieldStartOffset = 30 := by
  decide

end HybridSE.Codec
