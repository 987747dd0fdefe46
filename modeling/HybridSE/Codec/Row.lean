import HybridSE.Codec.RowLayout

/-!
# HybridSE.Codec.Row

`codec::Row` (`include/codec/row.h`): a first slice and the slices that joins append to
it. A slice is an encoded row, here the values of its columns, or empty; the columns of
an empty slice read as NULL. A row whose first slice is empty has size zero; it is empty
when it has no other slice either.
-/

namespace HybridSE.Codec

open List Option

/-- `RefCountedSlice`; `none` is the empty slice. -/
abbrev Slice : Type := Option (List Value)

/-- `Row`: `slice_` and `slices_`. -/
structure Row where
  slice : Slice
  slices : List Slice
  deriving DecidableEq

/-- A column of a row: the index of its slice and its index there. -/
abbrev ColumnPos : Type := Nat × Nat

namespace Row

/-- `Row()`. -/
def new : Row := ⟨none, []⟩

/-- `Row(slice)`. -/
def ofSlice (slice : Slice) : Row := ⟨slice, []⟩

/-- `empty()`. -/
def isEmpty (row : Row) : Bool := row.slice.isNone && row.slices.isEmpty

/-- `size() == 0`. -/
def sizeZero (row : Row) : Bool := row.slice.isNone

/-- `GetSlice`; the empty slice where there is none. -/
def getSlice (row : Row) (slice : Nat) : Slice := ((row.slice :: row.slices)[slice]?).join

/-- The value of a column. -/
def get (row : Row) (pos : ColumnPos) : Value :=
  ((row.getSlice pos.1).bind (·[pos.2]?)).getD .null

@[simp] theorem isEmpty_new : new.isEmpty = true := rfl

@[simp] theorem sizeZero_new : new.sizeZero = true := rfl

@[simp] theorem isEmpty_ofSlice (slice : Slice) : (ofSlice slice).isEmpty = slice.isNone := by
  simp [isEmpty, ofSlice]

@[simp] theorem sizeZero_ofSlice (slice : Slice) : (ofSlice slice).sizeZero = slice.isNone := rfl

theorem eq_new_of_isEmpty {row} (h : row.isEmpty = true) : row = new := by
  obtain ⟨hslice, hslices⟩ := Bool.and_eq_true_iff.mp h
  obtain ⟨slice, slices⟩ := row
  cases isNone_iff_eq_none.mp hslice
  cases List.isEmpty_iff.mp hslices
  rfl

@[simp] theorem getSlice_new (slice : Nat) : new.getSlice slice = none := by
  cases slice <;> rfl

@[simp] theorem get_new (pos : ColumnPos) : new.get pos = .null := by
  rw [get, getSlice_new]
  rfl

theorem get_ofSlice_zero (slice : Slice) (col : Nat) :
    (ofSlice slice).get (0, col) = (slice.bind (·[col]?)).getD .null := rfl

/-! ### Joined rows -/

/-- The first `n` slices, with empty ones where there are fewer. -/
def padSlices (n : Nat) (slices : List Slice) : List Slice :=
  (List.range n).map fun i => (slices[i]?).join

@[simp] theorem length_padSlices (n : Nat) (slices : List Slice) :
    (padSlices n slices).length = n := by
  rw [padSlices, length_map, length_range]

theorem getElem?_padSlices {n i} (slices : List Slice) (h : i < n) :
    (padSlices n slices)[i]? = some (slices[i]?).join := by
  rw [padSlices, getElem?_map, getElem?_range h]
  rfl

/-- `Row(major_slices, major, secondary_slices, secondary)`. -/
def join (majorSlices : Nat) (major : Row) (secondarySlices : Nat) (secondary : Row) : Row where
  slice := major.slice
  slices := padSlices (majorSlices - 1) major.slices ++
    secondary.slice :: padSlices (secondarySlices - 1) secondary.slices

/-- `Row(slice, secondary_slices, secondary)`. -/
def ofSliceAnd (slice : Slice) (secondarySlices : Nat) (secondary : Row) : Row where
  slice := slice
  slices := secondary.slice :: padSlices (secondarySlices - 1) secondary.slices

section Join

variable (majorSlices : Nat) (major : Row) (secondarySlices : Nat) (secondary : Row)

variable {majorSlices}

/-- The slices of the major row keep their places. -/
theorem getSlice_join {slice} (h : slice < majorSlices) :
    (join majorSlices major secondarySlices secondary).getSlice slice = major.getSlice slice := by
  cases slice with
  | zero => rfl
  | succ slice =>
    have hlt : slice < majorSlices - 1 := by omega
    unfold getSlice join
    dsimp only
    rw [getElem?_cons_succ, getElem?_cons_succ,
      getElem?_append_left (by rwa [length_padSlices]), getElem?_padSlices _ hlt]
    rfl

/-- The slices of the secondary row follow. -/
theorem getSlice_join_right {slice} (hmajor : 0 < majorSlices) (h : slice < secondarySlices) :
    (join majorSlices major secondarySlices secondary).getSlice (majorSlices + slice) =
      secondary.getSlice slice := by
  obtain ⟨n, rfl⟩ := Nat.exists_eq_succ_of_ne_zero (Nat.ne_of_gt hmajor)
  unfold getSlice join
  dsimp only
  rw [Nat.succ_add, getElem?_cons_succ,
    getElem?_append_right (by simp), length_padSlices]
  cases slice with
  | zero => simp
  | succ slice =>
    have hlt : slice < secondarySlices - 1 := by omega
    have hindex : n + (slice + 1) - (n.succ - 1) = slice + 1 := by omega
    rw [hindex, getElem?_cons_succ, getElem?_cons_succ, getElem?_padSlices _ hlt]
    rfl

end Join

/-- The slices of an appended row follow the first one. -/
theorem getSlice_ofSliceAnd_succ (first : Slice) {secondarySlices} (secondary : Row) {slice}
    (h : slice < secondarySlices) :
    (ofSliceAnd first secondarySlices secondary).getSlice (slice + 1) =
      secondary.getSlice slice := by
  unfold getSlice ofSliceAnd
  dsimp only
  cases slice with
  | zero => rfl
  | succ slice =>
    have hlt : slice < secondarySlices - 1 := by omega
    rw [getElem?_cons_succ, getElem?_cons_succ, getElem?_cons_succ,
      getElem?_padSlices _ hlt]
    rfl

end Row

end HybridSE.Codec
