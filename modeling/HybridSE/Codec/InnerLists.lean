import HybridSE.Codec.Row
import HybridSE.Codec.RowList
import HybridSE.Lib.PrefixWindow

/-!
# HybridSE.Codec.InnerLists

The slices of a row list by keys and by positions, `InnerRangeList` and `InnerRowsList` of
`include/codec/list_iterator_codec.h`, and `AtList` of
`src/udf/default_defs/window_functions_def.cc`, which reads a column of one by position.

A new iterator over positions goes to its first row. A new iterator over keys stays at the
first row of the whole list: only `SeekToFirst` seeks the upper key. Where that row lies
above the range the new iterator is not valid, and counting and reading by position find
nothing. `innerLists_exact_iff` says that this is the only case.
-/

namespace HybridSE.Codec

open HybridSE.Lib List Option

instance : Inhabited Row := ⟨Row.new⟩

variable {σ V : Type*}

/-! ### Slices by keys -/

/-- The condition of `InnerRangeIterator::Valid` on the key. -/
def inKeyRange (start stop : Nat) (e : Nat × V) : Bool :=
  decide (e.1 ≤ start) && decide (stop ≤ e.1)

/-- `InnerRangeIterator`. -/
def innerRangeIterator (root : Cursor σ V) (start stop : Nat) : Cursor σ V where
  fresh := root.seekToFirst root.fresh
  current := fun s => (root.current s).filter (inKeyRange start stop)
  next := root.next
  seek := root.seek
  seekToFirst := fun s => root.seek start (root.seekToFirst s)
  left := root.left
  left_next s h := by
    obtain ⟨e, he⟩ := isSome_iff_exists.mp h
    exact Cursor.left_next_lt (filter_eq_some_iff.mp he).1

/-- `InnerRangeList`. -/
def innerRangeList [Inhabited V] (root : ListV σ V) (start stop : Nat) : ListV σ V :=
  .ofIterator (innerRangeIterator root.getIterator start stop)
    (innerRangeIterator root.getIterator start stop)

/-- The iterator shows the rows of its root up to the first one out of range. -/
theorem shown_innerRangeIterator (root : Cursor σ V) (start stop : Nat) (s : σ) :
    (innerRangeIterator root start stop).shown s =
      (root.shown s).takeWhile (inKeyRange start stop) := by
  induction s using root.induct with
  | done s hs =>
    rw [Cursor.shown_of_none hs, Cursor.shown_of_none]
    · rfl
    · simp only [innerRangeIterator, hs, filter_none]
  | move s e hs ih =>
    rw [Cursor.shown_of_some hs, takeWhile_cons]
    cases he : inKeyRange start stop e with
    | false =>
      rw [Cursor.shown_of_none]
      · rfl
      · simp only [innerRangeIterator, hs, filter_some, he, Bool.false_eq_true, if_false]
    | true =>
      rw [Cursor.shown_of_some (e := e)]
      · exact congrArg _ ih
      · simp only [innerRangeIterator, hs, filter_some, he, if_true]

/-- The entries of a list in a range of keys. -/
def rangeSlice (rows : List (Nat × V)) (start stop : Nat) : List (Nat × V) :=
  rows.filter (inKeyRange start stop)

/-- The first row of the list is not above the range, or no row is in the range. -/
def StartsInRange (rows : List (Nat × V)) (start stop : Nat) : Prop :=
  ∀ first ∈ rows.head?, first.1 ≤ start ∨ ∀ e ∈ rows, ¬ (e.1 ≤ start ∧ stop ≤ e.1)

section Range

variable {rows : List (Nat × V)} (hdesc : rows.Pairwise fun x y => y.1 ≤ x.1) (start stop : Nat)
include hdesc

/-- From an entry that is not above the range on, the range ends at the first entry below it. -/
theorem takeWhile_inKeyRange (hle : ∀ e ∈ rows, e.1 ≤ start) :
    rows.takeWhile (inKeyRange start stop) = rangeSlice rows start stop := by
  refine takeWhile_eq_filter (hdesc.imp_of_mem fun {x y} hx _ hxy hy => ?_)
  simp only [inKeyRange, Bool.and_eq_true, decide_eq_true_eq] at hy ⊢
  have := hle x hx
  omega

/-- After `SeekToFirst` the iterator shows the slice. -/
theorem shown_innerRangeIterator_first (s : List (Nat × V)) :
    (innerRangeIterator (Cursor.ofList rows) start stop).shown
      ((innerRangeIterator (Cursor.ofList rows) start stop).seekToFirst s) =
        rangeSlice rows start stop := by
  have hseek : rows.dropWhile (fun e => decide (start < e.1)) =
      rows.filter (fun e => !decide (start < e.1)) :=
    dropWhile_eq_filter (hdesc.imp fun {x y} hxy hy => by
      simp only [decide_eq_true_eq] at hy ⊢
      omega)
  rw [shown_innerRangeIterator, Cursor.shown_ofList]
  change (rows.dropWhile fun e => decide (start < e.1)).takeWhile _ = _
  rw [hseek, takeWhile_inKeyRange (hdesc.filter _), rangeSlice, rangeSlice, List.filter_filter]
  · refine filter_congr fun e _ => ?_
    rw [Bool.eq_iff_iff]
    simp only [inKeyRange, Bool.and_eq_true, Bool.not_eq_true', decide_eq_true_eq,
      decide_eq_false_iff_not]
    omega
  · intro e he
    simpa using (mem_filter.mp he).2

/-- A new iterator shows the slice unless the list starts above it. -/
theorem shown_innerRangeIterator_fresh_iff :
    (innerRangeIterator (Cursor.ofList rows) start stop).shown
      (innerRangeIterator (Cursor.ofList rows) start stop).fresh = rangeSlice rows start stop ↔
        StartsInRange rows start stop := by
  rw [shown_innerRangeIterator, Cursor.shown_ofList]
  change rows.takeWhile (inKeyRange start stop) = _ ↔ _
  cases rows with
  | nil => simp [StartsInRange, rangeSlice]
  | cons first rest =>
    by_cases hfirst : first.1 ≤ start
    · have hle : ∀ e ∈ first :: rest, e.1 ≤ start := by
        intro e he
        rcases mem_cons.mp he with rfl | he
        · exact hfirst
        · exact Nat.le_trans ((pairwise_cons.mp hdesc).1 e he) hfirst
      exact iff_of_true (takeWhile_inKeyRange hdesc start stop hle)
        fun f hf => .inl (by cases hf; exact hfirst)
    · rw [rangeSlice]
      simp [StartsInRange, inKeyRange, hfirst]

end Range

/-! ### Slices by positions -/

/-- The loop of `InnerRowsIterator::SeekToFirst`: moves on `n` rows and counts them. -/
def seekRow (root : Cursor σ V) : Nat → σ × Nat → σ × Nat
  | 0, at_ => at_
  | n + 1, at_ =>
    match root.current at_.1 with
    | none => at_
    | some _ => seekRow root n (root.next at_.1, at_.2 + 1)

/-- `InnerRowsIterator`, with the iterator of the list and `pos_`. -/
def innerRowsIterator (root : Cursor σ V) (start stop : Nat) : Cursor (σ × Nat) V where
  fresh := seekRow root start (root.seekToFirst root.fresh, 0)
  current := fun s => if s.2 ≤ stop ∧ start ≤ s.2 then root.current s.1 else none
  next := fun s => (root.next s.1, s.2 + 1)
  seek := fun k s => (root.seek k s.1, s.2)
  seekToFirst := fun s => seekRow root start (root.seekToFirst s.1, 0)
  left := fun s => root.left s.1
  left_next s h := by
    split at h
    · exact root.left_next s.1 h
    · cases h

/-- `InnerRowsList`. -/
def innerRowsList [Inhabited V] (root : ListV σ V) (start stop : Nat) : ListV (σ × Nat) V :=
  .ofIterator (innerRowsIterator root.getIterator start stop)
    (innerRowsIterator root.getIterator start stop)

/-- The entries of a list at a range of positions. -/
def rowsSlice (rows : List (Nat × V)) (start stop : Nat) : List (Nat × V) :=
  (rows.drop start).take (stop + 1 - start)

/-- `SeekToFirst` stops at the first row of the slice, or at the end of the list. -/
theorem seekRow_eq (root : Cursor σ V) (n : Nat) :
    ∀ (s : σ) (pos : Nat),
      seekRow root n (s, pos) = (root.advance n s, pos + min n (root.shown s).length) := by
  induction n with
  | zero => simp [seekRow, Cursor.advance]
  | succ n ih =>
    intro s pos
    cases hs : root.current s with
    | none => simp [seekRow, Cursor.advance, hs, Cursor.shown_of_none hs]
    | some e =>
      simp only [seekRow, Cursor.advance, hs, ih, Cursor.shown_of_some hs, length_cons]
      congr 1
      omega

/-- From the first row of the slice on the iterator shows the rows up to the last. -/
theorem shown_innerRowsIterator (root : Cursor σ V) {start} (stop : Nat) (s : σ) :
    ∀ pos, start ≤ pos →
      (innerRowsIterator root start stop).shown (s, pos) =
        (root.shown s).take (stop + 1 - pos) := by
  induction s using root.induct with
  | done s hs =>
    intro pos _
    simp [Cursor.shown_of_none hs, Cursor.shown_of_none, innerRowsIterator, hs]
  | move s e hs ih =>
    intro pos hpos
    rw [Cursor.shown_of_some hs]
    by_cases hstop : pos ≤ stop
    · rw [Cursor.shown_of_some (e := e), show stop + 1 - pos = (stop + 1 - (pos + 1)) + 1 by omega]
      · exact congrArg _ (ih (pos + 1) (by omega))
      · simp [innerRowsIterator, hs, hstop, hpos]
    · rw [Cursor.shown_of_none, show stop + 1 - pos = 0 by omega, take_zero]
      simp [innerRowsIterator, hstop]

/-- At the start the iterator shows the slice. -/
theorem shown_innerRowsIterator_first (root : Cursor σ V) (start stop : Nat) (s : σ) :
    (innerRowsIterator root start stop).shown (seekRow root start (s, 0)) =
      rowsSlice (root.shown s) start stop := by
  rw [seekRow_eq, Nat.zero_add, rowsSlice, ← Cursor.shown_advance]
  by_cases hlen : start ≤ (root.shown s).length
  · rw [Nat.min_eq_left hlen, shown_innerRowsIterator root stop _ start (Nat.le_refl _)]
  · have hend : root.shown (root.advance start s) = [] := by
      rw [Cursor.shown_advance, drop_of_length_le (by omega)]
    have hnone : root.current (root.advance start s) = none := by
      rw [← Cursor.head?_shown, hend]
      rfl
    simp [hend, Cursor.shown_of_none, innerRowsIterator, hnone]

/-! ### Reading a column by position -/

/-- `AtList` on a column of a row list; `null` stands for `is_null`. -/
def atList (root : ListV σ Row) (column : ColumnPos) (pos : Int) : Value :=
  if pos < 0 then .null
  else
    let row := root.elemAt pos.toNat
    if row.isEmpty then .null else row.get column

/-- The value of a column in the entry at a position of a list. -/
def columnAt (rows : List (Nat × Row)) (column : ColumnPos) (pos : Int) : Value :=
  if pos < 0 then .null else ((rows[pos.toNat]?).map fun e => e.2.get column).getD .null

/-- The list shows the slice under every access path. -/
structure ExactSlice (list : ListV σ Row) (rows : List (Nat × Row)) : Prop where
  represents : list.Represents rows
  column : ∀ column pos, atList list column pos = columnAt rows column pos

theorem atList_eq_columnAt {list : ListV σ Row} {rows} (h : list.Represents rows)
    (column : ColumnPos) (pos : Int) : atList list column pos = columnAt rows column pos := by
  unfold atList columnAt
  rw [h.elems]
  split
  · rfl
  · cases hrow : rows[pos.toNat]? with
    | none => rfl
    | some e =>
      dsimp only [map_some, getD_some]
      split
      · next hempty => rw [Row.eq_new_of_isEmpty hempty, Row.get_new]
      · rfl

theorem exactSlice_iff (list : ListV σ Row) (rows : List (Nat × Row)) :
    ExactSlice list rows ↔ list.Represents rows :=
  ⟨ExactSlice.represents, fun h => ⟨h, atList_eq_columnAt h⟩⟩

/-- Both slices of a list with keys that do not increase are exact under every access path
when the list does not start above the range of keys, or none of its rows is in it. -/
theorem innerLists_exact_iff {rows : List (Nat × Row)}
    (hdesc : rows.Pairwise fun x y => y.1 ≤ x.1) (start stop startRow stopRow : Nat) :
    ExactSlice (innerRangeList (.ofList rows) start stop) (rangeSlice rows start stop) ∧
        ExactSlice (innerRowsList (.ofList rows) startRow stopRow)
          (rowsSlice rows startRow stopRow) ↔
      StartsInRange rows start stop := by
  have hrows : ExactSlice (innerRowsList (.ofList rows) startRow stopRow)
      (rowsSlice rows startRow stopRow) := by
    refine (exactSlice_iff _ _).mpr ((ListV.represents_ofIterator_iff _ _).mpr ⟨?_, fun s => ?_⟩)
    · exact (shown_innerRowsIterator_first (Cursor.ofList rows) _ _ _).trans
        (by rw [Cursor.shown_ofList]; rfl)
    · exact (shown_innerRowsIterator_first (Cursor.ofList rows) _ _ _).trans
        (by rw [Cursor.shown_ofList]; rfl)
  rw [and_iff_left hrows, exactSlice_iff]
  refine (ListV.represents_ofIterator_iff _ _).trans ?_
  rw [and_iff_left]
  · exact shown_innerRangeIterator_fresh_iff hdesc start stop
  · exact shown_innerRangeIterator_first hdesc start stop

/-- Rows with the keys 4, 2 and 1. -/
def threeRows : List (Nat × Row) :=
  [(4, .ofSlice (some [.int64 40])), (2, .ofSlice (some [.int64 20])),
    (1, .ofSlice (some [.int64 10]))]

/-- The range from 4 down to 2 of these rows, and their second row. -/
theorem innerLists_exact_from_first :
    ExactSlice (innerRangeList (.ofList threeRows) 4 2) (rangeSlice threeRows 4 2) ∧
      ExactSlice (innerRowsList (.ofList threeRows) 1 1) (rowsSlice threeRows 1 1) := by
  refine (innerLists_exact_iff (by simp [threeRows]) 4 2 1 1).mpr ?_
  intro first hfirst
  cases hfirst
  exact .inl (Nat.le_refl 4)

/-- The range from 3 down to 0 of rows with the keys 4 and 2 holds a row, but its count is zero. -/
theorem not_exactSlice_below_first :
    (innerRangeList (.ofList [(4, Row.new), (2, Row.new)]) 3 0).getCount = 0 ∧
      ¬ ExactSlice (innerRangeList (.ofList [(4, Row.new), (2, Row.new)]) 3 0)
        (rangeSlice [(4, Row.new), (2, Row.new)] 3 0) := by
  refine ⟨by decide, fun h => ?_⟩
  exact absurd h.represents.count (by decide)

end HybridSE.Codec
