import HybridSE.Codec.RowList
import HybridSE.Vm.RequestUnion

/-!
# HybridSE.Vm.TableFilter

`TableFilterWrapper` of `src/vm/catalog_wrapper.h`: a table seen through a condition. Its
iterator is valid only at a row that satisfies the condition, and skips the other rows when
it seeks, when it goes to the start and when it moves on.

A new iterator does none of these. Over a table whose first row fails the condition it is
not valid, so the reads that use a new iterator as it is, `GetCount` and `At` among them,
see no row at all. `tableFilterWrapper_exact_iff`: apart from that every access path shows
the filtered table, and two wrappers are one with both conditions.
-/

namespace HybridSE.Vm

open HybridSE.Lib HybridSE.Codec List Option

variable {σ R : Type*}

/-- `IteratorFilterWrapper`. -/
def iteratorFilterWrapper (iter : Cursor σ R) (predicate : R → Bool) : Cursor σ R where
  fresh := iter.fresh
  current := fun s => (iter.current s).filter fun e => predicate e.2
  next := fun s => iter.skipTo predicate (iter.next s)
  seek := fun k s => iter.skipTo predicate (iter.seek k s)
  seekToFirst := fun s => iter.skipTo predicate (iter.seekToFirst s)
  left := iter.left
  left_next s h := by
    obtain ⟨e, he⟩ := isSome_iff_exists.mp h
    exact Nat.lt_of_le_of_lt (iter.left_skipTo_le predicate _)
      (Cursor.left_next_lt (filter_eq_some_iff.mp he).1)

/-- `TableFilterWrapper`, on the iterators of the table. -/
def tableFilterWrapper [Inhabited R] (table : ListV σ R) (predicate : R → Bool) : ListV σ R :=
  .ofIterator (iteratorFilterWrapper table.getIterator predicate)
    (iteratorFilterWrapper table.getRawIterator predicate)

/-- The entries of a table whose rows satisfy a condition. -/
def filterRows (predicate : R → Bool) (rows : List (Entry R)) : List (Entry R) :=
  rows.filter fun e => predicate e.2

/-! ### What the iterator shows -/

section Iterator

variable (iter : Cursor σ R) (p : R → Bool)

/-- Once rows have been skipped the iterator shows the filtered rows. -/
theorem shown_skipTo (s : σ) :
    (iteratorFilterWrapper iter p).shown (iter.skipTo p s) = filterRows p (iter.shown s) := by
  induction s using iter.induct with
  | done s hs =>
    rw [Cursor.skipTo_of_none hs, Cursor.shown_of_none hs, Cursor.shown_of_none]
    · rfl
    · simp only [iteratorFilterWrapper, hs, filter_none]
  | move s e hs ih =>
    rw [Cursor.skipTo_of_some hs, Cursor.shown_of_some hs, filterRows, filter_cons]
    cases he : p e.2 with
    | false => exact ih
    | true =>
      rw [Cursor.shown_of_some (e := e)]
      · exact congrArg _ ih
      · simp only [iteratorFilterWrapper, hs, filter_some, he, if_true]

/-- At any other position it shows the filtered rows, or nothing where the row at the
position fails the condition. -/
theorem shown_iteratorFilterWrapper (s : σ) :
    (iteratorFilterWrapper iter p).shown s =
      if (iter.current s).any (fun e => p e.2) then filterRows p (iter.shown s) else [] := by
  cases hs : iter.current s with
  | none =>
    simp [Cursor.shown_of_none, iteratorFilterWrapper, hs, filter_none]
  | some e =>
    rw [any_some]
    cases he : p e.2 with
    | false =>
      simp [Cursor.shown_of_none, iteratorFilterWrapper, hs, he]
    | true =>
      simp [← shown_skipTo, Cursor.skipTo_of_some hs, he]

end Iterator

/-- The iterator runs over the entries `rows` and shows those that satisfy `p`. A new one
shows them only if it can start at the first entry. -/
structure Filters (iter : Cursor σ R) (rows : List (Entry R)) (p : R → Bool) : Prop where
  fresh : iter.shown iter.fresh =
    if rows.head?.any (fun e => p e.2) then filterRows p rows else []
  first : ∀ s, iter.shown (iter.seekToFirst s) = filterRows p rows
  seek : ∀ k s, iter.shown (iter.seek k s) = filterRows p (Vm.seek k rows)

theorem filters_ofList (rows : List (Entry R)) :
    Filters (Cursor.ofList rows) rows fun _ => true where
  fresh := by
    rw [Cursor.shown_ofList]
    cases rows <;> simp [Cursor.ofList, filterRows]
  first s := by
    rw [Cursor.shown_ofList]
    simp [Cursor.ofList, filterRows]
  seek k s := by
    rw [Cursor.shown_ofList]
    simp [Cursor.ofList, filterRows, Vm.seek]

theorem filterRows_filterRows (p q : R → Bool) (rows : List (Entry R)) :
    filterRows q (filterRows p rows) = filterRows (fun r => p r && q r) rows := by
  unfold filterRows
  rw [List.filter_filter]
  exact filter_congr fun e _ => Bool.and_comm _ _

/-- A wrapper adds its condition. -/
theorem Filters.wrap {iter : Cursor σ R} {rows : List (Entry R)} {p : R → Bool}
    (h : Filters iter rows p) (q : R → Bool) :
    Filters (iteratorFilterWrapper iter q) rows fun r => p r && q r where
  fresh := by
    refine (shown_iteratorFilterWrapper iter q iter.fresh).trans ?_
    rw [← Cursor.head?_shown, h.fresh]
    cases rows with
    | nil => rfl
    | cons first rest =>
      cases hp : p first.2 with
      | false => simp [hp]
      | true =>
        -- the row the inner iterator stands at is the first one of the table
        have hhead : (filterRows p (first :: rest)).head? = some first := by
          simp [filterRows, hp]
        simp only [head?_cons, any_some, hp, if_true, hhead, Bool.true_and,
          filterRows_filterRows]
  first s := by
    rw [← filterRows_filterRows, ← h.first s]
    exact shown_skipTo iter q (iter.seekToFirst s)
  seek k s := by
    rw [← filterRows_filterRows, ← h.seek k s]
    exact shown_skipTo iter q (iter.seek k s)

/-! ### Every access path -/

/-- The first row satisfies the condition, or none does. -/
def FirstFits (p : R → Bool) (rows : List (Entry R)) : Prop :=
  ∀ first ∈ rows.head?, p first.2 = true ∨ ∀ e ∈ rows, p e.2 = false

/-- A new iterator shows the filtered rows if it can start at the first one. -/
theorem ite_filterRows_eq_iff (p : R → Bool) (rows : List (Entry R)) :
    (if rows.head?.any (fun e => p e.2) then filterRows p rows else []) = filterRows p rows ↔
      FirstFits p rows := by
  cases rows with
  | nil => simp [filterRows, FirstFits]
  | cons first rest =>
    cases hp : p first.2 with
    | true => simp [FirstFits, hp]
    | false =>
      rw [filterRows]
      simp [FirstFits, hp]

/-- The table shows the entries of `rows` that satisfy `p` by every access path; after `Seek`,
where the keys of `rows` do not increase, those with a key of at most the one sought. -/
structure ShowsFiltered [Inhabited R] (table : ListV σ R) (rows : List (Entry R))
    (p : R → Bool) : Prop where
  represents : table.Represents (filterRows p rows)
  seek : rows.Pairwise KeyDesc → ∀ k s,
    table.getIterator.shown (table.getIterator.seek k s) =
      (filterRows p rows).filter fun e => decide (e.1 ≤ k)

theorem showsFiltered_iff [Inhabited R] {iter : Cursor σ R} {rows p} (h : Filters iter rows p) :
    ShowsFiltered (ListV.ofIterator iter iter) rows p ↔ FirstFits p rows := by
  rw [← ite_filterRows_eq_iff, ← h.fresh]
  constructor
  · intro hshows
    exact hshows.represents.fresh
  · intro hfresh
    refine ⟨(ListV.represents_ofIterator_iff _ _).mpr ⟨hfresh, h.first⟩, fun hdesc k s => ?_⟩
    refine (h.seek k s).trans ?_
    rw [seek_eq_filter hdesc]
    exact filter_comm ..

/-- A filtered table, and one that is filtered twice, look the same through every access path
when the first row of the table satisfies the conditions, or no row does. -/
theorem tableFilterWrapper_exact_iff [Inhabited R] (rows : List (Entry R)) (p q : R → Bool) :
    ShowsFiltered (tableFilterWrapper (.ofList rows) p) rows p ∧
        ShowsFiltered (tableFilterWrapper (tableFilterWrapper (.ofList rows) p) q) rows
          (fun r => p r && q r) ↔
      FirstFits p rows ∧ FirstFits (fun r => p r && q r) rows := by
  have hone : Filters (iteratorFilterWrapper (Cursor.ofList rows) p) rows p := by
    simpa only [Bool.true_and] using (filters_ofList rows).wrap p
  exact and_congr (showsFiltered_iff hone) (showsFiltered_iff (hone.wrap q))

/-- The first of two rows fails the condition: a new iterator shows nothing and the count
is zero, though the second row satisfies it. -/
theorem not_showsFiltered_first_fails :
    (tableFilterWrapper (.ofList [(2, false), (1, true)]) id).getCount = 0 ∧
      ¬ ShowsFiltered (tableFilterWrapper (.ofList [(2, false), (1, true)]) id)
        [(2, false), (1, true)] id := by
  refine ⟨by decide, fun h => ?_⟩
  exact absurd h.represents.count (by decide)

end HybridSE.Vm
