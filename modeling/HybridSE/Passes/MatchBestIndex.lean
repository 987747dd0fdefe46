import HybridSE.Lib.SubsetSearch
import HybridSE.Passes.WhereSound
import Mathlib.Data.List.GetD

/-!
# HybridSE.Passes.MatchBestIndex

`GroupAndSortOptimized::MatchBestIndex` of `src/passes/physical/group_and_sort_optimized.cc`:
it looks for an index whose key columns are among the given columns. If they are all of them
the search ends; otherwise it takes out each of the columns in turn, in a bitmap that the
recursive calls share, and compares what they find by the number of key columns.

The search finds a largest index whenever there is one (`outcome_matchBestIndex`), and restores the
bitmap (`matchBestIndex_bitmap`). But it takes out the columns from left to right: a key column
that occurs again further on is taken out before the columns behind it that do not belong to
the index, and the bitmap that is returned marks the last occurrence only.
`matchBestIndex_exact_iff` says when this happens.
-/

namespace HybridSE.Passes.GroupAndSort

open HybridSE.Lib.SubsetSearch List

/-- `IndexSt`, with the names of its columns; `none` is `INVALID_POS`. -/
structure TableIndex where
  name : String
  keys : List String
  ts : Option String
  deriving DecidableEq

/-- `IndexHint`: the indexes of a table in the order of the map. -/
structure IndexHint where
  entries : List TableIndex
  nodup : (entries.map TableIndex.name).Nodup

namespace IndexHint

/-- The number of keys of `index_hint.at(name)`; the names looked up are those of entries. -/
def keysSize (hint : IndexHint) (name : String) : Nat :=
  ((hint.entries.find? fun ix => ix.name == name).map fun ix => ix.keys.length).getD 0

end IndexHint

/-- The first test of the loop over the indexes: with an order column, the index has it. -/
def TableIndex.hasOrder (ix : TableIndex) (orderColumns : List String) : Bool :=
  match orderColumns with
  | [] => true
  | c :: _ => ix.ts == some c

/-- The column at a position. -/
def columnAt (columns : List String) (i : Nat) : String := columns.getD i ""

/-- The positions that a bitmap marks. -/
def positions (bitmap : List Bool) : Finset Nat :=
  (Finset.range bitmap.length).filter fun i => bitmap.getD i false = true

/-- `column_set`. -/
def columnSet (columns : List String) (bitmap : List Bool) : Finset String :=
  (positions bitmap).image (columnAt columns)

/-- The results of `MatchBestIndex`: the value returned, `index_name` and `index_bitmap`. -/
structure Match where
  found : Bool
  indexName : String
  indexBitmap : List Bool
  deriving DecidableEq

/-- No index. -/
def Match.none : Match := ⟨false, "", []⟩

/-- What the loop makes of the result of a recursive call. No name yet stands for no index yet. -/
def improve (hint : IndexHint) (best new : Match) : Match :=
  if new.found then
    if best.indexName = "" then ⟨true, new.indexName, new.indexBitmap⟩
    else if hint.keysSize best.indexName < hint.keysSize new.indexName then
      ⟨true, new.indexName, new.indexBitmap⟩
    else ⟨true, best.indexName, best.indexBitmap⟩
  else best

/-- The loop over the positions of the bitmap, which the recursive calls share. -/
def matchLoop (hint : IndexHint) (call : List Bool → Match × List Bool) :
    List Nat → Match × List Bool → Match × List Bool
  | [], st => st
  | i :: is, (best, bitmap) =>
    if bitmap.getD i false then
      let (new, bitmap) := call (bitmap.set i false)
      matchLoop hint call is (improve hint best new, bitmap.set i true)
    else matchLoop hint call is (best, bitmap)

/-- The first index whose keys are exactly the marked columns. -/
def exactMatch (hint : IndexHint) (orderColumns : List String) (cols : Finset String) :
    Option TableIndex :=
  hint.entries.find? fun ix => ix.hasOrder orderColumns && decide (cols = ix.keys.toFinset)

/-- `MatchBestIndex`, with the bitmap after the call. The first argument bounds the depth of the
recursion. -/
def matchBestIndex (columns orderColumns : List String) (hint : IndexHint) :
    Nat → List Bool → Match × List Bool
  | 0, bitmap => (.none, bitmap)
  | n + 1, bitmap =>
    if 1 < orderColumns.length then (.none, bitmap)
    else
      match exactMatch hint orderColumns (columnSet columns bitmap) with
      | some ix => (⟨true, ix.name, bitmap⟩, bitmap)
      | none =>
        matchLoop hint (matchBestIndex columns orderColumns hint n)
          (List.range bitmap.length) (.none, bitmap)

/-- The call on an all-true bitmap; each call takes out one column. -/
def matchAll (columns orderColumns : List String) (hint : IndexHint) : Match × List Bool :=
  matchBestIndex columns orderColumns hint (columns.length + 1)
    (List.replicate columns.length true)

/-! ### The shared bitmap -/

theorem positions_set_false (bitmap : List Bool) (i : Nat) :
    positions (bitmap.set i false) = (positions bitmap).erase i := by
  ext j
  simp only [positions]
  by_cases hij : i = j
  · subst hij
    by_cases hlt : i < bitmap.length <;> simp [hlt]
  · simp [hij, Ne.symm hij]

variable {i : Nat} {hint : IndexHint}

theorem lt_length_of_getD {bitmap : List Bool} (h : bitmap.getD i false = true) :
    i < bitmap.length := by
  by_contra hlt
  rw [getD_eq_default _ _ (by omega)] at h
  cases h

theorem mem_positions {bitmap : List Bool} : i ∈ positions bitmap ↔ bitmap.getD i false = true := by
  unfold positions
  rw [Finset.mem_filter, Finset.mem_range, and_iff_right_iff_imp]
  exact lt_length_of_getD

/-- Calls that restore the bitmap leave a loop that only compares results. -/
theorem matchLoop_eq {call : List Bool → Match × List Bool}
    (hcall : ∀ bitmap, (call bitmap).2 = bitmap) (is : List Nat) :
    ∀ (best : Match) (bitmap : List Bool),
      matchLoop hint call is (best, bitmap) =
        (is.foldl (fun best i =>
          if bitmap.getD i false then improve hint best (call (bitmap.set i false)).1 else best) best,
          bitmap) := by
  induction is with
  | nil => exact fun _ _ => rfl
  | cons i is ih =>
    intro best bitmap
    rw [matchLoop, foldl_cons]
    by_cases hi : bitmap.getD i false = true
    · have hset : (bitmap.set i false).set i true = bitmap := by
        have hlt := lt_length_of_getD hi
        rw [getD_eq_getElem _ _ hlt] at hi
        rw [set_set, ← hi, set_getElem_self]
      rw [if_pos hi, if_pos hi]
      simp only [hcall, hset]
      exact ih _ bitmap
    · rw [if_neg hi, if_neg hi]
      exact ih _ bitmap

/-- `MatchBestIndex` restores the bitmap. -/
theorem matchBestIndex_bitmap (columns orderColumns : List String) (hint : IndexHint) (n : Nat) :
    ∀ bitmap, (matchBestIndex columns orderColumns hint n bitmap).2 = bitmap := by
  induction n with
  | zero => exact fun _ => rfl
  | succ n ih =>
    intro bitmap
    rw [matchBestIndex]
    split
    · rfl
    · cases exactMatch hint orderColumns (columnSet columns bitmap) with
      | some ix => rfl
      | none => exact congrArg Prod.snd (matchLoop_eq ih _ _ _)

/-! ### What the search finds -/

/-- The indexes have names, and an index names a column once. -/
structure IndexHint.WellFormed (hint : IndexHint) : Prop where
  named : ∀ ix ∈ hint.entries, ix.name ≠ ""
  nodup : ∀ ix ∈ hint.entries, ix.keys.Nodup

/-- The key sets of the indexes with the order column. -/
def keySets (orderColumns : List String) (hint : IndexHint) : Set (Finset String) :=
  {K | ∃ ix ∈ hint.entries, ix.hasOrder orderColumns = true ∧ ix.keys.toFinset = K}

theorem IndexHint.find?_of_mem {ix} (h : ix ∈ hint.entries) :
    (hint.entries.find? fun other => other.name == ix.name) = some ix := by
  obtain ⟨entries, hnodup⟩ := hint
  induction entries with
  | nil => cases h
  | cons first rest ih =>
    obtain ⟨hnot, hrest⟩ := nodup_cons.mp hnodup
    rcases mem_cons.mp h with rfl | hmem
    · rw [find?_cons, beq_self_eq_true]
    · have hne : ¬ (first.name == ix.name) = true := by
        intro heq
        exact hnot (beq_iff_eq.mp heq ▸ List.mem_map_of_mem hmem)
      rw [find?_cons, Bool.eq_false_iff.mpr hne]
      exact ih hrest hmem

theorem IndexHint.WellFormed.keysSize_eq (hwf : hint.WellFormed) {ix} (h : ix ∈ hint.entries) :
    hint.keysSize ix.name = ix.keys.toFinset.card := by
  unfold keysSize
  rw [find?_of_mem h, toFinset_card_of_nodup (hwf.nodup ix h)]
  rfl

section Search

variable (columns orderColumns : List String) (hint : IndexHint)

/-- The match is the latest of the largest indexes within `B`, with the positions kept. -/
structure Finds (B : Finset Nat) (m : Match) (ix : TableIndex) : Prop where
  mem : ix ∈ hint.entries
  hasOrder : ix.hasOrder orderColumns = true
  latest : Latest (columnAt columns) (keySets orderColumns hint) B ix.keys.toFinset
  found : m.found = true
  name : m.indexName = ix.name
  length : m.indexBitmap.length = columns.length
  bitmap : positions m.indexBitmap = kept (columnAt columns) B ix.keys.toFinset

/-- What a call returns for the positions `B`. -/
def Outcome (B : Finset Nat) (m : Match) : Prop :=
  (m = .none ∧ ∀ K, ¬ Within (columnAt columns) (keySets orderColumns hint) B K) ∨
    ∃ ix, Finds columns orderColumns hint B m ix

variable {columns orderColumns hint}

/-- A call that finds the marked columns in an index. -/
theorem outcome_of_exactMatch {bitmap} (hlen : bitmap.length = columns.length) {ix}
    (h : exactMatch hint orderColumns (columnSet columns bitmap) = some ix) :
    Outcome columns orderColumns hint (positions bitmap) ⟨true, ix.name, bitmap⟩ := by
  have hmem := mem_of_find?_eq_some h
  have htest := find?_some h
  rw [Bool.and_eq_true, decide_eq_true_eq] at htest
  obtain ⟨horder, hset⟩ := htest
  refine .inr ⟨ix, hmem, horder, ?_, rfl, rfl, hlen, ?_⟩
  · rw [← hset]
    exact latest_image ⟨ix, hmem, horder, hset.symm⟩
  · rw [← hset]
    exact kept_image.symm

/-- Otherwise they are no key set. -/
theorem image_notMem_keySets {bitmap}
    (h : exactMatch hint orderColumns (columnSet columns bitmap) = none) :
    (positions bitmap).image (columnAt columns) ∉ keySets orderColumns hint := by
  intro ⟨ix, hmem, horder, hset⟩
  have hnot := find?_eq_none.mp h ix hmem
  rw [Bool.and_eq_true, decide_eq_true_eq, not_and] at hnot
  exact hnot horder hset.symm

theorem improve_none_right (best : Match) : improve hint best .none = best := rfl

/-- A match is kept, or taken over, by the numbers of key columns. -/
theorem improve_of_finds {best new} (hnew : new.found = true) :
    improve hint best new =
      if best.indexName = "" ∨ hint.keysSize best.indexName < hint.keysSize new.indexName then new
      else ⟨true, best.indexName, best.indexBitmap⟩ := by
  obtain ⟨found, name, bitmap⟩ := new
  obtain rfl : found = true := hnew
  unfold improve
  by_cases hname : best.indexName = "" <;> simp [hname]

section Loop

variable (hwf : hint.WellFormed) {B : Finset Nat} {result : Nat → Match}
  (hresult : ∀ i ∈ B, Outcome columns orderColumns hint (B.erase i) (result i))

/-- The results of the loop, in the order of the positions. -/
def bestOf (hint : IndexHint) (B : Finset Nat) (result : Nat → Match) (n : Nat) : Match :=
  (List.range n).foldl (fun best i => if i ∈ B then improve hint best (result i) else best) .none

theorem bestOf_succ (n : Nat) :
    bestOf hint B result (n + 1) =
      if n ∈ B then improve hint (bestOf hint B result n) (result n)
      else bestOf hint B result n := by
  unfold bestOf
  rw [range_succ, foldl_append]
  rfl

include hresult

/-- Nothing to find below. -/
theorem bestOf_eq_none (h : ∀ K, ¬ Within (columnAt columns) (keySets orderColumns hint) B K)
    (n : Nat) : bestOf hint B result n = .none := by
  induction n with
  | zero => rfl
  | succ n ih =>
    rw [bestOf_succ, ih]
    split
    · next hn =>
        rcases hresult n hn with ⟨hnone, -⟩ | ⟨ix, hfinds⟩
        · rw [hnone]
          rfl
        · exact absurd hfinds.latest.1.1.of_erase (h _)
    · rfl

include hwf

/-- The loop ends with the result below the first removable position. -/
theorem bestOf_eq {i} (hi : Removable (columnAt columns) (keySets orderColumns hint) B i)
    (hmin : ∀ j, Removable (columnAt columns) (keySets orderColumns hint) B j → i ≤ j) (n : Nat) :
    (n ≤ i → bestOf hint B result n = .none ∨
        ∃ ix ∈ hint.entries, (bestOf hint B result n).indexName = ix.name ∧
          (bestOf hint B result n).found = true ∧
          ∀ K, Largest (columnAt columns) (keySets orderColumns hint) B K →
            ix.keys.toFinset.card < K.card) ∧
      (i < n → bestOf hint B result n = result i) := by
  obtain ⟨K₀, hK₀, hsub⟩ := hi.2
  -- the first removable position has a largest index below it
  obtain ⟨best, hbest⟩ : ∃ ix, Finds columns orderColumns hint (B.erase i) (result i) ix := by
    rcases hresult i hi.1 with ⟨-, hnone⟩ | hfinds
    · exact absurd ⟨hK₀.1.1, hsub⟩ (hnone K₀)
    · exact hfinds
  have hlargest := hi.largest hbest.latest.1
  induction n with
  | zero => exact ⟨fun _ => .inl rfl, fun h => absurd h (by omega)⟩
  | succ n ih =>
    rw [bestOf_succ]
    split
    · next hn =>
        rcases Nat.lt_trichotomy n i with hlt | rfl | hgt
        · refine ⟨fun _ => ?_, fun h => absurd h (by omega)⟩
          rcases hresult n hn with ⟨hnone, -⟩ | ⟨ix, hfinds⟩
          · rw [hnone]
            exact ih.1 (by omega)
          · -- a result of the largest size would make the position removable
            have hsmall : ∀ K, Largest (columnAt columns) (keySets orderColumns hint) B K →
                ix.keys.toFinset.card < K.card := by
              intro K hK
              refine Nat.lt_of_le_of_ne (hK.2 _ hfinds.latest.1.1.of_erase) fun heq => ?_
              have hsame : Largest (columnAt columns) (keySets orderColumns hint) B
                  ix.keys.toFinset :=
                ⟨hfinds.latest.1.1.of_erase, fun K' hK' => heq ▸ hK.2 K' hK'⟩
              exact absurd (hmin n ⟨hn, _, hsame, hfinds.latest.1.1.2⟩) (by omega)
            rw [improve_of_finds hfinds.found]
            split
            · exact .inr ⟨ix, hfinds.mem, hfinds.name, hfinds.found, hsmall⟩
            · next hkeep =>
                rcases ih.1 (by omega) with hnone | ⟨ix', hmem, hname, -, hsmall'⟩
                · exact absurd (.inl (by rw [hnone]; rfl)) hkeep
                · exact .inr ⟨ix', hmem, hname, rfl, hsmall'⟩
        · refine ⟨fun h => absurd h (by omega), fun _ => ?_⟩
          rw [improve_of_finds hbest.found, if_pos]
          rcases ih.1 (Nat.le_refl _) with hnone | ⟨ix', hmem, hname, -, hsmall⟩
          · exact .inl (by rw [hnone]; rfl)
          · refine .inr ?_
            rw [hname, hbest.name, hwf.keysSize_eq hmem, hwf.keysSize_eq hbest.mem]
            exact hsmall _ hlargest
        · refine ⟨fun h => absurd h (by omega), fun _ => ?_⟩
          rw [ih.2 hgt]
          rcases hresult n hn with ⟨hnone, -⟩ | ⟨ix, hfinds⟩
          · rw [hnone, improve_none_right]
          · rw [improve_of_finds hfinds.found, if_neg]
            · rw [← hbest.found]
            · rw [hbest.name, hfinds.name, hwf.keysSize_eq hbest.mem,
                hwf.keysSize_eq hfinds.mem]
              rintro (hempty | hlt)
              · exact hwf.named best hbest.mem hempty
              · exact absurd (hlargest.2 _ hfinds.latest.1.1.of_erase) (by omega)
    · next hn =>
        refine ⟨fun h => ih.1 (by omega), fun h => ?_⟩
        have hne : n ≠ i := by
          rintro rfl
          exact hn hi.1
        exact ih.2 (by omega)

end Loop

/-- The search: below `n` levels it comes to its end. -/
theorem outcome_matchBestIndex (horder : orderColumns.length ≤ 1) (hwf : hint.WellFormed) (n : Nat) :
    ∀ bitmap : List Bool, bitmap.length = columns.length → (positions bitmap).card < n →
      Outcome columns orderColumns hint (positions bitmap)
        (matchBestIndex columns orderColumns hint n bitmap).1 := by
  induction n with
  | zero => exact fun _ _ h => absurd h (by omega)
  | succ n ih =>
    intro bitmap hlen hcard
    rw [matchBestIndex, if_neg (by omega)]
    cases hexact : exactMatch hint orderColumns (columnSet columns bitmap) with
    | some ix => exact outcome_of_exactMatch hlen hexact
    | none =>
      rw [matchLoop_eq (matchBestIndex_bitmap columns orderColumns hint n)]
      have hloop : (List.range bitmap.length).foldl (fun best i =>
          if bitmap.getD i false then
            improve hint best
              (matchBestIndex columns orderColumns hint n (bitmap.set i false)).1
          else best) Match.none =
          bestOf hint (positions bitmap) (fun i =>
            (matchBestIndex columns orderColumns hint n (bitmap.set i false)).1)
            bitmap.length := by
        unfold bestOf
        simp only [mem_positions]
      rw [hloop]
      have hresult : ∀ i ∈ positions bitmap,
          Outcome columns orderColumns hint ((positions bitmap).erase i)
            (matchBestIndex columns orderColumns hint n (bitmap.set i false)).1 := by
        intro i hi
        rw [← positions_set_false]
        refine ih _ (by rw [length_set, hlen]) ?_
        rw [positions_set_false, Finset.card_erase_of_mem hi]
        have := Finset.card_pos.mpr ⟨i, hi⟩
        omega
      by_cases hany : ∃ K, Within (columnAt columns) (keySets orderColumns hint)
          (positions bitmap) K
      · obtain ⟨K, hK⟩ := hany
        have hB := image_notMem_keySets hexact
        have hsome := exists_removable hK hB
        classical
        have hi := Nat.find_spec hsome
        have hmin : ∀ j, Removable (columnAt columns) (keySets orderColumns hint)
            (positions bitmap) j → Nat.find hsome ≤ j := fun j hj => Nat.find_min' hsome hj
        have hlt : Nat.find hsome < bitmap.length :=
          lt_length_of_getD (mem_positions.mp hi.1)
        rw [(bestOf_eq hwf hresult hi hmin bitmap.length).2 hlt]
        rcases hresult _ hi.1 with ⟨-, hnone⟩ | ⟨ix, hfinds⟩
        · obtain ⟨K₀, hK₀, hsub⟩ := hi.2
          exact absurd ⟨hK₀.1.1, hsub⟩ (hnone K₀)
        · exact .inr ⟨ix, { hfinds with
            latest := latest_of_erase hi hmin hfinds.latest
            bitmap := hfinds.bitmap.trans (kept_erase hi hmin hB hfinds.latest.1) }⟩
      · push Not at hany
        exact .inl ⟨bestOf_eq_none hresult hany _, hany⟩

end Search

/-! ### The match is exact -/

/-- The index can be used for the order and its key columns are among the columns. -/
structure TableIndex.Usable (columns orderColumns : List String) (ix : TableIndex) : Prop where
  hasOrder : ix.hasOrder orderColumns = true
  keys : ∀ c ∈ ix.keys, c ∈ columns

/-- What `MatchBestIndex` is for: an index with the most key columns, the positions of its key
columns, and the bitmap as before. -/
structure ExactMatch (columns orderColumns : List String) (hint : IndexHint) : Prop where
  found_iff : (matchAll columns orderColumns hint).1.found = true ↔
    ∃ ix ∈ hint.entries, ix.Usable columns orderColumns
  best : (matchAll columns orderColumns hint).1.found = true →
    ∃ ix ∈ hint.entries, (matchAll columns orderColumns hint).1.indexName = ix.name ∧
      ix.Usable columns orderColumns ∧
      (∀ other ∈ hint.entries, other.Usable columns orderColumns →
        other.keys.toFinset.card ≤ ix.keys.toFinset.card) ∧
      (matchAll columns orderColumns hint).1.indexBitmap =
        columns.map fun c => decide (c ∈ ix.keys)
  restored : (matchAll columns orderColumns hint).2 = List.replicate columns.length true

/-- Of the usable indexes with the most key columns, one that does without the columns that come
first, in the order of their last occurrences. -/
def LatestIndex (columns orderColumns : List String) (hint : IndexHint) (ix : TableIndex) : Prop :=
  Latest (columnAt columns) (keySets orderColumns hint) (Finset.range columns.length)
    ix.keys.toFinset

/-- A key column that does not occur for the last time has only key columns behind it. -/
def NoEarlyRepeat (columns keys : List String) : Prop :=
  ∀ i < columns.length, columnAt columns i ∈ keys →
    (∀ j < columns.length, i < j → columnAt columns j ∈ keys) ∨
      ∀ k < columns.length, i < k → columnAt columns k ≠ columnAt columns i

theorem positions_replicate (n : Nat) : positions (List.replicate n true) = Finset.range n := by
  ext i
  rw [mem_positions]
  by_cases h : i < n <;> simp [h]

theorem eq_of_positions_eq {a b} (hlen : a.length = b.length) (h : positions a = positions b) :
    a = b := by
  refine ext_getElem hlen fun i ha hb => ?_
  have hi : a.getD i false = true ↔ b.getD i false = true := by
    rw [← mem_positions, h, mem_positions]
  rw [getD_eq_getElem _ _ ha, getD_eq_getElem _ _ hb] at hi
  exact Bool.eq_iff_iff.mpr hi

theorem columnAt_eq {columns} (h : i < columns.length) : columnAt columns i = columns[i] :=
  getD_eq_getElem _ _ h

theorem mem_iff_exists_columnAt {columns c} :
    c ∈ columns ↔ ∃ i ∈ Finset.range columns.length, columnAt columns i = c := by
  rw [mem_iff_getElem]
  constructor
  · intro ⟨i, hi, hc⟩
    exact ⟨i, Finset.mem_range.mpr hi, (columnAt_eq hi).trans hc⟩
  · intro ⟨i, hi, hc⟩
    exact ⟨i, Finset.mem_range.mp hi, (columnAt_eq (Finset.mem_range.mp hi)).symm.trans hc⟩

theorem positions_map (columns keys : List String) :
    positions (columns.map fun c => decide (c ∈ keys)) =
      (Finset.range columns.length).filter fun i => columnAt columns i ∈ keys.toFinset := by
  ext i
  rw [mem_positions, Finset.mem_filter]
  by_cases h : i < columns.length
  · rw [columnAt_eq h]
    simp [h]
  · simp [h]

section Exact

variable {columns orderColumns : List String} {hint : IndexHint}

variable {ix : TableIndex}

theorem within_iff_usable (hmem : ix ∈ hint.entries) (horder : ix.hasOrder orderColumns = true) :
    Within (columnAt columns) (keySets orderColumns hint) (Finset.range columns.length)
      ix.keys.toFinset ↔ ix.Usable columns orderColumns := by
  constructor
  · intro h
    refine ⟨horder, fun c hc => ?_⟩
    have himage := h.2 (List.mem_toFinset.mpr hc)
    exact mem_iff_exists_columnAt.mpr (Finset.mem_image.mp himage)
  · intro h
    refine ⟨⟨ix, hmem, horder, rfl⟩, fun c hc => ?_⟩
    exact Finset.mem_image.mpr (mem_iff_exists_columnAt.mp (h.keys c (List.mem_toFinset.mp hc)))

/-- A usable index with the most key columns has a largest key set. -/
theorem largest_iff (hmem : ix ∈ hint.entries) :
    ix.hasOrder orderColumns = true ∧
        Largest (columnAt columns) (keySets orderColumns hint) (Finset.range columns.length)
          ix.keys.toFinset ↔
      ix.Usable columns orderColumns ∧ ∀ other ∈ hint.entries, other.Usable columns orderColumns →
        other.keys.toFinset.card ≤ ix.keys.toFinset.card := by
  constructor
  · intro ⟨horder, hlargest⟩
    refine ⟨(within_iff_usable hmem horder).mp hlargest.1, fun other hother husable => ?_⟩
    exact hlargest.2 _ ((within_iff_usable hother husable.hasOrder).mpr husable)
  · intro ⟨husable, hmax⟩
    refine ⟨husable.hasOrder, (within_iff_usable hmem husable.hasOrder).mpr husable, ?_⟩
    intro K hK
    obtain ⟨other, hother, horder, rfl⟩ := hK.1
    exact hmax other hother ((within_iff_usable hother horder).mp hK)

theorem noEarlyRepeat_iff (columns keys : List String) :
    kept (columnAt columns) (Finset.range columns.length) keys.toFinset =
        (Finset.range columns.length).filter (fun i => columnAt columns i ∈ keys.toFinset) ↔
      NoEarlyRepeat columns keys := by
  rw [kept_eq_filter_iff]
  simp [NoEarlyRepeat, IsLast]

/-- The search from an all-true bitmap. -/
theorem outcome_matchAll (horder : orderColumns.length ≤ 1) (hwf : hint.WellFormed) :
    Outcome columns orderColumns hint (Finset.range columns.length)
      (matchAll columns orderColumns hint).1 := by
  have h : Outcome columns orderColumns hint (positions (List.replicate columns.length true))
      (matchAll columns orderColumns hint).1 :=
    outcome_matchBestIndex horder hwf _ _ (by simp) (by rw [positions_replicate]; simp)
  rwa [positions_replicate] at h

theorem exactMatch_iff_of_finds
    (hrestored : (matchAll columns orderColumns hint).2 = List.replicate columns.length true)
    (h : Finds columns orderColumns hint (Finset.range columns.length) (matchAll columns
      orderColumns hint).1 ix) :
    ExactMatch columns orderColumns hint ↔ NoEarlyRepeat columns ix.keys := by
  obtain ⟨husable, hmax⟩ := (largest_iff h.mem).mp ⟨h.hasOrder, h.latest.1⟩
  rw [← noEarlyRepeat_iff, ← h.bitmap, ← positions_map]
  constructor
  · intro hexact
    obtain ⟨ix', hmem', hname', -, -, hbitmap⟩ := hexact.best h.found
    have hsame : ix' = ix := by
      have hfind := IndexHint.find?_of_mem hmem'
      rw [← hname', h.name, IndexHint.find?_of_mem h.mem] at hfind
      exact (Option.some.inj hfind).symm
    rw [hbitmap, hsame]
  · intro hpositions
    have hbitmap := eq_of_positions_eq (by rw [h.length, length_map]) hpositions
    exact ⟨iff_of_true h.found ⟨ix, h.mem, husable⟩,
      fun _ => ⟨ix, h.mem, h.name, husable, hmax, hbitmap⟩, hrestored⟩

/-- `MatchBestIndex` finds a largest index and restores the bitmap. The bitmap it returns marks the
key columns unless one of them occurs again behind its position and a column behind that position
does not belong to the index. -/
theorem matchBestIndex_exact_iff (horder : orderColumns.length ≤ 1) (hwf : hint.WellFormed) :
    ExactMatch columns orderColumns hint ↔
      ∀ ix ∈ hint.entries, ix.hasOrder orderColumns = true →
        LatestIndex columns orderColumns hint ix → NoEarlyRepeat columns ix.keys := by
  have hrestored : (matchAll columns orderColumns hint).2 = List.replicate columns.length true :=
    matchBestIndex_bitmap columns orderColumns hint _ _
  rcases outcome_matchAll horder hwf with ⟨hnone, hwithin⟩ | ⟨ix, hfinds⟩
  · have hfound : ¬ (matchAll columns orderColumns hint).1.found = true := by
      rw [hnone]
      exact Bool.false_ne_true
    refine iff_of_true ⟨iff_of_false hfound ?_, fun h => absurd h hfound, hrestored⟩ ?_
    · intro ⟨ix, hmem, husable⟩
      exact hwithin _ ((within_iff_usable hmem husable.hasOrder).mpr husable)
    · intro ix _ _ hlatest
      exact absurd hlatest.1.1 (hwithin _)
  · rw [show (∀ ix ∈ hint.entries, ix.hasOrder orderColumns = true →
        LatestIndex columns orderColumns hint ix → NoEarlyRepeat columns ix.keys) ↔
        NoEarlyRepeat columns ix.keys from ?_]
    · exact exactMatch_iff_of_finds hrestored hfinds
    · constructor
      · intro h
        exact h ix hfinds.mem hfinds.hasOrder hfinds.latest
      · intro h other _ _ hlatest
        rw [← noEarlyRepeat_iff, hlatest.unique hfinds.latest]
        exact (noEarlyRepeat_iff columns ix.keys).mpr h

end Exact

/-- A table with one index. -/
def IndexHint.single (ix : TableIndex) : IndexHint := ⟨[ix], nodup_singleton _⟩

/-- An index on the first of two columns. -/
theorem matchBestIndex_exact_two :
    (IndexHint.single ⟨"i", ["a"], none⟩).WellFormed ∧
      ExactMatch ["a", "b"] [] (.single ⟨"i", ["a"], none⟩) := by
  have hwf : (IndexHint.single ⟨"i", ["a"], none⟩).WellFormed :=
    ⟨by simp [IndexHint.single], by simp [IndexHint.single]⟩
  refine ⟨hwf, (matchBestIndex_exact_iff (by decide) hwf).mpr fun ix hix _ _ => ?_⟩
  obtain rfl := mem_singleton.mp hix
  intro i hi hmem
  match i, hi with
  | 0, _ => exact .inr (by decide)
  | 1, _ => exact absurd hmem (by decide)

/-- The column `a` stands before and behind `b`: only the second `a` is marked. -/
theorem not_exactMatch_repeated :
    (matchAll ["a", "b", "a"] [] (.single ⟨"i", ["a"], none⟩)).1 =
        ⟨true, "i", [false, false, true]⟩ ∧
      ¬ ExactMatch ["a", "b", "a"] [] (.single ⟨"i", ["a"], none⟩) := by
  have hmatch : (matchAll ["a", "b", "a"] [] (.single ⟨"i", ["a"], none⟩)).1 =
      ⟨true, "i", [false, false, true]⟩ := by
    decide
  refine ⟨hmatch, fun h => ?_⟩
  obtain ⟨ix, hix, -, -, -, hbitmap⟩ := h.best (by rw [hmatch])
  obtain rfl := mem_singleton.mp hix
  exact absurd hbitmap (by decide)

end HybridSE.Passes.GroupAndSort
