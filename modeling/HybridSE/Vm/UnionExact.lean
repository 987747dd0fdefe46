import HybridSE.Vm.WindowConsistency

/-!
# HybridSE.Vm.UnionExact

Is the window of request mode the frame's part of the merged segments?

`ExactWindow` is the meaning of a window frame over the rows of all segments: the
candidates up to the end of the window, arranged newest first, and the part of them that
the frame selects. `RequestUnionWindow` computes the same cut with two shortcuts. It
clamps the end of the window at key zero, where the frame ends before all keys, and it
counts the request row as one row of every rows frame, also where the window ends before
it. `UnionExact` says when neither of them shows.
-/

namespace HybridSE.Vm

open HybridSE.Lib List

variable {Row : Type*}

/-! ### The frame's rows -/

/-- The ranges of windows that do not look ahead. -/
structure WindowRange.LooksBack (range : WindowRange) : Prop where
  start_le_end : range.startOffset ≤ range.endOffset
  end_nonpos : range.endOffset ≤ 0

/-- All rows of the segments. -/
def segmentRows (segments : List (Option (List (Entry Row)))) : List (Entry Row) :=
  segments.flatMap fun segment => segment.getD []

/-- The last key of the window, as an integer: a window that leaves out the current time
ends before it. -/
def windowEnd (range : WindowRange) (excludeCurrentTime : Bool) (ts : Nat) : Int :=
  if excludeCurrentTime && decide (range.endOffset = 0) then ts - 1 else ts + range.endOffset

/-- The rows that are not after the end of the window. -/
def candidates (range : WindowRange) (excludeCurrentTime : Bool) (ts : Nat)
    (rows : List (Entry Row)) : List (Entry Row) :=
  rows.filter fun e => decide ((e.1 : Int) ≤ windowEnd range excludeCurrentTime ts)

/-- Is the key inside the time range of the window? -/
def inTimeRange (range : WindowRange) (ts : Nat) (e : Entry Row) : Bool :=
  decide ((ts : Int) + range.startOffset ≤ e.1)

/-- The rows that a frame selects among rows arranged newest first, without its size
limit: the newest ones, those in the time range, or both. -/
def selectRows (range : WindowRange) (ts : Nat) (arranged : List (Entry Row)) :
    List (Entry Row) :=
  match range.frameType with
  | .kFrameRows => arranged.take range.startRow
  | .kFrameRowsRange => arranged.filter (inTimeRange range ts)
  | .kFrameRowsMergeRowsRange =>
    arranged.take range.startRow ++
      (arranged.drop range.startRow).filter (inTimeRange range ts)

/-- At most `max_size` rows, of which `taken` are taken already. -/
def limitSize (maxSize taken : Nat) (rows : List (Entry Row)) : List (Entry Row) :=
  if maxSize = 0 then rows else rows.take (maxSize - taken)

/-- The request row belongs to the frame if the window ends at it. -/
def requestInFrame (range : WindowRange) : Nat := if range.endOffset = 0 then 1 else 0

/-- The window is the request row and the frame's rows among the candidates, for some
arrangement of these newest first. -/
def ExactWindow (range : WindowRange) (excludeCurrentTime : Bool) (ts : Nat) (request : Row)
    (rows window : List (Entry Row)) : Prop :=
  ∃ arranged : List (Entry Row),
    arranged.Perm (candidates range excludeCurrentTime ts rows) ∧
    arranged.Pairwise KeyDesc ∧
    window = (ts, request) ::
      limitSize range.maxSize (requestInFrame range) (selectRows range ts arranged)

/-- How many rows the frame selects, without its size limit. -/
def selectCount (range : WindowRange) (ts : Nat) (rows : List (Entry Row)) : Nat :=
  match range.frameType with
  | .kFrameRows => min range.startRow rows.length
  | .kFrameRowsRange => rows.countP (inTimeRange range ts)
  | .kFrameRowsMergeRowsRange =>
    min rows.length (max range.startRow (rows.countP (inTimeRange range ts)))

/-- The clamped end and the counted request row do not show. -/
def UnionExact (range : WindowRange) (excludeCurrentTime : Bool) (ts : Nat)
    (rows : List (Entry Row)) : Prop :=
  if 0 ≤ windowEnd range excludeCurrentTime ts then
    range.endOffset = 0 ∨ range.frameType = .kFrameRowsRange ∨ range.maxSize = 0 ∨
      selectCount range ts (candidates range excludeCurrentTime ts rows) < range.maxSize
  else
    (∀ e ∈ rows, e.1 ≠ 0) ∨ (range.frameType = .kFrameRows ∧ range.startRow = 0) ∨
      (range.maxSize = 1 ∧ (range.frameType ≠ .kFrameRowsRange ∨ range.endOffset = 0))

/-! ### Counting the selected rows -/

variable {range : WindowRange} {ts : Nat} {xs : List (Entry Row)}

theorem inTimeRange_antitone (h : xs.Pairwise KeyDesc) :
    xs.Pairwise fun x y => inTimeRange range ts y = true → inTimeRange range ts x = true := by
  refine h.imp fun {x y} hxy hy => ?_
  have hle : y.1 ≤ x.1 := hxy
  simp only [inTimeRange, decide_eq_true_eq] at hy ⊢
  omega

/-- A test that only turns from true to false holds on the first `n` elements, or on none
behind them. -/
theorem length_take_add_countP_drop {p} (h : xs.Pairwise fun x y => p y = true → p x = true)
    (n : Nat) :
    (xs.take n).length + (xs.drop n).countP p = min xs.length (max n (xs.countP p)) := by
  have hsplit : xs.countP p = (xs.take n).countP p + (xs.drop n).countP p := by
    conv_lhs => rw [← take_append_drop n xs]
    rw [countP_append]
  have htake : (xs.take n).length = min n xs.length := length_take
  have hcount : xs.countP p ≤ xs.length := countP_le_length
  by_cases hall : ∀ x ∈ xs.take n, p x = true
  · have hfull : (xs.take n).countP p = (xs.take n).length := countP_eq_length.mpr hall
    omega
  · have hnone : (xs.drop n).countP p = 0 := by
      rw [countP_eq_zero]
      intro y hy hpy
      refine hall fun x hx => ?_
      rw [← take_append_drop n xs, pairwise_append] at h
      exact h.2.2 x hx y hy hpy
    have hle : (xs.take n).countP p ≤ (xs.take n).length := countP_le_length
    omega

/-- The number of selected rows does not depend on the arrangement. -/
theorem length_selectRows (h : xs.Pairwise KeyDesc) :
    (selectRows range ts xs).length = selectCount range ts xs := by
  unfold selectRows selectCount
  cases range.frameType with
  | kFrameRows => exact length_take
  | kFrameRowsRange => exact countP_eq_length_filter.symm
  | kFrameRowsMergeRowsRange =>
    rw [length_append, ← countP_eq_length_filter,
      length_take_add_countP_drop (inTimeRange_antitone h)]

theorem selectCount_perm {ys} (h : xs.Perm ys) :
    selectCount range ts xs = selectCount range ts ys := by
  unfold selectCount
  rw [h.length_eq, h.countP_eq]

theorem length_limitSize (maxSize taken : Nat) (rows : List (Entry Row)) :
    (limitSize maxSize taken rows).length =
      if maxSize = 0 then rows.length else min (maxSize - taken) rows.length := by
  unfold limitSize
  split
  · rfl
  · exact length_take

/-! ### The code's cut -/

/-- The size limit of the loop. -/
theorem takeIdxWhile_limitSize (maxSize taken : Nat) (rows : List (Entry Row)) :
    takeIdxWhile (fun i _ => decide (maxSize = 0) || decide (i < maxSize)) taken rows =
      limitSize maxSize taken rows := by
  unfold limitSize
  split
  · next h => exact takeIdxWhile_eq_self fun j x _ _ => by simp [h]
  · next h =>
      rw [← takeIdxWhile_lt]
      exact takeIdxWhile_congr fun j x _ => by simp [h]

/-- The frame test selects the frame's rows, when the request row is counted in every
frame that counts rows. -/
theorem takeIdxWhile_frameKeep_eq {startTs taken}
    (hstart : ∀ e : Entry Row, decide (startTs ≤ e.1) = inTimeRange range ts e)
    (htaken : range.frameType ≠ .kFrameRowsRange → taken = 1) (h : xs.Pairwise KeyDesc) :
    takeIdxWhile (frameKeep range (range.startRow + 1) startTs) taken xs =
      limitSize range.maxSize taken (selectRows range ts xs) := by
  have hselect : takeIdxWhile (fun i e => match range.frameType with
      | .kFrameRows => decide (i < range.startRow + 1)
      | .kFrameRowsRange => decide (startTs ≤ e.1)
      | .kFrameRowsMergeRowsRange =>
        decide (i < range.startRow + 1) || decide (startTs ≤ e.1)) taken xs =
      selectRows range ts xs := by
    have hfilter : ∀ ys : List (Entry Row), ys.Pairwise KeyDesc →
        ys.takeWhile (inTimeRange range ts) = ys.filter (inTimeRange range ts) :=
      fun ys hys => takeWhile_eq_filter (inTimeRange_antitone hys)
    simp only [hstart]
    unfold selectRows
    cases hf : range.frameType with
    | kFrameRows =>
      rw [htaken (by simp [hf])]
      exact takeIdxWhile_lt _ 1 xs
    | kFrameRowsRange =>
      rw [← hfilter xs h]
      exact takeIdxWhile_const (inTimeRange range ts) taken xs
    | kFrameRowsMergeRowsRange =>
      rw [htaken (by simp [hf]), ← hfilter _ (h.sublist (drop_sublist _ _))]
      exact takeIdxWhile_lt_or _ _ 1 xs
  rw [← hselect, ← takeIdxWhile_limitSize, takeIdxWhile_and]
  exact takeIdxWhile_congr fun j x _ => by
    exact Bool.and_comm _ _

section Code

variable {range : WindowRange} {excludeCurrentTime : Bool} {ts : Nat} {request : Row}
  {segments : List (Option (List (Entry Row)))}

/-- The request row is counted in every frame that counts rows, and in a window that ends
at it. -/
def requestCounted (range : WindowRange) : Nat :=
  if range.frameType = .kFrameRowsRange ∧ range.endOffset ≠ 0 then 0 else 1

/-- The iterators at the end of the window, which is not before key zero. -/
def segmentIters (range : WindowRange) (excludeCurrentTime : Bool) (ts : Nat)
    (segments : List (Option (List (Entry Row)))) : List (List (Entry Row)) :=
  segments.map fun segment =>
    seek (windowEnd range excludeCurrentTime ts).toNat (segment.getD [])

theorem unionBounds_eq_windowEnd (hr : range.LooksBack) (excludeCurrentTime : Bool)
    (hts : ts < 2 ^ 63) :
    unionBounds ts range excludeCurrentTime =
      { start := ((ts : Int) + range.startOffset).toNat
        endTs := (windowEnd range excludeCurrentTime ts).toNat
        rowsStartPreceding := range.startRow
        maxSize := range.maxSize } := by
  have hstart := clampTs_eq hts range.startOffset_int64 (hr.start_le_end.trans hr.end_nonpos)
  have hend := clampTs_eq hts range.endOffset_int64 hr.end_nonpos
  have hpred : clampTs ts (-1) = ((ts : Int) - 1).toNat := clampTs_eq hts (by decide) (by decide)
  unfold unionBounds windowEnd
  rw [if_pos (Int.natCast_nonneg ts), hstart, hend, hpred]
  split <;> rfl

/-- The status of the request row. -/
theorem requestStatus_eq (hr : range.LooksBack) :
    (if range.getWindowPositionStatus (decide (range.startRow < 0))
        (decide (range.endOffset < 0))
        (decide (ts < ((ts : Int) + range.startOffset).toNat)) = .kInWindow then 1 else 0) =
      requestCounted range := by
  have hnonpos := hr.end_nonpos
  have hstart : ¬ ts < ((ts : Int) + range.startOffset).toNat := by
    have := hr.start_le_end
    omega
  unfold WindowRange.getWindowPositionStatus requestCounted
  cases hf : range.frameType with
  | kFrameRows => simp
  | kFrameRowsMergeRowsRange => simp
  | kFrameRowsRange =>
    by_cases hend : range.endOffset = 0
    · simp [hend, hstart]
    · have hneg : range.endOffset < 0 := by omega
      simp [hend, hneg, hstart]

theorem segmentIters_le (hsorted : ∀ segment ∈ segments, (segment.getD []).Pairwise KeyDesc) :
    ∀ e ∈ (segmentIters range excludeCurrentTime ts segments).flatten,
      e.1 ≤ (windowEnd range excludeCurrentTime ts).toNat := by
  intro e he
  obtain ⟨seg, hseg, he⟩ := mem_flatten.mp he
  obtain ⟨segment, hmem, rfl⟩ := List.mem_map.mp hseg
  rw [seek_eq_filter (hsorted segment hmem)] at he
  simpa using (mem_filter.mp he).2

/-- The rows that the iterators deliver, in some order. -/
theorem segmentIters_flatten (hsorted : ∀ segment ∈ segments, (segment.getD []).Pairwise KeyDesc) :
    (segmentIters range excludeCurrentTime ts segments).flatten =
      (segmentRows segments).filter fun e =>
        decide (e.1 ≤ (windowEnd range excludeCurrentTime ts).toNat) := by
  unfold segmentIters segmentRows
  induction segments with
  | nil => rfl
  | cons segment segments ih =>
    rw [map_cons, flatten_cons, flatMap_cons, filter_append,
      seek_eq_filter (hsorted segment mem_cons_self),
      ih fun s hs => hsorted s (mem_cons_of_mem _ hs)]

/-- The segments merged newest first. -/
theorem mergedSegments_spec (hsorted : ∀ segment ∈ segments, (segment.getD []).Pairwise KeyDesc) :
    (mergeUnionSegments (segmentIters range excludeCurrentTime ts segments)).Pairwise KeyDesc ∧
      (mergeUnionSegments (segmentIters range excludeCurrentTime ts segments)).Perm
        ((segmentRows segments).filter fun e =>
          decide (e.1 ≤ (windowEnd range excludeCurrentTime ts).toNat)) := by
  have hiters : ∀ seg ∈ segmentIters range excludeCurrentTime ts segments,
      seg.Pairwise KeyDesc := by
    intro seg hseg
    obtain ⟨segment, hmem, rfl⟩ := List.mem_map.mp hseg
    exact (hsorted segment hmem).sublist (dropWhile_sublist _)
  have hmerge := isStableMerge_mergeUnionSegments hiters
  refine ⟨hmerge.sorted, ?_⟩
  rw [← segmentIters_flatten hsorted]
  exact hmerge.perm.trans (reverse_perm _).flatten

/-- Request mode for every window that does not look ahead. -/
theorem requestUnionWindow_eq_cut (hr : range.LooksBack) (hts : ts < 2 ^ 63)
    (hsorted : ∀ segment ∈ segments, (segment.getD []).Pairwise KeyDesc) :
    requestUnionWindow request segments ts range true excludeCurrentTime =
      (ts, request) :: takeIdxWhile
        (frameKeep range (range.startRow + 1) ((ts : Int) + range.startOffset).toNat)
        (requestCounted range)
        (mergeUnionSegments (segmentIters range excludeCurrentTime ts segments)) := by
  have hkey : (if (0 : Int) < ts then (ts : Int).toNat else 0) = ts := by
    split <;> omega
  unfold requestUnionWindow
  rw [unionBounds_eq_windowEnd hr excludeCurrentTime hts]
  rw [hkey, if_pos rfl, requestStatus_eq hr]
  exact congrArg _ (requestUnionLoop_eq range rfl _ _ _ (segmentIters_le hsorted))

theorem requestUnionWindow_eq_select (hr : range.LooksBack) (hts : ts < 2 ^ 63)
    (hsorted : ∀ segment ∈ segments, (segment.getD []).Pairwise KeyDesc) :
    requestUnionWindow request segments ts range true excludeCurrentTime =
      (ts, request) :: limitSize range.maxSize (requestCounted range)
        (selectRows range ts
          (mergeUnionSegments (segmentIters range excludeCurrentTime ts segments))) := by
  rw [requestUnionWindow_eq_cut hr hts hsorted]
  refine congrArg _ (takeIdxWhile_frameKeep_eq (fun e => ?_) (fun hf => ?_)
    (mergedSegments_spec hsorted).1)
  · rw [inTimeRange, Bool.eq_iff_iff, decide_eq_true_eq, decide_eq_true_eq]
    omega
  · exact if_neg fun h => hf h.1

/-- The cut looks at the keys only. -/
theorem frameCut_keys (range : WindowRange) (rowsLimit startTs taken : Nat)
    (rows : List (Entry Row)) :
    (takeIdxWhile (frameKeep range rowsLimit startTs) taken rows).map Prod.fst =
      takeIdxWhile (fun i key => frameKeep range rowsLimit startTs i (key, ())) taken
        (rows.map Prod.fst) := by
  refine map_takeIdxWhile ?_ _ _
  exact fun _ _ => rfl

/-- Newest-first lists of the same rows have the same keys. -/
theorem keys_eq_of_perm {xs ys : List (Entry Row)} (hx : xs.Pairwise KeyDesc)
    (hy : ys.Pairwise KeyDesc) (h : xs.Perm ys) : xs.map Prod.fst = ys.map Prod.fst := by
  have hdesc : ∀ {zs : List (Entry Row)}, zs.Pairwise KeyDesc →
      (zs.map Prod.fst).Pairwise fun a b => b ≤ a := fun hz => pairwise_map.mpr hz
  exact (h.map Prod.fst).eq_of_pairwise (fun a b _ _ hab hba => Nat.le_antisymm hba hab)
    (hdesc hx) (hdesc hy)

/-! ### When the window is exact -/

/-- Where the window ends at or after key zero, the code reads the candidates. -/
theorem filter_windowEnd_eq_candidates (h : 0 ≤ windowEnd range excludeCurrentTime ts)
    (rows : List (Entry Row)) :
    rows.filter (fun e => decide (e.1 ≤ (windowEnd range excludeCurrentTime ts).toNat)) =
      candidates range excludeCurrentTime ts rows := by
  refine filter_congr fun e _ => ?_
  rw [Bool.eq_iff_iff, decide_eq_true_eq, decide_eq_true_eq]
  omega

/-- Where it ends before key zero, there are none. -/
theorem candidates_eq_nil (h : windowEnd range excludeCurrentTime ts < 0)
    (rows : List (Entry Row)) : candidates range excludeCurrentTime ts rows = [] := by
  refine filter_eq_nil_iff.mpr fun e _ he => ?_
  rw [decide_eq_true_eq] at he
  omega

theorem selectRows_nil : selectRows range ts ([] : List (Entry Row)) = [] := by
  unfold selectRows
  cases range.frameType <;> simp

theorem limitSize_nil (maxSize taken : Nat) :
    limitSize maxSize taken ([] : List (Entry Row)) = [] := by
  unfold limitSize
  split
  · rfl
  · exact take_nil

variable {rows : List (Entry Row)}

/-- The number of rows behind the request row, for an end at or after key zero. -/
theorem limitSize_requestCounted_eq
    (h : range.endOffset = 0 ∨ range.frameType = .kFrameRowsRange ∨ range.maxSize = 0 ∨ rows.length
      < range.maxSize) :
    limitSize range.maxSize (requestCounted range) rows =
      limitSize range.maxSize (requestInFrame range) rows := by
  unfold limitSize
  split
  · rfl
  · next hmax =>
      by_cases hend : range.endOffset = 0
      · simp [requestCounted, requestInFrame, hend]
      · by_cases hf : range.frameType = .kFrameRowsRange
        · simp [requestCounted, requestInFrame, hf]
        · have hlen : rows.length < range.maxSize := by tauto
          rw [take_of_length_le (by unfold requestCounted; split <;> omega),
            take_of_length_le (by unfold requestInFrame; split <;> omega)]

/-- A window that ends at or after key zero. -/
theorem exactWindow_iff_of_nonneg (hend : 0 ≤ windowEnd range excludeCurrentTime ts) {merged}
    (hmerged : merged.Pairwise KeyDesc)
    (hperm : merged.Perm (candidates range excludeCurrentTime ts rows)) :
    ExactWindow range excludeCurrentTime ts request rows
        ((ts, request) :: limitSize range.maxSize (requestCounted range)
          (selectRows range ts merged)) ↔
      UnionExact range excludeCurrentTime ts rows := by
  unfold UnionExact
  rw [if_pos hend, ← selectCount_perm hperm, ← length_selectRows hmerged]
  constructor
  · rintro ⟨arranged, harranged, hdesc, hwindow⟩
    have hlen := congrArg List.length (List.cons.inj hwindow).2
    rw [length_limitSize, length_limitSize, length_selectRows hdesc,
      selectCount_perm (harranged.trans hperm.symm)] at hlen
    rw [length_selectRows hmerged]
    by_cases hzero : range.endOffset = 0
    · exact .inl hzero
    by_cases hf : range.frameType = .kFrameRowsRange
    · exact .inr (.inl hf)
    by_cases hmax : range.maxSize = 0
    · exact .inr (.inr (.inl hmax))
    · have hcounted : requestCounted range = 1 := if_neg fun h => hf h.1
      have hframe : requestInFrame range = 0 := if_neg hzero
      rw [if_neg hmax, if_neg hmax] at hlen
      omega
  · intro h
    exact ⟨merged, hperm, hmerged, by rw [limitSize_requestCounted_eq h]⟩

/-- A window that ends before key zero: the code reads the rows of key zero instead. -/
theorem exactWindow_iff_of_neg (hr : range.LooksBack)
    (hend : windowEnd range excludeCurrentTime ts < 0) {merged : List (Entry Row)}
    (hmerged : merged.Pairwise KeyDesc)
    (hperm : merged.Perm (rows.filter fun e => decide (e.1 ≤ (windowEnd range excludeCurrentTime
      ts).toNat))) :
    ExactWindow range excludeCurrentTime ts request rows
        ((ts, request) :: limitSize range.maxSize (requestCounted range)
          (selectRows range ts merged)) ↔
      UnionExact range excludeCurrentTime ts rows := by
  -- all rows that are read have key zero, which is in the time range
  have hstart : (ts : Int) + range.startOffset ≤ 0 := by
    have hle := hr.start_le_end
    unfold windowEnd at hend
    split at hend
    · next h =>
        simp only [Bool.and_eq_true, decide_eq_true_eq] at h
        omega
    · omega
  have hcount : merged.countP (inTimeRange range ts) = merged.length :=
    countP_eq_length.mpr fun e _ => by
      rw [inTimeRange, decide_eq_true_eq]
      omega
  have hempty : merged = [] ↔ ∀ e ∈ rows, e.1 ≠ 0 := by
    have hnil : merged = [] ↔ rows.filter (fun e =>
        decide (e.1 ≤ (windowEnd range excludeCurrentTime ts).toNat)) = [] :=
      ⟨fun h => (h ▸ hperm).nil_eq.symm, fun h => (h ▸ hperm).eq_nil⟩
    rw [hnil, filter_eq_nil_iff, show (windowEnd range excludeCurrentTime ts).toNat = 0 by
      omega]
    simp
  have hexact : ExactWindow range excludeCurrentTime ts request rows
      ((ts, request) :: limitSize range.maxSize (requestCounted range)
        (selectRows range ts merged)) ↔
      (limitSize range.maxSize (requestCounted range) (selectRows range ts merged)).length = 0 := by
    unfold ExactWindow
    rw [candidates_eq_nil hend, length_eq_zero_iff]
    constructor
    · rintro ⟨arranged, harranged, -, hwindow⟩
      rw [harranged.eq_nil, selectRows_nil, limitSize_nil] at hwindow
      exact (List.cons.inj hwindow).2
    · intro h
      exact ⟨[], List.Perm.nil, List.Pairwise.nil, by rw [h, selectRows_nil, limitSize_nil]⟩
  have hlength : merged.length = 0 ↔ ∀ e ∈ rows, e.1 ≠ 0 := by
    rw [length_eq_zero_iff, hempty]
  have hselect : selectCount range ts merged = 0 ↔
      merged.length = 0 ∨ (range.frameType = .kFrameRows ∧ range.startRow = 0) := by
    unfold selectCount
    rw [hcount]
    cases range.frameType with
    | kFrameRows => simp only [true_and]; omega
    | kFrameRowsRange => simp
    | kFrameRowsMergeRowsRange => simp only [reduceCtorEq, false_and, or_false]; omega
  have hcounted : (requestCounted range = 0 ∧ range.frameType = .kFrameRowsRange ∧
      range.endOffset ≠ 0) ∨ (requestCounted range = 1 ∧
        (range.frameType ≠ .kFrameRowsRange ∨ range.endOffset = 0)) := by
    unfold requestCounted
    split <;> tauto
  unfold UnionExact
  rw [hexact, length_limitSize, length_selectRows hmerged, if_neg (not_le.mpr hend), ← hlength,
    ← or_assoc, ← hselect]
  rcases hcounted with ⟨hcounted, hf⟩ | ⟨hcounted, hf⟩ <;> rw [hcounted]
  · have hnot : ¬ (range.frameType ≠ .kFrameRowsRange ∨ range.endOffset = 0) := by tauto
    simp only [hnot, and_false, or_false]
    split <;> omega
  · simp only [hf, and_true]
    split <;> omega

end Code

/-- The window of request mode is exact exactly when the clamped end and the counted
request row do not show, and its keys never depend on how the rows are spread over the
segments. -/
theorem requestUnionWindow_exact_iff {range : WindowRange} (hr : range.LooksBack)
    (excludeCurrentTime : Bool) {ts : Nat} (hts : ts < 2 ^ 63) (request : Row)
    {segments : List (Option (List (Entry Row)))}
    (hsorted : ∀ segment ∈ segments, (segment.getD []).Pairwise KeyDesc) :
    (ExactWindow range excludeCurrentTime ts request (segmentRows segments)
        (requestUnionWindow request segments ts range true excludeCurrentTime) ↔
      UnionExact range excludeCurrentTime ts (segmentRows segments)) ∧
    ∀ segments' : List (Option (List (Entry Row))),
      (∀ segment ∈ segments', (segment.getD []).Pairwise KeyDesc) →
      (segmentRows segments').Perm (segmentRows segments) →
      (requestUnionWindow request segments' ts range true excludeCurrentTime).map Prod.fst =
        (requestUnionWindow request segments ts range true excludeCurrentTime).map Prod.fst := by
  obtain ⟨hmerged, hperm⟩ := @mergedSegments_spec _ range excludeCurrentTime ts _ hsorted
  constructor
  · rw [requestUnionWindow_eq_select hr hts hsorted]
    rcases lt_or_ge (windowEnd range excludeCurrentTime ts) 0 with hend | hend
    · exact exactWindow_iff_of_neg hr hend hmerged hperm
    · rw [filter_windowEnd_eq_candidates hend] at hperm
      exact exactWindow_iff_of_nonneg hend hmerged hperm
  · intro segments' hsorted' hspread
    obtain ⟨hmerged', hperm'⟩ := @mergedSegments_spec _ range excludeCurrentTime ts _ hsorted'
    rw [requestUnionWindow_eq_cut hr hts hsorted', requestUnionWindow_eq_cut hr hts hsorted,
      map_cons, map_cons, frameCut_keys, frameCut_keys]
    refine congrArg _ (congrArg _ (keys_eq_of_perm hmerged' hmerged ?_))
    exact hperm'.trans ((hspread.filter _).trans hperm.symm)

/-- Two segments under `ROWS_RANGE BETWEEN 1s PRECEDING AND CURRENT ROW`. -/
theorem requestUnionWindow_exact_lastSecond :
    ExactWindow lastSecond false 1500 20
      (segmentRows [some [(1500, 10), (400, 11)], none, some [(900, 12)]])
      (requestUnionWindow 20 [some [(1500, 10), (400, 11)], none, some [(900, 12)]] 1500
        lastSecond true false) :=
  (requestUnionWindow_exact_iff ⟨by decide, by decide⟩ false (by decide) 20
    (by unfold KeyDesc; decide)).1.mpr (.inl rfl)

/-- The request row at time zero, without the current time: no row is before it, but the
code reads the rows of key zero. -/
theorem requestUnionWindow_reads_zero :
    ¬ ExactWindow lastSecond true 0 20 (segmentRows [some [(0, 10)]])
      (requestUnionWindow 20 [some [(0, 10)]] 0 lastSecond true true) := by
  rintro ⟨arranged, hperm, -, hwindow⟩
  rw [hperm.eq_nil] at hwindow
  revert hwindow
  decide

end HybridSE.Vm
