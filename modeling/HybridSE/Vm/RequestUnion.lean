import HybridSE.Vm.IteratorStatus

/-!
# HybridSE.Vm.RequestUnion

The window of request mode: `RequestUnionRunner::RequestUnionWindow` of
`src/vm/runner.cc`. It reads the union segments, newest row first, from the end
of the window back to its start and stops at the first row outside.

`requestUnionWindow_eq` says what it returns for a window that ends at the
request row: that row, and behind it the part of the merged segments that the
frame test of batch mode accepts.
-/

namespace HybridSE.Vm

open HybridSE.Lib List

variable {Row : Type*}

/-- `RowIterator::Seek` on a segment that is iterated newest first: the first
entry with a key of at most `ts`. -/
def seek (ts : Nat) (segment : List (Entry Row)) : List (Entry Row) :=
  segment.dropWhile fun e => decide (ts < e.1)

/-- The bounds that `RequestUnionWindow` computes first. -/
structure UnionBounds where
  start : Nat
  endTs : Nat
  rowsStartPreceding : Nat
  maxSize : Nat

/-- Without a timestamp (`ts_gen < 0`) the window is not bounded by keys. -/
def unionBounds (tsGen : Int) (range : WindowRange) (excludeCurrentTime : Bool) : UnionBounds :=
  if 0 ≤ tsGen then
    { start := clampTs tsGen range.startOffset
      endTs :=
        if excludeCurrentTime && decide (range.endOffset = 0) then clampTs tsGen (-1)
        else clampTs tsGen range.endOffset
      rowsStartPreceding := range.startRow
      maxSize := range.maxSize }
  else { start := 0, endTs := 2 ^ 64 - 1, rowsStartPreceding := 0, maxSize := 0 }

/-- The loop of `RequestUnionWindow`: the rows it adds, given the number `cnt`
of rows already in the window and the iterators. The first argument bounds the
number of rounds; each one moves an iterator. -/
def requestUnionLoop (range : WindowRange) (b : UnionBounds) :
    Nat → (cnt : Nat) → List (List (Entry Row)) → List (Entry Row)
  | 0, _, _ => []
  | n + 1, cnt, iters =>
    match IteratorStatus.pickIteratorWithMaximizeKey (iters.map IteratorStatus.ofIter) with
    | none => []
    | some maxUnionPos =>
      match iters[maxUnionPos]? with
      | some (e :: rest) =>
        if 0 < b.maxSize ∧ b.maxSize ≤ cnt then []
        else
          match range.getWindowPositionStatus (decide (b.rowsStartPreceding < cnt))
              (decide (b.endTs < e.1)) (decide (e.1 < b.start)) with
          | .kExceedWindow => []
          | .kInWindow => e :: requestUnionLoop range b n (cnt + 1) (iters.set maxUnionPos rest)
          | .kBeforeWindow => requestUnionLoop range b n cnt (iters.set maxUnionPos rest)
      -- a picked iterator is valid
      | _ => []

/-- `RequestUnionRunner::RequestUnionWindow`. A missing segment (null pointer, or
no iterator) is `none`. -/
def requestUnionWindow (request : Row) (unionSegments : List (Option (List (Entry Row))))
    (tsGen : Int) (range : WindowRange) (outputRequestRow excludeCurrentTime : Bool) :
    List (Entry Row) :=
  let b := unionBounds tsGen range excludeCurrentTime
  let requestKey := if 0 < tsGen then tsGen.toNat else 0
  let iters := unionSegments.map fun segment => seek b.endTs (segment.getD [])
  let rangeStatus := range.getWindowPositionStatus (decide (b.rowsStartPreceding < 0))
    (decide (range.endOffset < 0)) (decide (requestKey < b.start))
  let cnt := if rangeStatus = .kInWindow then 1 else 0
  let rows := requestUnionLoop range b iters.flatten.length cnt iters
  if outputRequestRow then (requestKey, request) :: rows else rows

/-! ### The loop is a cut of the merged segments -/

/-- The segments merged as the loop reads them. -/
def mergeUnionSegments (iters : List (List (Entry Row))) : List (Entry Row) :=
  kwayMerge (fun segs => IteratorStatus.pickIteratorWithMaximizeKey (segs.map IteratorStatus.ofIter))
    iters.flatten.length iters

/-- Newest first, and among equal keys the rows of the last segment first. -/
theorem isStableMerge_mergeUnionSegments {iters : List (List (Entry Row))}
    (hsorted : ∀ seg ∈ iters, seg.Pairwise KeyDesc) :
    IsStableMerge Prod.fst (fun a b => b ≤ a) iters.reverse (mergeUnionSegments iters) := by
  refine isStableMerge_kwayMerge IteratorStatus.picks_maximizeKey
    (fun a b c hab hbc => Nat.le_trans hbc hab) (fun a b hab hba => Nat.le_antisymm hba hab)
    ⟨fun _ _ => trivial, fun seg hseg => hsorted seg (mem_reverse.mp hseg), ?_⟩
  exact (reverse_perm iters).flatten.length_eq.le

/-- The loop's verdict on a row that is not after the window's end. -/
theorem getWindowPositionStatus_eq (range : WindowRange) {b : UnionBounds}
    (hmax : b.maxSize = range.maxSize) (cnt : Nat) (e : Entry Row) (he : e.1 ≤ b.endTs)
    (hfull : ¬ (0 < b.maxSize ∧ b.maxSize ≤ cnt)) :
    range.getWindowPositionStatus (decide (b.rowsStartPreceding < cnt))
        (decide (b.endTs < e.1)) (decide (e.1 < b.start)) =
      if frameKeep range (b.rowsStartPreceding + 1) b.start cnt e then .kInWindow
      else .kExceedWindow := by
  have hend : decide (b.endTs < e.1) = false := by simpa using he
  have hsize : (decide (range.maxSize = 0) || decide (cnt < range.maxSize)) = true := by
    rw [hmax] at hfull
    simp only [Bool.or_eq_true, decide_eq_true_eq]
    omega
  have hcnt : decide (cnt < b.rowsStartPreceding + 1) = !decide (b.rowsStartPreceding < cnt) := by
    rw [← decide_not, decide_eq_decide]
    omega
  unfold WindowRange.getWindowPositionStatus frameKeep
  rw [hend, hsize, Bool.true_and, hcnt]
  by_cases hrows : b.rowsStartPreceding < cnt <;> by_cases hstart : e.1 < b.start <;>
    cases range.frameType <;> simp [hrows, hstart]

/-- The loop cuts the merged segments by the frame test. -/
theorem requestUnionLoop_eq (range : WindowRange) {b : UnionBounds}
    (hmax : b.maxSize = range.maxSize) (n : Nat) :
    ∀ (cnt : Nat) (iters : List (List (Entry Row))), (∀ e ∈ iters.flatten, e.1 ≤ b.endTs) →
      requestUnionLoop range b n cnt iters =
        takeIdxWhile (frameKeep range (b.rowsStartPreceding + 1) b.start) cnt
          (kwayMerge
            (fun segs =>
              IteratorStatus.pickIteratorWithMaximizeKey (segs.map IteratorStatus.ofIter))
            n iters) := by
  induction n with
  | zero => exact fun _ _ _ => rfl
  | succ n ih =>
    intro cnt iters hend
    rw [requestUnionLoop, kwayMerge]
    cases IteratorStatus.pickIteratorWithMaximizeKey (iters.map IteratorStatus.ofIter) with
    | none => rfl
    | some pos =>
      dsimp only
      rcases hget : iters[pos]? with _ | _ | ⟨e, rest⟩
      · rfl
      · rfl
      · dsimp only
        have hmem : (e :: rest) ∈ iters := mem_of_getElem? hget
        have he : e.1 ≤ b.endTs :=
          hend e (mem_flatten.mpr ⟨_, hmem, mem_cons_self⟩)
        have hrest : ∀ x ∈ (iters.set pos rest).flatten, x.1 ≤ b.endTs := by
          intro x hx
          obtain ⟨seg, hseg, hxseg⟩ := mem_flatten.mp hx
          rcases mem_or_eq_of_mem_set hseg with hseg | rfl
          · exact hend x (mem_flatten.mpr ⟨seg, hseg, hxseg⟩)
          · exact hend x (mem_flatten.mpr ⟨_, hmem, mem_cons_of_mem _ hxseg⟩)
        by_cases hfull : 0 < b.maxSize ∧ b.maxSize ≤ cnt
        · rw [if_pos hfull, takeIdxWhile_cons_of_neg]
          have : (decide (range.maxSize = 0) || decide (cnt < range.maxSize)) = false := by
            simp only [Bool.or_eq_false_iff, decide_eq_false_iff_not]
            omega
          rw [frameKeep, this, Bool.false_and]
        · rw [if_neg hfull, getWindowPositionStatus_eq range hmax cnt e he hfull]
          by_cases hkeep : frameKeep range (b.rowsStartPreceding + 1) b.start cnt e = true
          · rw [if_pos hkeep, takeIdxWhile_cons_of_pos hkeep, ← ih (cnt + 1) _ hrest]
          · rw [if_neg hkeep, takeIdxWhile_cons_of_neg (by simpa using hkeep)]

/-! ### Windows that end at the request row -/

variable {ts : Nat} {range : WindowRange}

/-- On a newest-first segment `Seek` keeps the rows up to `ts`. -/
theorem seek_eq_filter {segment : List (Entry Row)} (h : segment.Pairwise KeyDesc) :
    seek ts segment = segment.filter fun e => decide (e.1 ≤ ts) := by
  unfold seek
  rw [dropWhile_eq_filter (h.imp fun {x y} hxy hy => ?_)]
  · exact filter_congr fun e _ => by rw [Bool.eq_iff_iff]; simp
  · have hle : y.1 ≤ x.1 := hxy
    simp only [decide_eq_true_eq] at hy ⊢
    omega

/-- The last key that request mode reads: the current one is left out with
`exclude_current_time`, as far as keys are not negative. -/
def unionEnd (excludeCurrentTime : Bool) (ts : Nat) : Nat :=
  if excludeCurrentTime then ts - 1 else ts

theorem unionBounds_eq (hr : range.EndsAtCurrent) (excludeCurrentTime : Bool) (hts : ts < 2 ^ 63) :
    unionBounds ts range excludeCurrentTime =
      { start := clampTs ts range.startOffset
        endTs := unionEnd excludeCurrentTime ts
        rowsStartPreceding := range.startRow
        maxSize := range.maxSize } := by
  have hpred : clampTs ts (-1) = ts - 1 := by
    rw [clampTs_eq hts (by decide) (by decide)]
    omega
  have hself : clampTs ts 0 = ts := by
    rw [clampTs_eq hts (by decide) (by decide)]
    omega
  unfold unionBounds unionEnd
  rw [hr.endOffset_eq, hpred, hself]
  simp

/-- The iterators of the union segments, at the end of the window. -/
def unionIters (excludeCurrentTime : Bool) (ts : Nat)
    (unionSegments : List (Option (List (Entry Row)))) : List (List (Entry Row)) :=
  unionSegments.map fun segment => seek (unionEnd excludeCurrentTime ts) (segment.getD [])

theorem unionIters_le {excludeCurrentTime : Bool} {unionSegments : List (Option (List (Entry Row)))}
    (hsorted : ∀ segment ∈ unionSegments, (segment.getD []).Pairwise KeyDesc) :
    ∀ e ∈ (unionIters excludeCurrentTime ts unionSegments).flatten,
      e.1 ≤ unionEnd excludeCurrentTime ts := by
  intro e he
  obtain ⟨seg, hseg, he⟩ := mem_flatten.mp he
  obtain ⟨segment, hmem, rfl⟩ := List.mem_map.mp hseg
  rw [seek_eq_filter (hsorted segment hmem)] at he
  simpa using (mem_filter.mp he).2

/-- The request row opens the window: the frame test accepts it. -/
theorem frameKeep_current (hr : range.EndsAtCurrent) (hts : ts < 2 ^ 63) (row : Row) :
    frameKeep range (range.startRow + 1) (clampTs ts range.startOffset) 0 (ts, row) = true := by
  have hstart := clampTs_le hts range.startOffset_int64 hr.startOffset_nonpos
  unfold frameKeep
  cases range.frameType <;> simp [hstart] <;> omega

/-- Request mode: the request row and, behind it, the merged segments, cut by
the frame test. -/
theorem requestUnionWindow_eq (hr : range.EndsAtCurrent) (excludeCurrentTime : Bool)
    (hts : ts < 2 ^ 63) (request : Row) {unionSegments}
    (hsorted : ∀ segment ∈ unionSegments, (segment.getD []).Pairwise KeyDesc) :
    requestUnionWindow request unionSegments ts range true excludeCurrentTime =
      takeIdxWhile (frameKeep range (range.startRow + 1) (clampTs ts range.startOffset)) 0
        ((ts, request) ::
          mergeUnionSegments (unionIters excludeCurrentTime ts unionSegments)) := by
  have hkey : (if (0 : Int) < ts then (ts : Int).toNat else 0) = ts := by
    split <;> omega
  have hstart := clampTs_le hts range.startOffset_int64 hr.startOffset_nonpos
  have hin : range.getWindowPositionStatus false false false = .kInWindow := by
    unfold WindowRange.getWindowPositionStatus
    cases range.frameType <;> rfl
  unfold requestUnionWindow
  rw [unionBounds_eq hr excludeCurrentTime hts]
  rw [hkey, hr.endOffset_eq, if_pos rfl,
    decide_eq_false (Nat.not_lt_zero _), decide_eq_false (Int.lt_irrefl 0),
    decide_eq_false (Nat.not_lt.mpr hstart), hin,
    takeIdxWhile_cons_of_pos (frameKeep_current hr hts request)]
  exact congrArg _ (requestUnionLoop_eq range rfl _ 1 _ (unionIters_le hsorted))

end HybridSE.Vm
