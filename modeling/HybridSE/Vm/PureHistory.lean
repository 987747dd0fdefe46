import HybridSE.Vm.FrameSeen
import HybridSE.Vm.UnionExact

/-!
# HybridSE.Vm.PureHistory

Time ranges that end before the current row, in both modes.

The raw window of such a range is not the frame: batch mode keeps rows that are too old
until another row moves, and request mode puts the request row in front. The generated
code reads the frame through an inner range list, and that list is exact in both modes
as long as the range ends at or after key zero. Before key zero all bounds are clamped to
zero, and rows of key zero, which are not in the range, are read.
-/

namespace HybridSE.Vm

open HybridSE.Lib List Option

variable {Row : Type*}

/-- The rows of the time range, newest first, at most `max_size` of them. -/
def pureHistoryRows (range : WindowRange) (history : List (Entry Row)) (key : Nat) :
    List (Entry Row) :=
  sizeTake range.maxSize (history.reverse.filter fun e =>
    decide ((key : Int) + range.startOffset ≤ e.1) &&
      decide ((e.1 : Int) ≤ key + range.endOffset))

/-- What the generated code reads in batch mode. -/
def batchInnerRange (range : WindowRange) (excludeCurrentTime instanceNotInWindow : Bool)
    (history : List (Entry Row)) (key : Nat) (row : Row) : List (Entry Row) :=
  innerRangeList
    ((HistoryWindow.new range excludeCurrentTime instanceNotInWindow).bufferAll
      (history ++ [(key, row)])).table
    key range.endOffset range.startOffset

/-- What the generated code reads in request mode, with the history as one segment. -/
def requestInnerRange (range : WindowRange) (excludeCurrentTime : Bool)
    (history : List (Entry Row)) (key : Nat) (row : Row) : List (Entry Row) :=
  innerRangeList
    (requestUnionWindow row [some history.reverse] key range true excludeCurrentTime)
    key range.endOffset range.startOffset

section

variable {range : WindowRange} {history : List (Entry Row)} {key : Nat} {row : Row}

/-- Of a newest-first list, the size limit and the start of the range may be applied in
either order. -/
theorem sizeTake_filter_start {rows : List (Entry Row)} (h : rows.Pairwise KeyDesc)
    (maxsize startTs : Nat) :
    (sizeTake maxsize rows).filter (fun e => decide (startTs ≤ e.1)) =
      sizeTake maxsize (rows.filter fun e => decide (startTs ≤ e.1)) := by
  have hp : ∀ {xs : List (Entry Row)}, xs.Pairwise KeyDesc → xs.Pairwise fun x y =>
      decide (startTs ≤ y.1) = true → decide (startTs ≤ x.1) = true := fun hxs =>
    hxs.imp fun {x y} hxy hy => by
      have hle : y.1 ≤ x.1 := hxy
      simp only [decide_eq_true_eq] at hy ⊢
      omega
  rw [← takeWhile_eq_filter (hp h), ← takeWhile_eq_filter
    (hp (h.sublist (sizeTake_sublist maxsize rows))), ← takeIdxWhile_const _ 0,
    ← takeIdxWhile_const _ 0, ← takeIdxWhile_maxSize, ← takeIdxWhile_maxSize, takeIdxWhile_and,
    takeIdxWhile_and]
  exact takeIdxWhile_congr fun j x _ => Bool.and_comm _ _

/-- Batch mode: the rows up to the clamped end, cut by size and by the clamped start. -/
theorem batchInnerRange_eq (hr : range.EndsBeforeCurrent)
    (hasc : (history ++ [(key, row)]).Pairwise fun x y => x.1 ≤ y.1) (hk : key < 2 ^ 63)
    (excludeCurrentTime instanceNotInWindow : Bool) :
    batchInnerRange range excludeCurrentTime instanceNotInWindow history key row =
      (sizeTake range.maxSize (((key, row) :: history.reverse).filter fun e =>
        decide (e.1 ≤ clampTs key range.endOffset))).filter fun e =>
          decide (clampTs key range.startOffset ≤ e.1) := by
  have hbound : ∀ e ∈ history ++ [(key, row)], e.1 < 2 ^ 63 := by
    intro e he
    rcases mem_append.mp he with he | he
    · exact Nat.lt_of_le_of_lt ((pairwise_append.mp hasc).2.2 e he (key, row)
        mem_cons_self) hk
    · rw [mem_singleton.mp he]
      exact hk
  have hfresh := @HistoryWindow.DelayedInv.new Row range excludeCurrentTime instanceNotInWindow
  obtain ⟨-, -, ⟨startTs, hstart, htable⟩, hsorted, -⟩ :=
    hfresh.bufferAll hr hasc (fun e _ => Nat.zero_le _) hbound
  rw [append_nil, reverse_append]
    at htable hsorted
  rw [getLast?_append, getLast?_singleton, some_or, map_some,
    getD_some] at hstart htable
  dsimp only at hstart
  have hpast := hsorted.sublist
    (@filter_sublist _ (fun e => decide (e.1 ≤ clampTs key range.endOffset)) _)
  rw [takeIdxWhile_frameKeep_rowsRange hr.frameType_eq _ _ hpast] at htable
  have hcut := hpast.sublist (sizeTake_sublist range.maxSize _)
  unfold batchInnerRange
  rw [htable, innerRangeList_eq_filter (hcut.sublist filter_sublist), List.filter_filter]
  refine filter_congr fun e he => ?_
  have hend := (mem_filter.mp ((sizeTake_sublist _ _).subset he)).2
  rw [Bool.eq_iff_iff]
  simp only [Bool.and_eq_true, decide_eq_true_eq] at hend ⊢
  omega

/-- Request mode: the request row, and the same rows of the history. -/
theorem requestInnerRange_eq (hr : range.EndsBeforeCurrent)
    (hle : range.startOffset ≤ range.endOffset)
    (hasc : (history ++ [(key, row)]).Pairwise fun x y => x.1 ≤ y.1) (hk : key < 2 ^ 63)
    (excludeCurrentTime : Bool) :
    requestInnerRange range excludeCurrentTime history key row =
      ((key, row) :: sizeTake range.maxSize (history.reverse.filter fun e =>
        decide (clampTs key range.startOffset ≤ e.1) &&
          decide (e.1 ≤ clampTs key range.endOffset))).filter fun e =>
          decide (clampTs key range.startOffset ≤ e.1) &&
            decide (e.1 ≤ clampTs key range.endOffset) := by
  have hdesc : ((key, row) :: history.reverse).Pairwise KeyDesc := by
    have := pairwise_reverse.mpr hasc
    rwa [reverse_append] at this
  have hhist := (pairwise_cons.mp hdesc).2
  have hback : range.LooksBack := ⟨hle, hr.endOffset_neg.le⟩
  have hsorted : ∀ segment ∈ [some history.reverse], (segment.getD []).Pairwise KeyDesc :=
    forall_mem_singleton.mpr hhist
  have hcounted : requestCounted range = 0 :=
    if_pos ⟨hr.frameType_eq, hr.endOffset_neg.ne⟩
  have hend : (windowEnd range excludeCurrentTime key).toNat = clampTs key range.endOffset := by
    rw [clampTs_eq hk range.endOffset_int64 hr.endOffset_neg.le, windowEnd]
    simp [hr.endOffset_neg.ne]
  have hstart : ∀ e : Entry Row,
      inTimeRange range key e = decide (clampTs key range.startOffset ≤ e.1) := fun e => by
    rw [clampTs_eq hk range.startOffset_int64 hr.startOffset_nonpos, inTimeRange,
      Bool.eq_iff_iff, decide_eq_true_eq, decide_eq_true_eq]
    omega
  have hmerged : mergeUnionSegments
      (segmentIters range excludeCurrentTime key [some history.reverse]) =
      history.reverse.filter fun e => decide (e.1 ≤ clampTs key range.endOffset) := by
    rw [segmentIters, map_singleton, getD_some, seek_eq_filter hhist, hend,
      mergeUnionSegments_singleton (hhist.sublist filter_sublist)]
  have hwindow : requestUnionWindow row [some history.reverse] key range true excludeCurrentTime =
      (key, row) :: sizeTake range.maxSize (history.reverse.filter fun e =>
        decide (clampTs key range.startOffset ≤ e.1) &&
          decide (e.1 ≤ clampTs key range.endOffset)) := by
    rw [requestUnionWindow_eq_select hback hk hsorted, hmerged, hcounted, selectRows,
      hr.frameType_eq]
    simp only [hstart, List.filter_filter]
    rfl
  unfold requestInnerRange
  rw [hwindow, innerRangeList_eq_filter]
  refine pairwise_cons.mpr ⟨fun e he => ?_, ?_⟩
  · exact (pairwise_cons.mp hdesc).1 e
      (mem_filter.mp ((sizeTake_sublist _ _).subset he)).1
  · exact (hhist.sublist filter_sublist).sublist (sizeTake_sublist _ _)

/-- A range that ends at or after key zero: both modes read exactly its rows. -/
theorem innerRanges_eq_of_nonneg (hr : range.EndsBeforeCurrent)
    (hle : range.startOffset ≤ range.endOffset)
    (hasc : (history ++ [(key, row)]).Pairwise fun x y => x.1 ≤ y.1) (hk : key < 2 ^ 63)
    (excludeCurrentTime instanceNotInWindow : Bool) (hend : 0 ≤ (key : Int) + range.endOffset) :
    batchInnerRange range excludeCurrentTime instanceNotInWindow history key row =
        pureHistoryRows range history key ∧
      requestInnerRange range excludeCurrentTime history key row =
        pureHistoryRows range history key := by
  have hneg := hr.endOffset_neg
  have hstop := clampTs_eq hk range.endOffset_int64 hneg.le
  have hstart := clampTs_eq hk range.startOffset_int64 hr.startOffset_nonpos
  -- the current row is after the end of the range
  have hcurrent : decide (key ≤ clampTs key range.endOffset) = false := by
    rw [decide_eq_false_iff_not]
    omega
  have hdesc : history.reverse.Pairwise KeyDesc :=
    pairwise_reverse.mpr (pairwise_append.mp hasc).1
  have hrows : pureHistoryRows range history key = sizeTake range.maxSize
      (history.reverse.filter fun e => decide (clampTs key range.startOffset ≤ e.1) &&
        decide (e.1 ≤ clampTs key range.endOffset)) := by
    refine congrArg _ (filter_congr fun e _ => ?_)
    rw [Bool.eq_iff_iff]
    simp only [Bool.and_eq_true, decide_eq_true_eq]
    omega
  rw [hrows]
  constructor
  · rw [batchInnerRange_eq hr hasc hk, filter_cons_of_neg (by simp [hcurrent]),
      sizeTake_filter_start (hdesc.sublist filter_sublist), List.filter_filter]
  · rw [requestInnerRange_eq hr hle hasc hk, filter_cons_of_neg (by simp [hcurrent]),
      filter_eq_self]
    exact fun e he => (mem_filter.mp ((sizeTake_sublist _ _).subset he)).2

/-- A range that ends before key zero has no rows. -/
theorem pureHistoryRows_eq_nil (hend : (key : Int) + range.endOffset < 0) :
    pureHistoryRows range history key = [] := by
  have hnone : (history.reverse.filter fun e =>
      decide ((key : Int) + range.startOffset ≤ e.1) &&
        decide ((e.1 : Int) ≤ key + range.endOffset)) = [] := by
    refine filter_eq_nil_iff.mpr fun e _ he => ?_
    simp only [Bool.and_eq_true, decide_eq_true_eq] at he
    omega
  rw [pureHistoryRows, hnone, sizeTake]
  split <;> simp

/-- There, both modes read the rows of key zero, the current row included. -/
theorem innerRanges_eq_nil_iff_of_neg (hr : range.EndsBeforeCurrent)
    (hle : range.startOffset ≤ range.endOffset)
    (hasc : (history ++ [(key, row)]).Pairwise fun x y => x.1 ≤ y.1) (hk : key < 2 ^ 63)
    (excludeCurrentTime instanceNotInWindow : Bool) (hend : (key : Int) + range.endOffset < 0) :
    (batchInnerRange range excludeCurrentTime instanceNotInWindow history key row = [] ∧
      requestInnerRange range excludeCurrentTime history key row = []) ↔
      0 < key ∧ ∀ e ∈ history, e.1 ≠ 0 := by
  have hstop : clampTs key range.endOffset = 0 := by
    rw [clampTs_eq hk range.endOffset_int64 hr.endOffset_neg.le]
    omega
  have hstart : clampTs key range.startOffset = 0 := by
    rw [clampTs_eq hk range.startOffset_int64 hr.startOffset_nonpos]
    omega
  rw [batchInnerRange_eq hr hasc hk, requestInnerRange_eq hr hle hasc hk, hstop, hstart]
  simp only [Nat.zero_le, decide_true, Bool.true_and, Nat.le_zero]
  constructor
  · rintro ⟨hbatch, -⟩
    have hnone : ((key, row) :: history.reverse).filter (fun e => decide (e.1 = 0)) = [] := by
      rw [filter_eq_self.mpr fun _ _ => rfl, sizeTake] at hbatch
      split at hbatch
      · exact hbatch
      · next hmax => exact (take_eq_nil_iff.mp hbatch).resolve_left hmax
    rw [filter_eq_nil_iff] at hnone
    constructor
    · have := hnone _ mem_cons_self
      simp only [decide_eq_true_eq] at this
      omega
    · intro e he
      simpa using hnone e (mem_cons_of_mem _ (mem_reverse.mpr he))
  · rintro ⟨hkey, hnone⟩
    have hhist : history.reverse.filter (fun e => decide (e.1 = 0)) = [] :=
      filter_eq_nil_iff.mpr fun e he => by simpa using hnone e (mem_reverse.mp he)
    have hcurrent : ∀ rows : List (Entry Row), ((key, row) :: rows).filter
        (fun e => decide (e.1 = 0)) = rows.filter fun e => decide (e.1 = 0) := fun rows =>
      filter_cons_of_neg (by simpa using hkey.ne')
    have hnil : sizeTake range.maxSize ([] : List (Entry Row)) = [] := by
      unfold sizeTake
      split <;> simp
    simp [hcurrent, hhist, hnil]

end

/-- The inner range list over the window of either mode is the time range, exactly when
the range does not end before key zero or no row has key zero. -/
theorem innerRanges_exact_iff {range : WindowRange} (hr : range.EndsBeforeCurrent)
    (hle : range.startOffset ≤ range.endOffset) (excludeCurrentTime instanceNotInWindow : Bool)
    {history : List (Entry Row)} {key : Nat} {row : Row}
    (hasc : (history ++ [(key, row)]).Pairwise fun x y => x.1 ≤ y.1) (hk : key < 2 ^ 63) :
    (batchInnerRange range excludeCurrentTime instanceNotInWindow history key row =
        pureHistoryRows range history key ∧
      requestInnerRange range excludeCurrentTime history key row =
        pureHistoryRows range history key) ↔
      0 ≤ (key : Int) + range.endOffset ∨ (0 < key ∧ ∀ e ∈ history, e.1 ≠ 0) := by
  rcases lt_or_ge ((key : Int) + range.endOffset) 0 with hend | hend
  · rw [pureHistoryRows_eq_nil hend, innerRanges_eq_nil_iff_of_neg hr hle hasc hk _ _ hend]
    exact ⟨.inr, fun h => h.resolve_left (not_le.mpr hend)⟩
  · exact ⟨fun _ => .inl hend,
      fun _ => innerRanges_eq_of_nonneg hr hle hasc hk _ _ hend⟩

/-- From three seconds to one second before the current row, two rows at most. -/
def beforeLastSecond : WindowRange where
  frameType := .kFrameRowsRange
  startOffset := -3000
  endOffset := -1000
  startRow := 0
  maxSize := 2
  endOffset_int64 := isInt64_oneSecondBack
  startRow_uint64 := isUInt64_zero

theorem beforeLastSecond_endsBeforeCurrent : beforeLastSecond.EndsBeforeCurrent :=
  ⟨rfl, by decide, by decide, rfl⟩

theorem innerRanges_exact_beforeLastSecond :
    batchInnerRange beforeLastSecond false false
        [(100, 1), (2000, 2), (2100, 3), (2500, 4), (4000, 5)] 4200 6 = [(2500, 4), (2100, 3)] ∧
      requestInnerRange beforeLastSecond false
        [(100, 1), (2000, 2), (2100, 3), (2500, 4), (4000, 5)] 4200 6 = [(2500, 4), (2100, 3)] :=
  (innerRanges_exact_iff beforeLastSecond_endsBeforeCurrent (by decide) false false (by decide)
    (by decide)).mpr (.inl (by decide))

/-- A row of key zero and a current row half a second later: the range is before both, but
the code reads the row of key zero. -/
theorem innerRanges_read_zero :
    pureHistoryRows beforeLastSecond [(0, 1)] 500 = [] ∧
      batchInnerRange beforeLastSecond false false [(0, 1)] 500 2 = [(0, 1)] ∧
      requestInnerRange beforeLastSecond false [(0, 1)] 500 2 = [(0, 1)] := by
  decide

end HybridSE.Vm
