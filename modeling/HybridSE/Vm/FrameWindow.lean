import HybridSE.Lib.KWayMerge
import HybridSE.Node.Frame
import HybridSE.Vm.WindowSound

/-!
# HybridSE.Vm.FrameWindow

From a window frame to the rows that an aggregate sees: the runner materialises
one window for a *primary* frame (`RangeGenerator` of `src/vm/runner.h` and
`HistoryWindow`), and the generated code of an aggregate with its own frame reads
either that window or an inner list cut from it (`ExprIRBuilder::BuildWindow`,
`InnerRangeList` and `InnerRowsList`).

The module then describes the materialised window of a rows-range frame that
ends before the current row. Such a window drains its buffer late and trims its
table only when it drains, so the table may hold rows that are too old
(`DelayedInv`); the inner list cuts them off.
-/

namespace HybridSE.Vm

open HybridSE.Lib HybridSE.Node List

variable {Row : Type*}

/-! ### The window range of a frame -/

theorem isInt64_historyBound {missing} (h : IsInt64 missing) (b : Option FrameBound) :
    IsInt64 (FrameNode.historyBound missing b) := by
  cases b with
  | none => exact h
  | some b => exact isInt64_historyOffset (isInt64_getSignedOffset b)

theorem isInt64_getHistoryRangeStart (f : FrameNode) : IsInt64 f.getHistoryRangeStart := by
  unfold FrameNode.getHistoryRangeStart
  split
  · decide
  · exact isInt64_historyBound (by decide) _
  · decide
  · exact isInt64_historyBound (by decide) _

theorem isInt64_getHistoryRangeEnd (f : FrameNode) : IsInt64 f.getHistoryRangeEnd := by
  unfold FrameNode.getHistoryRangeEnd
  split
  · decide
  · exact isInt64_historyBound (by decide) _

/-- The frame type part of `RangeGenerator`. -/
def windowFrameType : FrameType → WindowFrameType
  | .kFrameRows => .kFrameRows
  | .kFrameRowsRange => .kFrameRowsRange
  | .kFrameRowsMergeRowsRange => .kFrameRowsMergeRowsRange
  | .kFrameRange => .kFrameRowsMergeRowsRange

/-- `RangeGenerator::window_range_` of a frame. -/
def rangeGenerator (frame : FrameNode) : WindowRange where
  frameType := windowFrameType frame.frameType
  startOffset := frame.getHistoryRangeStart
  endOffset := frame.getHistoryRangeEnd
  startRow := toUInt64 (toInt64 (-1 * frame.getHistoryRowsStart))
  maxSize := toUInt64 frame.frameMaxsize
  startOffset_int64 := isInt64_getHistoryRangeStart frame
  endOffset_int64 := isInt64_getHistoryRangeEnd frame
  startRow_uint64 := toUInt64_lt _

theorem rangeGenerator_startOffset_nonpos (frame : FrameNode) :
    (rangeGenerator frame).startOffset ≤ 0 := by
  change frame.getHistoryRangeStart ≤ 0
  unfold FrameNode.getHistoryRangeStart
  split
  · decide
  · exact historyBound_nonpos (by decide) _
  · exact Int.le_refl 0
  · exact historyBound_nonpos (Int.le_refl 0) _

/-- No window starts after the current row, so that its end decides. -/
theorem rangeGenerator_endsAtCurrent {frame : FrameNode}
    (h : (rangeGenerator frame).endOffset = 0) : (rangeGenerator frame).EndsAtCurrent :=
  ⟨h, rangeGenerator_startOffset_nonpos frame⟩

/-! ### Inner windows -/

/-- `GetInnerRangeList` and the rows that an `InnerRangeIterator` delivers after
`SeekToFirst`: from the first key of at most `start` down to `end`. -/
def innerRangeList (window : List (Entry Row)) (startKey startOffset endOffset : Int) :
    List (Entry Row) :=
  let start := clampTs startKey startOffset
  let stop := clampTs startKey endOffset
  (window.dropWhile fun e => decide (start < e.1)).takeWhile
    fun e => decide (e.1 ≤ start) && decide (stop ≤ e.1)

/-- `GetInnerRowsList` and the rows that an `InnerRowsIterator` delivers after
`SeekToFirst`: the positions from `start` to `end`. -/
def innerRowsList (window : List (Entry Row)) (startRows endRows : Int) : List (Entry Row) :=
  let start := if startRows < 0 then 0 else startRows.toNat
  let stop := if endRows < 0 then 0 else endRows.toNat
  (window.take (stop + 1)).drop start

/-- `ExprIRBuilder::BuildWindow`: the rows that an aggregate with frame `frame`
sees, where `window` is the window of the primary frame `primary`. The primary
frame's own window is stored under its text unless it is a pure history frame. -/
def buildWindow (frame primary : FrameNode) (rowKey : Nat) (window : List (Entry Row)) :
    Option (List (Entry Row)) :=
  primary.isPureHistoryFrame.bind fun pureHistory =>
    if frame.getExprString = primary.getExprString ∧ pureHistory = false then some window
    else if frame.frameRange.isSome then
      some (innerRangeList window rowKey frame.getHistoryRangeEnd frame.getHistoryRangeStart)
    else
      frame.getHistoryRowsEnd.map fun stop =>
        innerRowsList window (toInt64 (-1 * stop)) (toInt64 (-1 * frame.getHistoryRowsStart))

/-- The window of batch mode for a frame, when `(key, row)` comes after
`history`. -/
def materialize (frame : FrameNode) (history : List (Entry Row)) (key : Nat) (row : Row) :
    List (Entry Row) :=
  ((HistoryWindow.new (rangeGenerator frame) false false).bufferAll
    (history ++ [(key, row)])).table

/-- The rows that an aggregate with frame `frame` sees under a primary frame. -/
def seenWindow (frame primary : FrameNode) (history : List (Entry Row)) (key : Nat) (row : Row) :
    Option (List (Entry Row)) :=
  buildWindow frame primary key (materialize primary history key row)

/-! ### Windows that end before the current row -/

/-- The window ranges of rows-range frames that end before the current row. -/
structure WindowRange.EndsBeforeCurrent (range : WindowRange) : Prop where
  frameType_eq : range.frameType = .kFrameRowsRange
  startOffset_nonpos : range.startOffset ≤ 0
  endOffset_neg : range.endOffset < 0
  startRow_eq : range.startRow = 0

namespace HistoryWindow

/-- Invariant of such a window: the rows up to the end of the window are in the
table, cut at some earlier window start; the others wait in the buffer. -/
structure DelayedInv (w : HistoryWindow Row) (range : WindowRange) (hist : List (Entry Row))
    (key : Nat) : Prop where
  windowRange_eq : w.windowRange = range
  buffer_eq : w.currentHistoryBuffer =
    hist.filter fun e => decide (clampTs key range.endOffset < e.1)
  table_eq : ∃ startTs ≤ clampTs key range.startOffset,
    w.table = takeIdxWhile (frameKeep range range.rowsLimit startTs) 0
      (hist.filter fun e => decide (e.1 ≤ clampTs key range.endOffset))
  sorted : hist.Pairwise KeyDesc
  le_key : ∀ e ∈ hist, e.1 ≤ key

theorem DelayedInv.new (range : WindowRange) (excludeCurrentTime inw : Bool) :
    DelayedInv (HistoryWindow.new range excludeCurrentTime inw : HistoryWindow Row) range [] 0 where
  windowRange_eq := rfl
  buffer_eq := rfl
  table_eq := ⟨_, Nat.le_refl _, rfl⟩
  sorted := List.Pairwise.nil
  le_key := by simp

/-- A newest-first list is cut at a key. -/
theorem filter_lt_append_filter_le {xs : List (Entry Row)} (h : xs.Pairwise KeyDesc) (c : Nat) :
    xs.filter (fun e => decide (c < e.1)) ++ xs.filter (fun e => decide (e.1 ≤ c)) = xs := by
  have hcut := @KeySorted.filter_append_filter _ _ Prod.fst (fun a b => b ≤ a) xs h
    (fun a => decide (c < a)) fun a b hab hb => by
      simp only [decide_eq_true_eq] at hb ⊢
      exact Nat.lt_of_lt_of_le hb hab
  have hnot : ∀ e : Entry Row, (!decide (c < e.1)) = decide (e.1 ≤ c) := fun e => by
    rw [Bool.eq_iff_iff]
    simp
  simpa only [hnot] using hcut

/-- A new row in front, and the cut moves from `c` up to `c'`: some rows are
drained from the waiting ones to the past ones. -/
theorem exists_drained {hist : List (Entry Row)} {e} (h : (e :: hist).Pairwise KeyDesc) {c c'}
    (hc : c ≤ c') :
    ∃ drained,
      e :: hist.filter (fun x => decide (c < x.1)) =
        (e :: hist).filter (fun x => decide (c' < x.1)) ++ drained ∧
      (e :: hist).filter (fun x => decide (x.1 ≤ c')) =
        drained ++ hist.filter (fun x => decide (x.1 ≤ c)) := by
  have hhist := (pairwise_cons.mp h).2
  have hall : e :: hist = (e :: hist.filter fun x => decide (c < x.1)) ++
      hist.filter fun x => decide (x.1 ≤ c) := by
    rw [cons_append, filter_lt_append_filter_le hhist]
  have hwaiting : (e :: hist.filter fun x => decide (c < x.1)).Pairwise KeyDesc :=
    pairwise_cons.mpr ⟨fun x hx => (pairwise_cons.mp h).1 x (mem_filter.mp hx).1,
      hhist.sublist filter_sublist⟩
  have hpast : ∀ x ∈ hist.filter (fun x => decide (x.1 ≤ c)), x.1 ≤ c' := fun x hx =>
    (by simpa using (mem_filter.mp hx).2 : x.1 ≤ c).trans hc
  refine ⟨(e :: hist.filter fun x => decide (c < x.1)).filter fun x => decide (x.1 ≤ c'), ?_, ?_⟩
  · have hnone : (hist.filter fun x => decide (x.1 ≤ c)).filter
        (fun x => decide (c' < x.1)) = [] :=
      filter_eq_nil_iff.mpr fun x hx => by simpa using hpast x hx
    rw [hall, filter_append, hnone, append_nil, filter_lt_append_filter_le hwaiting]
  · have hkeep : (hist.filter fun x => decide (x.1 ≤ c)).filter
        (fun x => decide (x.1 ≤ c')) = hist.filter fun x => decide (x.1 ≤ c) :=
      filter_eq_self.mpr fun x hx => by simpa using hpast x hx
    rw [hall, filter_append, hkeep]

section Delayed

variable {w : HistoryWindow Row} {range : WindowRange} {hist : List (Entry Row)}
  {key key' : Nat} {row : Row}

/-- With `end_offset_ < 0` and no rows to keep, every accepted row goes to
`BufferCurrentHistoryBuffer`. -/
theorem bufferData_eq_of_neg (hr : w.windowRange.EndsBeforeCurrent)
    (hfront : ∀ e ∈ w.table, e.1 ≤ key) :
    w.bufferData key row =
      (true, w.bufferCurrentHistoryBuffer key row (clampTs key w.windowRange.endOffset)) := by
  have hguard : w.table.head?.any (fun front => decide (key < front.1)) = false := by
    cases ht : w.table with
    | nil => rfl
    | cons e t =>
      have := hfront e (by rw [ht]; exact mem_cons_self)
      simpa using this
  unfold bufferData
  rw [if_neg (by simp [hguard]), if_neg (by rw [hr.startRow_eq]; exact Nat.not_lt_zero _),
    if_neg hr.endOffset_neg.ne']

/-- Pushing a row. -/
theorem DelayedInv.bufferData (h : DelayedInv w range hist key) (hr : range.EndsBeforeCurrent)
    (hk : key ≤ key') (hk' : key' < 2 ^ 63) :
    DelayedInv (w.bufferData key' row).2 range ((key', row) :: hist) key' := by
  obtain ⟨rfl, hbuf, ⟨startTs, hstart, htable⟩, hsorted, hle⟩ := h
  have hend : clampTs key w.windowRange.endOffset ≤ clampTs key' w.windowRange.endOffset :=
    clampTs_mono hk hk' w.windowRange.endOffset_int64 hr.endOffset_neg.le
  have hstart' : startTs ≤ clampTs key' w.windowRange.startOffset :=
    hstart.trans (clampTs_mono hk hk' w.windowRange.startOffset_int64 hr.startOffset_nonpos)
  have hnew : ((key', row) :: hist).Pairwise KeyDesc :=
    pairwise_cons.mpr ⟨fun e he => (hle e he).trans hk, hsorted⟩
  have hfront : ∀ e ∈ w.table, e.1 ≤ key' := by
    intro e he
    rw [htable] at he
    exact (hle e (mem_filter.mp ((takeIdxWhile_isPrefix _ _ _).subset he)).1).trans hk
  obtain ⟨drained, hsplit, hpast⟩ := exists_drained hnew hend
  have hdrained : ∀ e ∈ drained, e.1 ≤ clampTs key' w.windowRange.endOffset := fun e he => by
    have : e ∈ ((key', row) :: hist).filter
        fun x => decide (x.1 ≤ clampTs key' w.windowRange.endOffset) := by
      rw [hpast]
      exact mem_append_left _ he
    simpa using (mem_filter.mp this).2
  obtain ⟨table, hrun, -, hcut⟩ := drainHistoryBuffer_spec
    (clampTs key' w.windowRange.endOffset) (clampTs key' w.windowRange.startOffset) _ drained
    { w with currentHistoryBuffer := (key', row) :: w.currentHistoryBuffer }
    (hist.filter fun e => decide (e.1 ≤ clampTs key w.windowRange.endOffset))
    (by rw [← hsplit, hbuf]) (fun e he => by simpa using (mem_filter.mp he).2) hdrained
    (by rw [← hpast]; exact hnew.sublist filter_sublist)
    ⟨_, htable, fun d x hx => frameKeep_mono (Nat.le_succ d) (keyDesc_refl x) hstart' hx⟩
  have hdata : (w.bufferData key' row).2 =
      { w with
        table := table
        currentHistoryBuffer := ((key', row) :: hist).filter
          fun e => decide (clampTs key' w.windowRange.endOffset < e.1) } := by
    rw [bufferData_eq_of_neg hr hfront]
    rw [← hsplit, ← hbuf] at hrun
    exact hrun
  rw [hdata]
  refine ⟨rfl, rfl, ?_, hnew, fun e he => ?_⟩
  · rw [hpast]
    rcases hcut with ⟨rfl, rfl⟩ | hcut
    · exact ⟨startTs, hstart', htable⟩
    · exact ⟨_, Nat.le_refl _, hcut⟩
  · rcases mem_cons.mp he with rfl | he
    · exact Nat.le_refl _
    · exact (hle e he).trans hk

/-- Every run. -/
theorem DelayedInv.bufferAll (h : DelayedInv w range hist key) (hr : range.EndsBeforeCurrent) {rows}
    (hasc : rows.Pairwise fun x y => x.1 ≤ y.1) (hge : ∀ e ∈ rows, key ≤ e.1)
    (hbound : ∀ e ∈ rows, e.1 < 2 ^ 63) :
    DelayedInv (w.bufferAll rows) range (rows.reverse ++ hist)
      ((rows.getLast?.map Prod.fst).getD key) := by
  induction rows generalizing w hist key with
  | nil => exact h
  | cons e rows ih =>
    obtain ⟨he, hrows⟩ := pairwise_cons.mp hasc
    have hpush := @DelayedInv.bufferData _ _ _ _ _ e.1 e.2 h hr (hge e mem_cons_self)
      (hbound e mem_cons_self)
    have hrun := ih hpush hrows he fun x hx => hbound x (mem_cons_of_mem _ hx)
    rw [reverse_cons, append_assoc, getLast?_cons]
    cases hl : rows.getLast? <;> rw [hl] at hrun <;> exact hrun

end Delayed

end HistoryWindow

end HybridSE.Vm
