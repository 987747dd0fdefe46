import HybridSE.Vm.FrameWindow

/-!
# HybridSE.Vm.FrameSeen

The rows that an aggregate sees, in closed form.

The frames a user can write are `UserFrame`s. A primary frame is one of them or
the merged frame of a rows frame and a rows-range frame (`mergedNode`). For each
of the three this module says which rows the runner materialises
(`materialize_*`) and which of them an aggregate with its own frame reads
(`seenWindow_*`), as a cut of the history up to the current row.
-/

namespace HybridSE.Vm

open HybridSE.Lib HybridSE.Node List Option

variable {Row : Type*}

/-! ### Frames that a user can write -/

/-- An extent as SQL has it: literal offsets are not negative, no frame starts at
`UNBOUNDED FOLLOWING` and none ends at `UNBOUNDED PRECEDING`. A bound is missing if its offset
is neither an integer nor an interval. -/
structure SqlExtent extends FrameExtent where
  start_sql : ∀ b, start = some b → 0 ≤ b.offset ∧ b.boundType ≠ .kFollowingUnbound
  stop_sql : ∀ b, stop = some b → 0 ≤ b.offset ∧ b.boundType ≠ .kPrecedingUnbound

/-- The extent of a rows frame: `Planner::CheckWindowFrame` reads through both bounds, so only
extents that have both get past it. -/
structure RowsExtent extends SqlExtent where
  start_isSome : start.isSome
  stop_isSome : stop.isSome

/-- The frames that reach `MergeWindows`: a `ROWS` frame, which has no `MAXSIZE`
(`Planner::CheckWindowFrame`), or a `ROWS_RANGE` frame; zero is no `MAXSIZE`. -/
inductive UserFrame
  | rows (extent : RowsExtent)
  | rowsRange (extent : SqlExtent) (maxsize : Nat) (maxsize_lt : maxsize < 2 ^ 63)

/-- The frame node, as `NodeManager::MakeFrameNode` makes it. -/
def UserFrame.node : UserFrame → FrameNode
  | .rows extent =>
    { frameType := .kFrameRows
      frameRange := none
      frameRows := some extent.toFrameExtent
      frameMaxsize := 0
      frameMaxsize_int64 := isInt64_zero }
  | .rowsRange extent maxsize h =>
    { frameType := .kFrameRowsRange
      frameRange := some extent.toFrameExtent
      frameRows := none
      frameMaxsize := maxsize
      frameMaxsize_int64 := isInt64_natCast h }

/-- The merged frame of a rows frame and a rows-range frame. -/
def mergedNode (range : SqlExtent) (rows : RowsExtent) (maxsize : Nat) (hmax : maxsize < 2 ^ 63) :
    FrameNode where
  frameType := .kFrameRowsMergeRowsRange
  frameRange := some range.toFrameExtent
  frameRows := some rows.toFrameExtent
  frameMaxsize := maxsize
  frameMaxsize_int64 := isInt64_natCast hmax

namespace SqlExtent

/-- The start as an offset that is not after the current row. -/
def startOffset (e : SqlExtent) : Int := FrameNode.historyBound int64Min e.start

/-- The start of a range that is merged with rows: a missing one is the current row. -/
def mergedStart (e : SqlExtent) : Int := FrameNode.historyBound 0 e.start

/-- The end as an offset that is not after the current row. -/
def stopOffset (e : SqlExtent) : Int := FrameNode.historyBound 0 e.stop

end SqlExtent

namespace RowsExtent

/-- The signed offset of the end. -/
def signedStop (e : RowsExtent) : Int := (e.stop.get e.stop_isSome).getSignedOffset

/-- Does the extent end before the current row? -/
def endsBefore (e : RowsExtent) : Bool := decide (e.signedStop < 0)

/-- The number of rows before the current one that the extent reaches back. -/
def rowsBack (e : RowsExtent) : Nat := (-e.startOffset).toNat

/-- First and last position of the inner rows list. `-1 * INT64_MIN` is
`INT64_MIN` again, which the list takes for zero. -/
def innerStart (e : RowsExtent) : Nat := (-e.signedStop).toNat
def innerStop (e : RowsExtent) : Nat := if e.startOffset = int64Min then 0 else e.rowsBack

end RowsExtent

/-- Signed offsets of SQL bounds: only the unbounded ones reach the ends of the
type. -/
theorem getSignedOffset_of_nonneg {b : FrameBound} (h : 0 ≤ b.offset) :
    b.getSignedOffset =
      match b.boundType with
      | .kCurrent => 0
      | .kFollowing => b.offset
      | .kOpenFollowing => b.offset - 1
      | .kPreceding => -b.offset
      | .kOpenPreceding => 1 - b.offset
      | .kPrecedingUnbound => int64Min
      | .kFollowingUnbound => int64Max := by
  have hmax := b.offset_int64
  unfold IsInt64 at hmax
  unfold FrameBound.getSignedOffset
  cases b.boundType
  · rfl
  · exact (toInt64_of_isInt64 (by unfold IsInt64; omega)).trans (by ring)
  · dsimp only
    rw [toInt64_of_isInt64 (x := b.offset - 1) (by unfold IsInt64; omega),
      toInt64_of_isInt64 (by unfold IsInt64; omega)]
    ring
  · rfl
  · exact toInt64_of_isInt64 (by unfold IsInt64; omega)
  · rfl
  · rfl

namespace SqlExtent

theorem startOffset_nonpos (e : SqlExtent) : e.startOffset ≤ 0 :=
  historyBound_nonpos (by decide) e.start

theorem stopOffset_nonpos (e : SqlExtent) : e.stopOffset ≤ 0 :=
  historyBound_nonpos (Int.le_refl 0) e.stop

theorem int64_startOffset (e : SqlExtent) : IsInt64 e.startOffset :=
  isInt64_historyBound (by decide) e.start

theorem int64_stopOffset (e : SqlExtent) : IsInt64 e.stopOffset :=
  isInt64_historyBound (by decide) e.stop

theorem int64Min_le_startOffset (e : SqlExtent) : int64Min ≤ e.startOffset :=
  e.int64_startOffset.1

theorem stop_gt (e : SqlExtent) {b} (hb : e.stop = some b) : int64Min < b.getSignedOffset := by
  have hmax := b.offset_int64
  obtain ⟨h0, hne⟩ := e.stop_sql b hb
  unfold IsInt64 at hmax
  rw [getSignedOffset_of_nonneg h0]
  cases htype : b.boundType
  · exact absurd htype hne
  all_goals simp only [int64Min, int64Max]; omega

theorem int64Min_lt_stopOffset (e : SqlExtent) : int64Min < e.stopOffset := by
  unfold stopOffset FrameNode.historyBound
  split
  · decide
  · rename_i b hb
    have := e.stop_gt hb
    unfold FrameNode.historyOffset
    split
    · decide
    · exact this

theorem mergedStart_eq {e : SqlExtent} (h : e.start ≠ none) : e.mergedStart = e.startOffset := by
  obtain ⟨b, hb⟩ := Option.ne_none_iff_exists'.mp h
  unfold mergedStart startOffset
  rw [hb]
  rfl

/-- The offsets can be read off the text. -/
theorem startOffset_eq_elim (e : SqlExtent) :
    e.startOffset = e.getExprString.1.elim int64Min FrameNode.historyOffset := by
  unfold startOffset FrameExtent.getExprString
  cases hb : e.start with
  | none => rfl
  | some b =>
    have hne := (e.start_sql b hb).2
    have hmin : FrameNode.historyOffset int64Min = int64Min := by decide
    rw [Option.bind_some]
    unfold FrameNode.historyBound FrameBound.getExprString FrameBound.getSignedOffset
    cases htype : b.boundType <;> simp_all

theorem stopOffset_eq_elim (e : SqlExtent) :
    e.stopOffset = e.getExprString.2.elim 0 FrameNode.historyOffset := by
  unfold stopOffset FrameExtent.getExprString
  cases hb : e.stop with
  | none => rfl
  | some b =>
    have hne := (e.stop_sql b hb).2
    have hmax : FrameNode.historyOffset int64Max = 0 := by decide
    rw [Option.bind_some]
    unfold FrameNode.historyBound FrameBound.getExprString FrameBound.getSignedOffset
    cases htype : b.boundType <;> simp_all

/-- Extents that print the same text have the same offsets. -/
theorem offsets_eq_of_getExprString {e1 e2 : SqlExtent} (h : e1.getExprString = e2.getExprString) :
    e1.startOffset = e2.startOffset ∧ e1.stopOffset = e2.stopOffset := by
  rw [startOffset_eq_elim, stopOffset_eq_elim, h, ← startOffset_eq_elim, ← stopOffset_eq_elim]
  exact ⟨rfl, rfl⟩

end SqlExtent

namespace RowsExtent

theorem stop_eq (e : RowsExtent) : e.stop = some (e.stop.get e.stop_isSome) :=
  (Option.some_get e.stop_isSome).symm

theorem start_ne_none (e : RowsExtent) : e.start ≠ none :=
  Option.isSome_iff_ne_none.mp e.start_isSome

theorem stopOffset_eq (e : RowsExtent) : e.stopOffset = FrameNode.historyOffset e.signedStop := by
  unfold SqlExtent.stopOffset
  rw [e.stop_eq]
  rfl

theorem endsBefore_iff (e : RowsExtent) : e.endsBefore = true ↔ e.stopOffset < 0 := by
  rw [e.stopOffset_eq]
  unfold endsBefore FrameNode.historyOffset
  rw [decide_eq_true_eq]
  split <;> omega

/-- `GetHistoryRowsEnd` of a rows frame. -/
theorem getHistoryRowsEnd_node (e : RowsExtent) :
    (UserFrame.rows e).node.getHistoryRowsEnd = some e.signedStop := by
  have hstart : e.toSqlExtent.toFrameExtent.start ≠ none := e.start_ne_none
  have hstop := e.stop_eq
  unfold FrameNode.getHistoryRowsEnd UserFrame.node
  simp only [if_neg hstart]
  rw [hstop]
  rfl

theorem isPureHistoryFrame_node (e : RowsExtent) :
    (UserFrame.rows e).node.isPureHistoryFrame = some e.endsBefore := by
  have := e.getHistoryRowsEnd_node
  unfold FrameNode.isPureHistoryFrame
  rw [this]
  rfl

theorem rowsBack_le (e : RowsExtent) : e.rowsBack ≤ 2 ^ 63 := by
  have := e.int64Min_le_startOffset
  unfold int64Min at this
  unfold rowsBack
  omega

theorem innerStop_le (e : RowsExtent) : e.innerStop ≤ e.rowsBack := by
  unfold innerStop
  split
  · exact Nat.zero_le _
  · exact Nat.le_refl _

theorem innerStop_eq {e : RowsExtent} (h : e.startOffset ≠ int64Min) : e.innerStop = e.rowsBack :=
  if_neg h

/-- `start_row_` of the window range. -/
theorem toUInt64_startOffset (e : RowsExtent) :
    toUInt64 (toInt64 (-1 * e.startOffset)) = e.rowsBack := by
  have hlo := e.int64Min_le_startOffset
  have h0 := e.startOffset_nonpos
  unfold int64Min at hlo
  unfold toUInt64 toInt64 rowsBack
  rw [Int.bmod_def]
  split <;> omega

/-- The bounds of the inner rows list, as `GetInnerRowsList` clamps them. -/
theorem clamp_innerStop (e : RowsExtent) :
    (if toInt64 (-1 * e.startOffset) < 0 then 0 else (toInt64 (-1 * e.startOffset)).toNat) =
      e.innerStop := by
  have hlo := e.int64Min_le_startOffset
  have h0 := e.startOffset_nonpos
  unfold innerStop rowsBack
  by_cases hmin : e.startOffset = int64Min
  · rw [hmin]
    rfl
  · unfold int64Min at hlo hmin ⊢
    rw [if_neg hmin, toInt64_of_isInt64 (by unfold IsInt64; omega), if_neg (by omega)]
    omega

theorem clamp_innerStart (e : RowsExtent) :
    (if toInt64 (-1 * e.signedStop) < 0 then 0 else (toInt64 (-1 * e.signedStop)).toNat) =
      e.innerStart := by
  have hlo : int64Min < e.signedStop := e.stop_gt e.stop_eq
  have hhi : e.signedStop < 2 ^ 63 := (isInt64_getSignedOffset _).2
  unfold int64Min at hlo
  unfold innerStart
  rw [toInt64_of_isInt64 (by unfold IsInt64; omega)]
  split <;> omega

end RowsExtent

/-! ### Materialised windows in closed form -/

/-- The newest `maxsize` rows; zero means all. -/
def sizeTake (maxsize : Nat) (rows : List (Entry Row)) : List (Entry Row) :=
  if maxsize = 0 then rows else rows.take maxsize

theorem sizeTake_sublist (maxsize : Nat) (rows : List (Entry Row)) :
    (sizeTake maxsize rows).Sublist rows := by
  unfold sizeTake
  split
  · exact List.Sublist.refl rows
  · exact take_sublist _ _

theorem takeIdxWhile_maxSize (maxsize : Nat) (rows : List (Entry Row)) :
    takeIdxWhile (fun i _ => decide (maxsize = 0) || decide (i < maxsize)) 0 rows =
      sizeTake maxsize rows := by
  unfold sizeTake
  split
  · rename_i h
    exact takeIdxWhile_eq_self fun j x _ _ => by simp [h]
  · rename_i h
    have := takeIdxWhile_lt maxsize 0 rows
    simpa [h] using this

/-- The rows kept by a rows-range frame, for any window start. -/
theorem takeIdxWhile_frameKeep_rowsRange {range} (hf : range.frameType = .kFrameRowsRange)
    (rowsLimit startTs : Nat) {rows : List (Entry Row)} (h : rows.Pairwise KeyDesc) :
    takeIdxWhile (frameKeep range rowsLimit startTs) 0 rows =
      (sizeTake range.maxSize rows).filter fun e => decide (startTs ≤ e.1) := by
  have hboth := takeIdxWhile_and (fun _ e => decide (startTs ≤ e.1))
    (fun i _ => decide (range.maxSize = 0) || decide (i < range.maxSize)) 0 rows
  rw [takeIdxWhile_maxSize, takeIdxWhile_const, takeWhile_eq_filter] at hboth
  · rw [hboth]
    unfold frameKeep
    rw [hf]
  · refine (h.sublist (sizeTake_sublist _ _)).imp fun hxy => ?_
    unfold KeyDesc at hxy
    simp only [decide_eq_true_eq]
    omega

/-- The rows kept by a merged frame: the newest ones, as long as the rows part or
the range part wants them. -/
theorem takeIdxWhile_frameKeep_merge {range} (hf : range.frameType = .kFrameRowsMergeRowsRange)
    (rowsLimit startTs : Nat) (rows : List (Entry Row)) :
    takeIdxWhile (frameKeep range rowsLimit startTs) 0 rows =
      takeIdxWhile (fun i e => decide (i < rowsLimit) || decide (startTs ≤ e.1)) 0
        (sizeTake range.maxSize rows) := by
  rw [← takeIdxWhile_maxSize, takeIdxWhile_and]
  unfold frameKeep
  rw [hf]

section Materialized

variable {history : List (Entry Row)} {key : Nat} {row : Row}

/-- The rows up to the current one, newest first. -/
def newestFirst (history : List (Entry Row)) (key : Nat) (row : Row) : List (Entry Row) :=
  (key, row) :: history.reverse

theorem newestFirst_eq (history : List (Entry Row)) (key : Nat) (row : Row) :
    newestFirst history key row = (history ++ [(key, row)]).reverse := by
  rw [reverse_append]
  rfl

variable (hasc : (history ++ [(key, row)]).Pairwise fun x y => x.1 ≤ y.1)

include hasc

theorem newestFirst_sorted : (newestFirst history key row).Pairwise KeyDesc := by
  rw [newestFirst_eq]
  exact pairwise_reverse.mpr hasc

theorem le_of_mem_newestFirst {e} (he : e ∈ newestFirst history key row) : e.1 ≤ key := by
  rcases mem_cons.mp he with rfl | he
  · exact Nat.le_refl _
  · exact (pairwise_cons.mp (newestFirst_sorted hasc)).1 e he

variable (hk : key < 2 ^ 63)

include hk

/-- A frame that ends at the current row. -/
theorem materialize_of_endsAtCurrent {frame} (hr : (rangeGenerator frame).EndsAtCurrent) :
    materialize frame history key row =
      takeIdxWhile ((rangeGenerator frame).keepAt key) 0 (newestFirst history key row) :=
  HistoryWindow.bufferAll_table hr false history hasc hk

/-- A rows frame keeps the newest rows. -/
theorem materialize_rows (e : RowsExtent) :
    materialize (UserFrame.rows e).node history key row =
      (newestFirst history key row).take (e.rowsBack + 1) := by
  have hstart : (rangeGenerator (UserFrame.rows e).node).startRow = e.rowsBack :=
    e.toUInt64_startOffset
  have hlimit : (rangeGenerator (UserFrame.rows e).node).rowsLimit = e.rowsBack + 1 := by
    have := e.rowsBack_le
    rw [WindowRange.rowsLimit_eq, hstart, if_neg (by omega)]
  have hends : (rangeGenerator (UserFrame.rows e).node).EndsAtCurrent :=
    rangeGenerator_endsAtCurrent rfl
  rw [materialize_of_endsAtCurrent hasc hk hends]
  have := takeIdxWhile_lt (e.rowsBack + 1) 0 (newestFirst history key row)
  rw [Nat.sub_zero] at this
  rw [← this]
  unfold WindowRange.keepAt frameKeep
  rw [hlimit]
  rfl

/-- A rows-range frame keeps the newest rows up to its end. Its start is exact if
the frame ends at the current row; otherwise rows of an earlier start may still
be there. -/
theorem materialize_rowsRange (e : SqlExtent) (maxsize : Nat) (hmax : maxsize < 2 ^ 63) :
    ∃ startTs ≤ clampTs key e.startOffset,
      (e.stopOffset = 0 → startTs = clampTs key e.startOffset) ∧
      materialize (UserFrame.rowsRange e maxsize hmax).node history key row =
        (sizeTake maxsize ((newestFirst history key row).filter
          fun x => decide (x.1 ≤ clampTs key e.stopOffset))).filter
            fun x => decide (startTs ≤ x.1) := by
  have hsize : (rangeGenerator (UserFrame.rowsRange e maxsize hmax).node).maxSize = maxsize :=
    toUInt64_natCast (by unfold IsUInt64; omega)
  have hsorted := newestFirst_sorted hasc
  rcases e.stopOffset_nonpos.eq_or_lt with hstop | hstop
  · refine ⟨_, Nat.le_refl _, fun _ => rfl, ?_⟩
    have hall : (newestFirst history key row).filter
        (fun x => decide (x.1 ≤ clampTs key e.stopOffset)) = newestFirst history key row := by
      refine filter_eq_self.mpr fun x hx => ?_
      rw [hstop, clampTs_eq hk (by decide) (Int.le_refl 0)]
      simpa using le_of_mem_newestFirst hasc hx
    have hends : (rangeGenerator (UserFrame.rowsRange e maxsize hmax).node).EndsAtCurrent :=
      rangeGenerator_endsAtCurrent hstop
    rw [materialize_of_endsAtCurrent hasc hk hends, hall]
    refine (takeIdxWhile_frameKeep_rowsRange rfl _ _ hsorted).trans ?_
    rw [hsize]
    rfl
  · have hends : (rangeGenerator (UserFrame.rowsRange e maxsize hmax).node).EndsBeforeCurrent :=
      ⟨rfl, e.startOffset_nonpos, hstop, rfl⟩
    have hbound : ∀ x ∈ history ++ [(key, row)], x.1 < 2 ^ 63 := fun x hx =>
      Nat.lt_of_le_of_lt
        (le_of_mem_newestFirst hasc (by rw [newestFirst_eq]; exact mem_reverse.mpr hx)) hk
    have hinv := (HistoryWindow.DelayedInv.new _ false false).bufferAll hends hasc
      (fun _ _ => Nat.zero_le _) hbound
    rw [getLast?_concat, append_nil, ← newestFirst_eq] at hinv
    obtain ⟨startTs, hle, htable⟩ := hinv.table_eq
    refine ⟨startTs, hle, fun h0 => absurd h0 hstop.ne, htable.trans ?_⟩
    rw [takeIdxWhile_frameKeep_rowsRange hends.frameType_eq _ _
      (hsorted.sublist filter_sublist), hsize]
    rfl

/-- A merged frame whose range part ends at the current row. -/
theorem materialize_mergedNode {r : SqlExtent} (hstop : r.stopOffset = 0) (e : RowsExtent)
    (maxsize : Nat) (hmax : maxsize < 2 ^ 63) :
    materialize (mergedNode r e maxsize hmax) history key row =
      takeIdxWhile
        (fun i x => decide (i < e.rowsBack + 1) || decide (clampTs key r.mergedStart ≤ x.1)) 0
        (sizeTake maxsize (newestFirst history key row)) := by
  have hsize : (rangeGenerator (mergedNode r e maxsize hmax)).maxSize = maxsize :=
    toUInt64_natCast (by unfold IsUInt64; omega)
  have hstart : (rangeGenerator (mergedNode r e maxsize hmax)).startRow = e.rowsBack := by
    rw [← e.toUInt64_startOffset, ← SqlExtent.mergedStart_eq e.start_ne_none]
    rfl
  have hlimit : (rangeGenerator (mergedNode r e maxsize hmax)).rowsLimit = e.rowsBack + 1 := by
    have := e.rowsBack_le
    rw [WindowRange.rowsLimit_eq, hstart, if_neg (by omega)]
  have hends : (rangeGenerator (mergedNode r e maxsize hmax)).EndsAtCurrent :=
    rangeGenerator_endsAtCurrent hstop
  rw [materialize_of_endsAtCurrent hasc hk hends]
  refine (takeIdxWhile_frameKeep_merge rfl _ _ _).trans ?_
  rw [hsize, hlimit]
  rfl

end Materialized

/-! ### What an aggregate sees -/

/-- The inner range list of a newest-first window. -/
theorem innerRangeList_eq_filter {window : List (Entry Row)} (h : window.Pairwise KeyDesc)
    (key startOffset endOffset : Int) :
    innerRangeList window key startOffset endOffset =
      window.filter fun e =>
        decide (clampTs key endOffset ≤ e.1) && decide (e.1 ≤ clampTs key startOffset) := by
  unfold innerRangeList
  dsimp only
  rw [dropWhile_eq_filter, takeWhile_eq_filter, List.filter_filter]
  · refine filter_congr fun e _ => ?_
    rw [Bool.eq_iff_iff]
    simp only [Bool.and_eq_true, Bool.not_eq_true', decide_eq_true_eq, decide_eq_false_iff_not]
    omega
  · refine (h.sublist filter_sublist).imp_of_mem fun hx _ hxy => ?_
    have := (mem_filter.mp hx).2
    unfold KeyDesc at hxy
    simp only [Bool.and_eq_true, Bool.not_eq_true', decide_eq_true_eq,
      decide_eq_false_iff_not] at this ⊢
    omega
  · refine h.imp fun hxy => ?_
    unfold KeyDesc at hxy
    simp only [decide_eq_true_eq]
    omega

/-- The inner rows list of an extent. -/
theorem innerRowsList_eq (window : List (Entry Row)) (e : RowsExtent) :
    innerRowsList window (toInt64 (-1 * e.signedStop)) (toInt64 (-1 * e.startOffset)) =
      (window.take (e.innerStop + 1)).drop e.innerStart := by
  unfold innerRowsList
  rw [e.clamp_innerStop, e.clamp_innerStart]

/-- Does an aggregate with the first extent read the whole window of the second? -/
def ReadsWhole (e em : RowsExtent) : Prop :=
  e.getExprString = em.getExprString ∧ em.endsBefore = false

instance (e em : RowsExtent) : Decidable (ReadsWhole e em) := inferInstanceAs (Decidable (_ ∧ _))

/-- A merged frame whose range part ends at the current row is no pure history frame. -/
theorem isPureHistoryFrame_mergedNode {r : SqlExtent} (hstop : r.stopOffset = 0) (e : RowsExtent)
    (maxsize : Nat) (hmax : maxsize < 2 ^ 63) :
    (mergedNode r e maxsize hmax).isPureHistoryFrame = some false := by
  have hend : (mergedNode r e maxsize hmax).getHistoryRangeEnd = 0 := hstop
  unfold FrameNode.isPureHistoryFrame
  rw [hend]
  rfl

section Seen

variable {history : List (Entry Row)} {key : Nat} {row : Row}
  (hasc : (history ++ [(key, row)]).Pairwise fun x y => x.1 ≤ y.1) (hk : key < 2 ^ 63)

include hasc hk

/-- A rows frame under a rows frame that starts no later. -/
theorem seenWindow_rows {e em : RowsExtent} (hback : e.rowsBack ≤ em.rowsBack) :
    seenWindow (UserFrame.rows e).node (UserFrame.rows em).node history key row =
      some (if ReadsWhole e em then (newestFirst history key row).take (em.rowsBack + 1)
        else ((newestFirst history key row).take (e.innerStop + 1)).drop e.innerStart) := by
  unfold seenWindow buildWindow
  rw [materialize_rows hasc hk, em.isPureHistoryFrame_node, Option.bind_some]
  by_cases hwhole : ReadsWhole e em
  · rw [if_pos hwhole]
    refine if_pos ⟨?_, hwhole.2⟩
    simp [FrameNode.getExprString, UserFrame.node, map_some, hwhole.1]
  · rw [if_neg hwhole]
    have hcut : ¬ ((UserFrame.rows e).node.getExprString =
        (UserFrame.rows em).node.getExprString ∧ em.endsBefore = false) := fun h =>
      hwhole ⟨Option.some.inj (Prod.ext_iff.mp h.1).2, h.2⟩
    have hmin : min (e.innerStop + 1) (em.rowsBack + 1) = e.innerStop + 1 := by
      have := e.innerStop_le
      omega
    refine (if_neg hcut).trans ((if_neg Bool.false_ne_true).trans ?_)
    rw [e.getHistoryRowsEnd_node, Option.map_some]
    refine congrArg some ((innerRowsList_eq _ e).trans ?_)
    rw [take_take, hmin]

/-- A rows frame under the merged frame that has it as its rows part. -/
theorem seenWindow_rows_mergedNode {r : SqlExtent} (hstop : r.stopOffset = 0) (e : RowsExtent)
    (maxsize : Nat) (hmax : maxsize < 2 ^ 63) :
    seenWindow (UserFrame.rows e).node (mergedNode r e maxsize hmax) history key row =
      some (((sizeTake maxsize (newestFirst history key row)).take (e.innerStop + 1)).drop
        e.innerStart) := by
  unfold seenWindow buildWindow
  rw [materialize_mergedNode hasc hk hstop, isPureHistoryFrame_mergedNode hstop, Option.bind_some,
    e.getHistoryRowsEnd_node]
  refine congrArg some ((innerRowsList_eq _ e).trans (congrArg _ ?_))
  refine take_eq_take_of_isPrefix (takeIdxWhile_isPrefix _ _ _)
    (take_isPrefix_takeIdxWhile fun j x hj _ => ?_)
  have := e.innerStop_le
  simp only [Bool.or_eq_true, decide_eq_true_eq]
  omega

/-- A rows-range frame under the merged frame that has it as its range part. -/
theorem seenWindow_rowsRange_mergedNode {r : SqlExtent} (hstop : r.stopOffset = 0)
    (e : RowsExtent) (maxsize : Nat) (hmax : maxsize < 2 ^ 63) :
    seenWindow (UserFrame.rowsRange r maxsize hmax).node (mergedNode r e maxsize hmax)
        history key row =
      some ((takeIdxWhile
        (fun i x => decide (i < e.rowsBack + 1) || decide (clampTs key r.mergedStart ≤ x.1)) 0
        (sizeTake maxsize (newestFirst history key row))).filter fun x =>
          decide (clampTs key r.startOffset ≤ x.1) && decide (x.1 ≤ clampTs key r.stopOffset)) := by
  have hsorted := (newestFirst_sorted hasc).sublist (sizeTake_sublist maxsize _)
  unfold seenWindow buildWindow
  rw [materialize_mergedNode hasc hk hstop, isPureHistoryFrame_mergedNode hstop, Option.bind_some]
  have hcut : ¬ ((UserFrame.rowsRange r maxsize hmax).node.getExprString =
      (mergedNode r e maxsize hmax).getExprString ∧ false = false) := fun h =>
    nomatch (Prod.ext_iff.mp h.1).2
  refine (if_neg hcut).trans ((if_pos rfl).trans (congrArg some ?_))
  exact innerRangeList_eq_filter (hsorted.sublist (takeIdxWhile_isPrefix _ _ _).sublist) _ _ _

/-- A rows-range frame under a rows-range frame that starts no later. -/
theorem seenWindow_rowsRange {e em : SqlExtent} (hstart : em.startOffset ≤ e.startOffset)
    (maxsize : Nat) (hmax : maxsize < 2 ^ 63) :
    seenWindow (UserFrame.rowsRange e maxsize hmax).node
        (UserFrame.rowsRange em maxsize hmax).node history key row =
      some ((sizeTake maxsize ((newestFirst history key row).filter
        fun x => decide (x.1 ≤ clampTs key em.stopOffset))).filter fun x =>
          decide (clampTs key e.startOffset ≤ x.1) && decide (x.1 ≤ clampTs key e.stopOffset)) := by
  have hsorted := ((newestFirst_sorted hasc).sublist
    (@filter_sublist _ (fun x => decide (x.1 ≤ clampTs key em.stopOffset)) _)).sublist
    (sizeTake_sublist maxsize _)
  obtain ⟨startTs, hle, hexact, htable⟩ := materialize_rowsRange hasc hk em maxsize hmax
  have hpure : (UserFrame.rowsRange em maxsize hmax).node.isPureHistoryFrame =
      some (decide (em.stopOffset < 0)) := rfl
  unfold seenWindow buildWindow
  rw [htable, hpure, Option.bind_some]
  by_cases hwhole : (UserFrame.rowsRange e maxsize hmax).node.getExprString =
      (UserFrame.rowsRange em maxsize hmax).node.getExprString ∧
      decide (em.stopOffset < 0) = false
  · have hem : em.stopOffset = 0 :=
      Int.le_antisymm em.stopOffset_nonpos (Int.not_lt.mp (of_decide_eq_false hwhole.2))
    obtain ⟨hs, ht⟩ := SqlExtent.offsets_eq_of_getExprString
      (Option.some.inj (Prod.ext_iff.mp hwhole.1).1)
    refine (if_pos hwhole).trans (congrArg some (filter_congr fun x hx => ?_))
    have hx := (mem_filter.mp ((sizeTake_sublist _ _).subset hx)).2
    rw [hexact hem, hs, ht, hx, Bool.and_true]
  · refine (if_neg hwhole).trans ((if_pos rfl).trans (congrArg some ?_))
    refine (innerRangeList_eq_filter (hsorted.sublist filter_sublist) _ _ _).trans ?_
    have hge : startTs ≤ clampTs key e.startOffset := hle.trans
      (clampTs_mono_offset hk em.int64_startOffset hstart e.startOffset_nonpos)
    rw [List.filter_filter]
    refine filter_congr fun x _ => ?_
    rw [Bool.eq_iff_iff]
    simp only [Bool.and_eq_true, decide_eq_true_eq]
    exact ⟨fun h => h.1, fun h => ⟨h, hge.trans h.1⟩⟩

end Seen

end HybridSE.Vm
