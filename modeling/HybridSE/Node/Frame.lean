import HybridSE.Lib.Machine
import Mathlib.Data.Int.ConditionallyCompleteOrder
import Mathlib.Order.WithBot

/-!
# HybridSE.Node.Frame

Window frames: `FrameBound`, `FrameExtent` and `FrameNode` of
`include/node/sql_node.h`, `FrameNode::CanMergeWith` of `src/node/sql_node.cc`
and `NodeManager::MergeFrameNode` of `src/node/node_manager.cc`.

`NodeManager::MakeFrameBound` takes integer and interval literals as offsets. Any other
offset, such as `2.5 FOLLOWING`, is logged and becomes a null bound, which the SQL converter
passes on, so a bound may be missing. `GetHistoryRowsEnd` looks at the start of the rows and
then reads through their end; where that is a null pointer the result is `none`, and so is
that of the functions that call it. `GetExprString` is used as a key only, for comparing
frames; its model is the value that the text prints, and equal texts are equal values.
-/

namespace HybridSE.Node

open HybridSE.Lib

/-- `node::FrameType`. -/
inductive FrameType
  | kFrameRange
  | kFrameRows
  | kFrameRowsRange
  | kFrameRowsMergeRowsRange
  deriving DecidableEq, Repr

/-- `node::BoundType`. -/
inductive BoundType
  | kPrecedingUnbound
  | kPreceding
  | kOpenPreceding
  | kCurrent
  | kOpenFollowing
  | kFollowing
  | kFollowingUnbound
  deriving DecidableEq, Repr

/-- `FrameBound`. -/
structure FrameBound where
  boundType : BoundType
  isTimeOffset : Bool := false
  offset : Int := 0
  offset_int64 : IsInt64 offset := by decide
  deriving DecidableEq

/-- `SqlEquals` on nodes that may be missing. -/
def sqlEquals {α : Type*} (equals : α → α → Bool) : Option α → Option α → Bool
  | none, none => true
  | some a, some b => equals a b
  | _, _ => false

/-- `INT64_MIN` and `INT64_MAX`. -/
def int64Min : Int := -2 ^ 63
def int64Max : Int := 2 ^ 63 - 1

namespace FrameBound

/-- `FrameBound::GetSignedOffset`. -/
def getSignedOffset (b : FrameBound) : Int :=
  match b.boundType with
  | .kCurrent => 0
  | .kFollowing => b.offset
  | .kOpenFollowing => toInt64 (b.offset - 1)
  | .kPreceding => toInt64 (-1 * b.offset)
  | .kOpenPreceding => toInt64 (-1 * toInt64 (b.offset - 1))
  | .kPrecedingUnbound => int64Min
  | .kFollowingUnbound => int64Max

/-- `FrameBound::Equals`. -/
def equals (b1 b2 : FrameBound) : Bool :=
  decide (b1.boundType = b2.boundType) && decide (b1.offset = b2.offset)

/-- `FrameBound::Compare`: a missing bound is the least one. -/
def compare (b1 b2 : Option FrameBound) : Int :=
  if sqlEquals equals b1 b2 then 0
  else
    match b1, b2 with
    | none, _ => -1
    | some _, none => 1
    | some b1, some b2 =>
      let offset1 := b1.getSignedOffset
      let offset2 := b2.getSignedOffset
      if offset1 = offset2 then 0 else if offset2 < offset1 then 1 else -1

/-- `FrameBound::GetExprString`: the printed number, or `none` for `UNBOUND`. -/
def getExprString (b : FrameBound) : Option Int :=
  match b.boundType with
  | .kCurrent => some 0
  | .kOpenFollowing | .kOpenPreceding | .kFollowing | .kPreceding => some b.getSignedOffset
  | .kPrecedingUnbound | .kFollowingUnbound => none

/-- The bound of `CURRENT ROW`. -/
def current : FrameBound := { boundType := .kCurrent, offset_int64 := isInt64_zero }

end FrameBound

/-- `FrameExtent`. -/
structure FrameExtent where
  start : Option FrameBound
  stop : Option FrameBound
  deriving DecidableEq

namespace FrameExtent

/-- `FrameExtent::Equals`. -/
def equals (e1 e2 : FrameExtent) : Bool :=
  sqlEquals FrameBound.equals e1.start e2.start && sqlEquals FrameBound.equals e1.stop e2.stop

/-- `FrameExtent::GetExprString`: a missing bound is printed as `UNBOUND` too. -/
def getExprString (e : FrameExtent) : Option Int × Option Int :=
  (e.start.bind FrameBound.getExprString, e.stop.bind FrameBound.getExprString)

end FrameExtent

/-- `FrameNode`. -/
structure FrameNode where
  frameType : FrameType
  frameRange : Option FrameExtent
  frameRows : Option FrameExtent
  frameMaxsize : Int
  frameMaxsize_int64 : IsInt64 frameMaxsize := by decide
  deriving DecidableEq

namespace FrameNode

/-- `offset > 0 ? 0 : offset`. -/
def historyOffset (offset : Int) : Int := if 0 < offset then 0 else offset

/-- The history offset of a bound, with the value for a missing one. -/
def historyBound (missing : Int) : Option FrameBound → Int
  | none => missing
  | some b => historyOffset b.getSignedOffset

/-- `FrameNode::GetHistoryRangeStart`. -/
def getHistoryRangeStart (f : FrameNode) : Int :=
  match f.frameRows, f.frameRange with
  | none, none => int64Min
  | none, some range => historyBound int64Min range.start
  | some _, none => 0
  | some _, some range => historyBound 0 range.start

/-- `FrameNode::GetHistoryRangeEnd`. -/
def getHistoryRangeEnd (f : FrameNode) : Int :=
  match f.frameRange with
  | none => 0
  | some range => historyBound 0 range.stop

/-- `FrameNode::GetHistoryRowsStart`. -/
def getHistoryRowsStart (f : FrameNode) : Int :=
  match f.frameRange, f.frameRows with
  | none, none => int64Min
  | none, some rows => historyBound int64Min rows.start
  | some _, none => 0
  | some _, some rows => historyBound 0 rows.start

/-- `FrameNode::GetHistoryRowsStartPreceding`. -/
def getHistoryRowsStartPreceding (f : FrameNode) : Int := toInt64 (-1 * f.getHistoryRowsStart)

/-- `FrameNode::GetHistoryRowsEnd`. Without a range part the offset is not cut at
the current row. The test is for a missing start, not for a missing end. -/
def getHistoryRowsEnd (f : FrameNode) : Option Int :=
  match f.frameRange, f.frameRows with
  | none, none => some int64Min
  | none, some rows =>
    if rows.start = none then some int64Min else rows.stop.map FrameBound.getSignedOffset
  | some _, none => some 0
  | some _, some rows =>
    if rows.start = none then some 0
    else rows.stop.map fun b => historyOffset b.getSignedOffset

/-- `FrameNode::GetExprString`. -/
def getExprString (f : FrameNode) :
    Option (Option Int × Option Int) × Option (Option Int × Option Int) :=
  (f.frameRange.map FrameExtent.getExprString, f.frameRows.map FrameExtent.getExprString)

/-- `FrameNode::Equals`. -/
def equals (f1 f2 : FrameNode) : Bool :=
  decide (f1.frameType = f2.frameType) &&
    sqlEquals FrameExtent.equals f1.frameRange f2.frameRange &&
    sqlEquals FrameExtent.equals f1.frameRows f2.frameRows &&
    decide (f1.frameMaxsize = f2.frameMaxsize)

/-- `FrameNode::IsRowsRangeLikeFrame`. -/
def isRowsRangeLikeFrame (f : FrameNode) : Bool :=
  f.frameType = .kFrameRowsRange || f.frameType = .kFrameRowsMergeRowsRange

/-- `FrameNode::IsRowsRangeLikeMaxSizeFrame`. -/
def isRowsRangeLikeMaxSizeFrame (f : FrameNode) : Bool :=
  f.isRowsRangeLikeFrame && decide (0 < f.frameMaxsize)

/-- `FrameNode::IsPureHistoryFrame`. -/
def isPureHistoryFrame (f : FrameNode) : Option Bool :=
  match f.frameType with
  | .kFrameRows => f.getHistoryRowsEnd.map fun stop => decide (stop < 0)
  | .kFrameRowsRange => some (decide (f.getHistoryRangeEnd < 0))
  | .kFrameRowsMergeRowsRange =>
    if f.getHistoryRangeEnd < 0 then f.getHistoryRowsEnd.map fun stop => decide (stop < 0)
    else some false
  | .kFrameRange => some false

/-- The part of `CanMergeWith` that looks at a rows-range-like frame `f` and a rows frame `g`:
does it forbid to merge them? -/
def pureHistoryForbids (f g : FrameNode) : Option Bool :=
  if f.isRowsRangeLikeFrame then
    f.isPureHistoryFrame.map fun pure => pure && decide (g.frameType = .kFrameRows)
  else some false

/-- The same for a rows-range-like frame `f` with `MAXSIZE`. -/
def maxSizeForbids (f g : FrameNode) : Option Bool :=
  if f.isRowsRangeLikeMaxSizeFrame && decide (g.frameType = .kFrameRows) then
    f.isPureHistoryFrame.map fun pure =>
      pure || decide (f.frameMaxsize < g.getHistoryRowsStartPreceding)
  else some false

/-- `FrameNode::CanMergeWith` on frames that are there. -/
def canMergeWith (f that : FrameNode) (enableMergeWithMaxsize : Bool) : Option Bool := do
  if f.equals that then return true
  if f.isRowsRangeLikeFrame && that.isRowsRangeLikeFrame then
    if !enableMergeWithMaxsize && (decide (0 < f.frameMaxsize) || decide (0 < that.frameMaxsize))
    then return false
    if f.frameMaxsize ≠ that.frameMaxsize then return false
  if ← pureHistoryForbids f that then return false
  if ← pureHistoryForbids that f then return false
  if ← maxSizeForbids f that then return false
  if ← maxSizeForbids that f then return false
  return !(decide (f.frameType = .kFrameRange) || decide (that.frameType = .kFrameRange))

end FrameNode

theorem isInt64_toInt64 (x : Int) : IsInt64 (toInt64 x) := by
  unfold IsInt64 toInt64
  have h1 := Int.le_bmod (x := x) (m := 2 ^ 64) (by decide)
  have h2 := Int.bmod_lt (x := x) (m := 2 ^ 64) (by decide)
  omega

theorem isInt64_getSignedOffset (b : FrameBound) : IsInt64 b.getSignedOffset := by
  unfold FrameBound.getSignedOffset
  split
  · decide
  · exact b.offset_int64
  · exact isInt64_toInt64 _
  · exact isInt64_toInt64 _
  · exact isInt64_toInt64 _
  · decide
  · decide

theorem isInt64_historyOffset {offset} (h : IsInt64 offset) :
    IsInt64 (FrameNode.historyOffset offset) := by
  unfold FrameNode.historyOffset
  split
  · decide
  · exact h

theorem historyBound_nonpos {missing : Int} (h : missing ≤ 0) (b : Option FrameBound) :
    FrameNode.historyBound missing b ≤ 0 := by
  cases b with
  | none => exact h
  | some b =>
    unfold FrameNode.historyBound FrameNode.historyOffset
    dsimp only
    split <;> omega

/-- Where a bound lies; a missing bound is before all others. -/
def position (b : Option FrameBound) : WithBot Int :=
  match b with
  | none => ⊥
  | some b => (b.getSignedOffset : WithBot Int)

theorem compare_lt_one_iff (b1 b2 : Option FrameBound) :
    FrameBound.compare b1 b2 < 1 ↔ position b1 ≤ position b2 := by
  unfold FrameBound.compare
  cases b1 with
  | none => cases b2 <;> simp [sqlEquals, position]
  | some b1 =>
    cases b2 with
    | none => simp [sqlEquals, position]
    | some b2 =>
      by_cases h : sqlEquals FrameBound.equals (some b1) (some b2) = true
      · rw [if_pos h]
        simp only [sqlEquals, FrameBound.equals, Bool.and_eq_true, decide_eq_true_eq] at h
        simp [position, FrameBound.getSignedOffset, h.1, h.2]
      · rw [if_neg h]
        simp only [position, WithBot.coe_le_coe]
        split
        · omega
        · split <;> omega

theorem one_le_compare_iff (b1 b2 : Option FrameBound) :
    1 ≤ FrameBound.compare b1 b2 ↔ position b2 < position b1 := by
  rw [← Int.not_lt, compare_lt_one_iff, not_le]

/-- The earlier start and the later end of two extents, as
`NodeManager::MergeFrameNode` chooses them. -/
def FrameExtent.merge (extent1 extent2 : FrameExtent) : FrameExtent where
  start :=
    if FrameBound.compare extent1.start extent2.start < 1 then extent1.start else extent2.start
  stop :=
    if 1 ≤ FrameBound.compare extent1.stop extent2.stop then extent1.stop else extent2.stop

theorem FrameExtent.position_merge_start (e1 e2 : FrameExtent) :
    position (e1.merge e2).start = min (position e1.start) (position e2.start) := by
  unfold FrameExtent.merge
  simp only [compare_lt_one_iff]
  split
  · rename_i h
    exact (min_eq_left h).symm
  · rename_i h
    exact (min_eq_right (not_le.mp h).le).symm

theorem FrameExtent.position_merge_stop (e1 e2 : FrameExtent) :
    position (e1.merge e2).stop = max (position e1.stop) (position e2.stop) := by
  unfold FrameExtent.merge
  simp only [one_le_compare_iff]
  split
  · rename_i h
    exact (max_eq_left h.le).symm
  · rename_i h
    exact (max_eq_right (not_lt.mp h)).symm

/-- The extent part of `NodeManager::MergeFrameNode`, for the range and for the
rows. -/
def mergeFrameExtent : Option FrameExtent → Option FrameExtent → Option FrameExtent
  | none, extent2 => extent2
  | extent1, none => extent1
  | some extent1, some extent2 => some (extent1.merge extent2)

/-- `NodeManager::MergeFrameNode` on frames that are there. -/
def mergeFrameNode (frame1 frame2 : FrameNode) : FrameNode where
  frameType :=
    if frame1.frameType = frame2.frameType then frame1.frameType else .kFrameRowsMergeRowsRange
  frameRange := mergeFrameExtent frame1.frameRange frame2.frameRange
  frameRows := mergeFrameExtent frame1.frameRows frame2.frameRows
  frameMaxsize := if frame1.frameMaxsize = 0 then frame2.frameMaxsize else frame1.frameMaxsize
  frameMaxsize_int64 := by
    split
    · exact frame2.frameMaxsize_int64
    · exact frame1.frameMaxsize_int64

end HybridSE.Node
