import HybridSE.Lib.Machine
import HybridSE.Lib.PrefixWindow

/-!
# HybridSE.Vm.Window

The sliding window of batch mode: `WindowRange` and `HistoryWindow` of
`include/vm/mem_catalog.h`.

A table is a list of `(key, row)` pairs, front first; rows are of an arbitrary
type, since no window operation looks into a row. Keys are `uint64_t`, offsets
`int64_t`: both are unbounded numbers here and every operation that can leave
its C++ type wraps explicitly (`HybridSE.Lib.Machine`).
-/

namespace HybridSE.Vm

open HybridSE.Lib

/-- `Window::WindowFrameType`. -/
inductive WindowFrameType
  | kFrameRows
  | kFrameRowsRange
  | kFrameRowsMergeRowsRange
  deriving DecidableEq, Repr

/-- `WindowRange`, with the ranges of its C++ field types. `end_row_` is left
out: no window operation reads it. -/
structure WindowRange where
  frameType : WindowFrameType
  startOffset : Int
  endOffset : Int
  startRow : Nat
  maxSize : Nat
  startOffset_int64 : IsInt64 startOffset := by decide
  endOffset_int64 : IsInt64 endOffset := by decide
  startRow_uint64 : IsUInt64 startRow := by decide

/-- `WindowRange::WindowPositionStatus`. -/
inductive WindowPositionStatus
  | kInWindow
  | kExceedWindow
  | kBeforeWindow
  deriving DecidableEq, Repr

namespace WindowRange

/-- `WindowRange::GetWindowPositionStatus`. -/
def getWindowPositionStatus (range : WindowRange) (outOfRows beforeWindow exceedWindow : Bool) :
    WindowPositionStatus :=
  match range.frameType with
  | .kFrameRows => if outOfRows then .kExceedWindow else .kInWindow
  | .kFrameRowsMergeRowsRange =>
    if outOfRows then
      if beforeWindow then .kBeforeWindow
      else if exceedWindow then .kExceedWindow else .kInWindow
    else .kInWindow
  | .kFrameRowsRange =>
    if exceedWindow then .kExceedWindow
    else if beforeWindow then .kBeforeWindow else .kInWindow

/-- Is the frame one of those whose size is bounded below by `start_row_`? -/
def isRowsLike (range : WindowRange) : Bool :=
  range.frameType = .kFrameRows || range.frameType = .kFrameRowsMergeRowsRange

end WindowRange

/-- `int64_t sub = key + offset; sub < 0 ? 0u : static_cast<uint64_t>(sub)`. -/
def clampTs (key offset : Int) : Nat :=
  let sub := toInt64 (key + offset)
  if sub < 0 then 0 else sub.toNat

/-- An entry of a `MemTimeTable`. -/
abbrev Entry (Row : Type*) := Nat × Row

/-- `HistoryWindow`, with the flags of its base class `Window`. -/
structure HistoryWindow (Row : Type*) where
  windowRange : WindowRange
  excludeCurrentTime : Bool
  instanceNotInWindow : Bool
  table : List (Entry Row)
  currentHistoryBuffer : List (Entry Row)

namespace HistoryWindow

variable {Row : Type*}

/-- A fresh window. -/
def new (range : WindowRange) (excludeCurrentTime instanceNotInWindow : Bool) :
    HistoryWindow Row where
  windowRange := range
  excludeCurrentTime := excludeCurrentTime
  instanceNotInWindow := instanceNotInWindow
  table := []
  currentHistoryBuffer := []

/-- What `HistoryWindow::PopFrontData` leaves of a window that has a row to pop: one that
waits in the buffer, or the front row of the table. -/
def dropFront (w : HistoryWindow Row) : HistoryWindow Row :=
  if w.currentHistoryBuffer.isEmpty then { w with table := w.table.tail }
  else { w with currentHistoryBuffer := w.currentHistoryBuffer.tail }

/-- `HistoryWindow::PopFrontData`. The table is popped without a test, and popping an empty
`std::deque` is undefined: then there is no result. -/
def popFrontData (w : HistoryWindow Row) : Option (HistoryWindow Row) :=
  if w.currentHistoryBuffer.isEmpty && w.table.isEmpty then none else some w.dropFront

/-- `HistoryWindow::PopEffectiveData`. -/
def popEffectiveData (w : HistoryWindow Row) : HistoryWindow Row :=
  if w.table.isEmpty then w else { w with table := w.table.tail }

/-- First loop of `BufferEffectiveWindow`: evict what exceeds `max_size_`. -/
def evictMaxSize (range : WindowRange) (table : List (Entry Row)) : List (Entry Row) :=
  popBackWhile (fun curSize _ => decide (0 < range.maxSize) && decide (range.maxSize < curSize))
    table.length table

/-- Second loop of `BufferEffectiveWindow`: slide the window. The sum
`start_row_ + 1` is a `uint64_t`. -/
def slideWindow (range : WindowRange) (startTs : Nat) (table : List (Entry Row)) :
    List (Entry Row) :=
  popBackWhile
    (fun curSize back =>
      if range.isRowsLike && decide (curSize ≤ toUInt64 (range.startRow + 1)) then false
      else decide (range.frameType = .kFrameRows) || decide (back.1 < startTs))
    table.length table

/-- `HistoryWindow::BufferEffectiveWindow`; it always returns true. -/
def bufferEffectiveWindow (w : HistoryWindow Row) (key : Nat) (row : Row) (startTs : Nat) :
    HistoryWindow Row :=
  { w with table := slideWindow w.windowRange startTs
                      (evictMaxSize w.windowRange ((key, row) :: w.table)) }

/-- The loop of `BufferCurrentHistoryBuffer`, for at most the given number of
rows: rows up to `end_ts` move, oldest first, into the effective window. -/
def drainHistoryBuffer (endTs startTs : Nat) : Nat → HistoryWindow Row → HistoryWindow Row
  | 0, w => w
  | n + 1, w =>
    match w.currentHistoryBuffer.getLast? with
    | none => w
    | some back =>
      if endTs < back.1 then w
      else
        drainHistoryBuffer endTs startTs n
          { w.bufferEffectiveWindow back.1 back.2 startTs with
            currentHistoryBuffer := w.currentHistoryBuffer.dropLast }

/-- `HistoryWindow::BufferCurrentHistoryBuffer`; it always returns true. -/
def bufferCurrentHistoryBuffer (w : HistoryWindow Row) (key : Nat) (row : Row) (endTs : Nat) :
    HistoryWindow Row :=
  let w' := { w with currentHistoryBuffer := (key, row) :: w.currentHistoryBuffer }
  drainHistoryBuffer endTs (clampTs key w.windowRange.startOffset)
    w'.currentHistoryBuffer.length w'

/-- `HistoryWindow::BufferCurrentTimeBuffer`. `key - 1` is computed in
`uint64_t`, so it is the largest key when `key` is zero. -/
def bufferCurrentTimeBuffer (w : HistoryWindow Row) (key : Nat) (row : Row) (startTs : Nat) :
    HistoryWindow Row :=
  if !w.excludeCurrentTime then w.bufferEffectiveWindow key row startTs
  else
    (w.popEffectiveData.bufferCurrentHistoryBuffer key row
      (toUInt64 ((key : Int) - 1))).bufferEffectiveWindow key row startTs

/-- `HistoryWindow::BufferData`: the result flag and the new window. -/
def bufferData (w : HistoryWindow Row) (key : Nat) (row : Row) : Bool × HistoryWindow Row :=
  if w.table.head?.any (fun front => decide (key < front.1)) then (false, w)
  else if w.table.length < w.windowRange.startRow then
    let startTs := clampTs key w.windowRange.startOffset
    if 0 = w.windowRange.endOffset then (true, w.bufferCurrentTimeBuffer key row startTs)
    else (true, w.bufferEffectiveWindow key row startTs)
  else if 0 = w.windowRange.endOffset then
    (true, w.bufferCurrentTimeBuffer key row (clampTs key w.windowRange.startOffset))
  else
    (true, w.bufferCurrentHistoryBuffer key row (clampTs key w.windowRange.endOffset))

/-- Push the rows of a history, oldest first. -/
def bufferAll (w : HistoryWindow Row) (history : List (Entry Row)) : HistoryWindow Row :=
  history.foldl (fun w e => (w.bufferData e.1 e.2).2) w

end HistoryWindow

end HybridSE.Vm
