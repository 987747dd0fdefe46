import HybridSE.Vm.RequestUnion

/-!
# HybridSE.Vm.WindowConsistency

Batch mode and request mode must see the same window. Both cut a newest-first
list by the frame test of `WindowSound`, so the question is where the lists or
the tests differ:

* batch mode computes the number of rows of a rows frame, `start_row_ + 1`, in
  `uint64_t`, so that it is zero for the largest `start_row_`;
* batch mode computes the end of the past, `key - 1`, in `uint64_t`, so that
  with `exclude_current_time_` the current row at key zero is its own past.

`batch_eq_request_iff` says that these two are the only differences, and exactly
when they show.
-/

namespace HybridSE.Vm

open HybridSE.Lib List Option

variable {Row : Type*}

/-! ### The two frame tests -/

/-- The number of rows that a frame's size bounds allow, if they bound it. -/
def WindowRange.rowCap (range : WindowRange) : Option Nat :=
  match range.frameType with
  | .kFrameRows =>
    some (if range.maxSize = 0 then range.startRow + 1
      else min range.maxSize (range.startRow + 1))
  | _ => if range.maxSize = 0 then none else some range.maxSize

/-- The number of rows behind the current row that a merged frame keeps whatever
their keys are. -/
def WindowRange.olderRows (range : WindowRange) : Nat :=
  if range.maxSize = 0 then range.startRow else min range.startRow (range.maxSize - 1)

/-- The first elements of a list, as many as the cap allows. -/
def capTake {α : Type*} (cap : Option Nat) (xs : List α) : List α :=
  match cap with
  | none => xs
  | some n => xs.take n

/-- Is the row in the time range of a current row of key `key`? -/
def WindowRange.inRange (range : WindowRange) (key : Nat) (e : Entry Row) : Bool :=
  decide ((key : Int) + range.startOffset ≤ e.1)

/-- When the row limit of batch mode does not show on the rows `past` behind a
current row of key `key`: a rows frame must not have the largest `start_row_`,
and where a merged frame has it, the rows it keeps for their number must be in
its time range, too. -/
structure RowsLimitAgrees (range : WindowRange) (key : Nat) (past : List (Entry Row)) : Prop where
  rows : range.frameType = .kFrameRows → range.startRow + 1 < 2 ^ 64
  merge : range.frameType = .kFrameRowsMergeRowsRange → range.startRow + 1 = 2 ^ 64 →
    (∀ e ∈ past, range.inRange key e = true) ∨
      range.olderRows ≤ past.countP (range.inRange key)

section FrameTests

variable {range : WindowRange} {key : Nat} {row : Row} {past : List (Entry Row)}

/-- Below the largest `start_row_` the two tests are the same. -/
theorem rowsLimit_eq_of_lt (h : range.startRow + 1 < 2 ^ 64) :
    range.rowsLimit = range.startRow + 1 := by
  rw [range.rowsLimit_eq, if_neg (Nat.ne_of_lt h)]

theorem startRow_eq_of_not_lt (h : ¬ range.startRow + 1 < 2 ^ 64) :
    range.startRow + 1 = 2 ^ 64 ∧ range.rowsLimit = 0 := by
  have := range.startRow_uint64
  unfold IsUInt64 at this
  have heq : range.startRow + 1 = 2 ^ 64 := by omega
  exact ⟨heq, by rw [range.rowsLimit_eq, if_pos heq]⟩

/-- A rows frame with the largest `start_row_` keeps no row in batch mode. -/
theorem takeIdxWhile_keepAt_eq_nil (hf : range.frameType = .kFrameRows)
    (hwrap : ¬ range.startRow + 1 < 2 ^ 64) (xs : List (Entry Row)) :
    takeIdxWhile (range.keepAt key) 0 xs = [] := by
  cases xs with
  | nil => rfl
  | cons x xs =>
    refine takeIdxWhile_cons_of_neg ?_
    simp [WindowRange.keepAt, frameKeep, hf, (startRow_eq_of_not_lt hwrap).2]

/-- In a merged frame with the largest `start_row_`, what batch mode keeps is in
the time range. -/
theorem keepAt_of_wrap (hf : range.frameType = .kFrameRowsMergeRowsRange)
    (hwrap : ¬ range.startRow + 1 < 2 ^ 64) {i} {e : Entry Row} :
    range.keepAt key i e =
      ((decide (range.maxSize = 0) || decide (i < range.maxSize)) &&
        decide (clampTs key range.startOffset ≤ e.1)) := by
  unfold WindowRange.keepAt frameKeep
  rw [hf, (startRow_eq_of_not_lt hwrap).2]
  simp

/-- The lower bound of a frame, read as an inequality between timestamps. -/
theorem clampTs_le_iff (hr : range.EndsAtCurrent) (hk : key < 2 ^ 63) (e : Entry Row) :
    clampTs key range.startOffset ≤ e.1 ↔ range.inRange key e = true := by
  unfold WindowRange.inRange
  rw [clampTs_eq hk range.startOffset_int64 hr.startOffset_nonpos, decide_eq_true_eq]
  omega

/-- On a newest-first list the older rows are in range exactly if all are, or
enough of them. -/
theorem forall_olderRows_iff (hsorted : past.Pairwise KeyDesc) :
    (∀ e ∈ past.take range.olderRows, range.inRange key e = true) ↔
      (∀ e ∈ past, range.inRange key e = true) ∨
        range.olderRows ≤ past.countP (range.inRange key) := by
  refine forall_mem_take_iff (hsorted.imp fun {x y} hxy hy => ?_) _
  have hle : y.1 ≤ x.1 := hxy
  simp only [WindowRange.inRange, decide_eq_true_eq] at hy ⊢
  omega

/-- A merged frame with the largest `start_row_`: request mode keeps the older
rows whatever their keys, batch mode only those in the time range. -/
theorem keepAt_eq_frameKeep_iff_of_merge (hr : range.EndsAtCurrent) (hk : key < 2 ^ 63)
    (hf : range.frameType = .kFrameRowsMergeRowsRange)
    (hwrap : ¬ range.startRow + 1 < 2 ^ 64) (hsorted : past.Pairwise KeyDesc) :
    takeIdxWhile (range.keepAt key) 0 ((key, row) :: past) =
        takeIdxWhile (frameKeep range (range.startRow + 1) (clampTs key range.startOffset)) 0
          ((key, row) :: past) ↔
      RowsLimitAgrees range key past := by
  constructor
  · intro heq
    refine ⟨fun h => by simp [hf] at h, fun _ _ => (forall_olderRows_iff hsorted).mp fun e he => ?_⟩
    have hkept : ((key, row) :: past).take (range.olderRows + 1) <+:
        takeIdxWhile (frameKeep range (range.startRow + 1) (clampTs key range.startOffset)) 0
          ((key, row) :: past) := by
      refine take_isPrefix_takeIdxWhile fun j x hj _ => ?_
      unfold WindowRange.olderRows at hj
      unfold frameKeep
      rw [hf]
      simp only [Bool.and_eq_true, Bool.or_eq_true, decide_eq_true_eq]
      split at hj <;> omega
    rw [← heq] at hkept
    obtain ⟨j, hj⟩ := exists_keep_of_mem_takeIdxWhile
      (hkept.subset (mem_cons_of_mem (key, row) he))
    rw [keepAt_of_wrap hf hwrap, Bool.and_eq_true, decide_eq_true_eq] at hj
    exact (clampTs_le_iff hr hk e).mp hj.2
  · intro h
    refine takeIdxWhile_congr fun j x hx => ?_
    rw [keepAt_of_wrap hf hwrap]
    unfold frameKeep
    rw [hf]
    by_cases hstart : clampTs key range.startOffset ≤ x.1
    · simp [hstart]
    · -- too old: so it is not one of the older rows, and its position is too far back
      have hj : range.olderRows < j := by
        by_contra hle
        cases j with
        | zero =>
          obtain rfl : (key, row) = x := by simpa using hx
          exact hstart (clampTs_le hk range.startOffset_int64 hr.startOffset_nonpos)
        | succ j =>
          have hmem : x ∈ past.take range.olderRows :=
            mem_of_getElem? (i := j)
              (by rw [getElem?_take_of_lt (by omega)]; simpa using hx)
          exact hstart ((clampTs_le_iff hr hk x).mpr ((forall_olderRows_iff hsorted).mpr
            (h.merge hf (startRow_eq_of_not_lt hwrap).1) x hmem))
      unfold WindowRange.olderRows at hj
      simp only [hstart, decide_false, Bool.or_false, Bool.and_false, Bool.false_eq,
        Bool.and_eq_false_iff, Bool.or_eq_false_iff, decide_eq_false_iff_not]
      split at hj <;> omega

/-- The two row limits cut the same window exactly under `RowsLimitAgrees`. -/
theorem keepAt_eq_frameKeep_iff (hr : range.EndsAtCurrent) (hk : key < 2 ^ 63)
    (hsorted : past.Pairwise KeyDesc) :
    takeIdxWhile (range.keepAt key) 0 ((key, row) :: past) =
        takeIdxWhile (frameKeep range (range.startRow + 1) (clampTs key range.startOffset)) 0
          ((key, row) :: past) ↔
      RowsLimitAgrees range key past := by
  by_cases hwrap : range.startRow + 1 < 2 ^ 64
  · unfold WindowRange.keepAt
    rw [rowsLimit_eq_of_lt hwrap]
    exact ⟨fun _ => ⟨fun _ => hwrap, fun _ h => absurd h (Nat.ne_of_lt hwrap)⟩, fun _ => rfl⟩
  · cases hf : range.frameType with
    | kFrameRows =>
      -- batch mode keeps nothing, request mode at least the request row
      rw [takeIdxWhile_keepAt_eq_nil hf hwrap,
        takeIdxWhile_cons_of_pos (frameKeep_current hr hk row)]
      exact ⟨fun h => by simp at h, fun h => absurd (h.rows hf) hwrap⟩
    | kFrameRowsRange =>
      refine ⟨fun _ => ⟨fun h => by simp [hf] at h, fun h => by simp [hf] at h⟩,
        fun _ => takeIdxWhile_congr fun j x _ => ?_⟩
      unfold WindowRange.keepAt frameKeep
      rw [hf]
    | kFrameRowsMergeRowsRange =>
      exact keepAt_eq_frameKeep_iff_of_merge hr hk hf hwrap hsorted

/-- When every row is in the time range, only the size bounds cut. -/
theorem takeIdxWhile_frameKeep_eq_capTake {rowsLimit startTs} {xs : List (Entry Row)}
    (hlimit : range.frameType = .kFrameRows → rowsLimit = range.startRow + 1)
    (h : ∀ e ∈ xs, startTs ≤ e.1) :
    takeIdxWhile (frameKeep range rowsLimit startTs) 0 xs = capTake range.rowCap xs := by
  have hcut : takeIdxWhile (frameKeep range rowsLimit startTs) 0 xs =
      takeIdxWhile (fun i _ => decide (∀ n ∈ range.rowCap, i < n)) 0 xs := by
    refine takeIdxWhile_congr fun j x hx => ?_
    have hstart : startTs ≤ x.1 := h x (mem_of_getElem? hx)
    unfold frameKeep WindowRange.rowCap
    cases hf : range.frameType <;> by_cases hmax : range.maxSize = 0 <;>
      simp [hmax, hstart, hlimit, hf]
  rw [hcut]
  cases range.rowCap with
  | none => exact takeIdxWhile_eq_self fun _ _ _ _ => by simp
  | some n =>
    have hlt : takeIdxWhile (fun i _ => decide (∀ m ∈ some n, i < m)) 0 xs =
        takeIdxWhile (fun i _ => decide (i < n)) 0 xs :=
      takeIdxWhile_congr fun j x _ => by simp
    rw [hlt]
    exact takeIdxWhile_lt n 0 xs

end FrameTests

/-! ### One union segment -/

/-- A single segment is read as it is. -/
theorem mergeUnionSegments_singleton {seg : List (Entry Row)} (h : seg.Pairwise KeyDesc) :
    mergeUnionSegments [seg] = seg := by
  have hmerge := isStableMerge_mergeUnionSegments (forall_mem_singleton.mpr h)
  refine hmerge.unique (fun a b hab hba => Nat.le_antisymm hba hab)
    (⟨h, fun c => ?_⟩ : IsStableMerge Prod.fst (fun a b => b ≤ a) [seg] seg) fun c => rfl
  rw [flatten_singleton]

/-- When the windows of the two modes are the same. `history` is the sequence of
rows before the current row `(key, row)`, oldest first. -/
structure ModesAgree (range : WindowRange) (excludeCurrentTime : Bool)
    (history : List (Entry Row)) (key : Nat) (row : Row) : Prop where
  /-- The row limit does not wrap visibly. -/
  limit : RowsLimitAgrees range key
    (history.reverse.filter fun e => decide (e.1 ≤ unionEnd excludeCurrentTime key))
  /-- At key zero the second copy of the current row does not show: the size
  bounds cut the window, and all rows up to the cut are copies of the current
  one. -/
  zero : excludeCurrentTime = true → key = 0 → ∃ cap, range.rowCap = some cap ∧
    cap ≤ history.length + 1 ∧ ∀ e ∈ history.reverse.take (cap - 1), e.2 = row

section OneSegment

variable {range : WindowRange} {history : List (Entry Row)} {key : Nat} {row : Row}

/-- The frame test rejects nothing before the size bounds do. -/
theorem rowCap_pos {cap} (h : range.rowCap = some cap) : 0 < cap := by
  unfold WindowRange.rowCap at h
  cases hf : range.frameType <;> by_cases hmax : range.maxSize = 0 <;> simp [hf, hmax] at h <;>
    omega

/-- Key zero: batch mode sees the current row twice. -/
theorem capTake_cons_cons_iff (hkeys : ∀ e ∈ history, e.1 = 0) :
    capTake range.rowCap ((0, row) :: (0, row) :: history) =
        capTake range.rowCap ((0, row) :: history) ↔
      ∃ cap, range.rowCap = some cap ∧ cap ≤ history.length + 1 ∧
        ∀ e ∈ history.take (cap - 1), e.2 = row := by
  cases hcap : range.rowCap with
  | none =>
    constructor
    · intro h
      have := congrArg List.length h
      simp [capTake] at this
    · rintro ⟨cap, hnone, -⟩
      cases hnone
  | some cap =>
    have hpos := rowCap_pos hcap
    obtain ⟨n, rfl⟩ := Nat.exists_eq_succ_of_ne_zero hpos.ne'
    have hentry : ∀ e ∈ history.take n, e = (0, row) ↔ e.2 = row := by
      intro e he
      have h0 := hkeys e (mem_of_mem_take he)
      exact ⟨fun h => by rw [h], fun h => Prod.ext h0 h⟩
    unfold capTake
    dsimp only [Nat.succ_eq_add_one]
    rw [take_succ_cons, take_succ_cons, cons_eq_cons, take_cons_eq_take_iff]
    constructor
    · rintro ⟨-, hlen, hall⟩
      exact ⟨n + 1, rfl, Nat.succ_le_succ hlen,
        fun e he => (hentry e he).mp (hall e he)⟩
    · rintro ⟨cap, hsome, hlen, hall⟩
      obtain rfl := Option.some.inj hsome
      exact ⟨rfl, Nat.le_of_succ_le_succ hlen, fun e he => (hentry e he).mpr (hall e he)⟩

/-- Away from key zero both modes look at the same past. -/
theorem batchPast_eq_filter {excludeCurrentTime hist}
    (hzero : ¬ (excludeCurrentTime = true ∧ key = 0)) (hle : ∀ e ∈ hist, e.1 ≤ key) :
    HistoryWindow.batchPast excludeCurrentTime key row hist =
      hist.filter fun e => decide (e.1 ≤ unionEnd excludeCurrentTime key) := by
  unfold HistoryWindow.batchPast unionEnd
  cases excludeCurrentTime with
  | false => exact (filter_eq_self.mpr fun e he => by simpa using hle e he).symm
  | true =>
    have hpos : key ≠ 0 := fun h => hzero ⟨rfl, h⟩
    rw [if_neg hpos]
    refine filter_congr fun e _ => ?_
    simp only [if_true, decide_eq_decide]
    omega

/-- At key zero both modes cut by size only, and batch mode sees the current row
twice. -/
theorem batch_eq_request_iff_of_zero (hr : range.EndsAtCurrent) (hkeys : ∀ e ∈ history, e.1 = 0) :
    takeIdxWhile (range.keepAt 0) 0 ((0, row) :: (0, row) :: history.reverse) =
        takeIdxWhile (frameKeep range (range.startRow + 1) (clampTs (0 : Nat) range.startOffset)) 0
          ((0, row) :: history.reverse) ↔
      ModesAgree range true history 0 row := by
  have hstart : clampTs (0 : Nat) range.startOffset = 0 :=
    Nat.le_zero.mp (clampTs_le (by decide) range.startOffset_int64 hr.startOffset_nonpos)
  by_cases hwrap : range.frameType = .kFrameRows ∧ ¬ range.startRow + 1 < 2 ^ 64
  · rw [takeIdxWhile_keepAt_eq_nil hwrap.1 hwrap.2]
    have hcurrent := frameKeep_current hr (by decide : 0 < 2 ^ 63) row
    rw [takeIdxWhile_cons_of_pos hcurrent]
    exact ⟨fun h => by simp at h, fun h => absurd (h.limit.rows hwrap.1) hwrap.2⟩
  · have hlt : range.frameType = .kFrameRows → range.startRow + 1 < 2 ^ 64 :=
      fun hf => Decidable.of_not_not fun h => hwrap ⟨hf, h⟩
    have hrev : ∀ e ∈ history.reverse, e.1 = 0 := fun e he => hkeys e (mem_reverse.mp he)
    unfold WindowRange.keepAt
    rw [takeIdxWhile_frameKeep_eq_capTake (fun hf => rowsLimit_eq_of_lt (hlt hf))
        (fun e _ => by rw [hstart]; exact Nat.zero_le _),
      takeIdxWhile_frameKeep_eq_capTake (fun _ => rfl)
        (fun e _ => by rw [hstart]; exact Nat.zero_le _),
      capTake_cons_cons_iff hrev, length_reverse]
    refine ⟨fun h => ⟨⟨hlt, fun _ _ => Or.inl fun e _ => ?_⟩, fun _ _ => h⟩, fun h => h.zero rfl rfl⟩
    exact (clampTs_le_iff hr (by decide) e).mp (by rw [hstart]; exact Nat.zero_le _)

/-- Batch mode, after any run, and request mode hold the same window for the
current row exactly under `ModesAgree`. -/
theorem batch_eq_request_iff (hr : range.EndsAtCurrent) (excludeCurrentTime : Bool)
    (hasc : (history ++ [(key, row)]).Pairwise fun x y => x.1 ≤ y.1) (hk : key < 2 ^ 63) :
    ((HistoryWindow.new range excludeCurrentTime false).bufferAll
          (history ++ [(key, row)])).table =
        requestUnionWindow row [some history.reverse] key range true excludeCurrentTime ↔
      ModesAgree range excludeCurrentTime history key row := by
  obtain ⟨hsorted, -, hle⟩ := pairwise_append.mp hasc
  have hle : ∀ e ∈ history.reverse, e.1 ≤ key :=
    fun e he => hle e (mem_reverse.mp he) _ mem_cons_self
  have hdesc : history.reverse.Pairwise KeyDesc := pairwise_reverse.mpr hsorted
  have hiters : mergeUnionSegments (unionIters excludeCurrentTime key [some history.reverse]) =
      history.reverse.filter fun e => decide (e.1 ≤ unionEnd excludeCurrentTime key) := by
    unfold unionIters
    rw [map_singleton, getD_some, seek_eq_filter hdesc,
      mergeUnionSegments_singleton (hdesc.sublist filter_sublist)]
  rw [HistoryWindow.bufferAll_table hr false history hasc hk,
    requestUnionWindow_eq hr excludeCurrentTime hk row (by simpa using hdesc), hiters]
  by_cases hzero : excludeCurrentTime = true ∧ key = 0
  · obtain ⟨rfl, rfl⟩ := hzero
    have hkeys : ∀ e ∈ history, e.1 = 0 :=
      fun e he => Nat.le_zero.mp (hle e (mem_reverse.mpr he))
    rw [filter_eq_self.mpr fun e he => by simpa [unionEnd] using hle e he]
    exact batch_eq_request_iff_of_zero hr hkeys
  · rw [batchPast_eq_filter hzero hle,
      keepAt_eq_frameKeep_iff hr hk (hdesc.sublist filter_sublist)]
    exact ⟨fun h => ⟨h, fun he hk0 => absurd ⟨he, hk0⟩ hzero⟩, fun h => h.limit⟩

end OneSegment

theorem isInt64_oneSecondBack : IsInt64 (-1000) := by decide

theorem isInt64_oneSecond : IsInt64 1000 := by decide

/-- A time range of one second before the current row. -/
def lastSecond : WindowRange where
  frameType := .kFrameRowsRange
  startOffset := -1000
  endOffset := 0
  startRow := 0
  maxSize := 0
  startOffset_int64 := isInt64_oneSecondBack
  endOffset_int64 := isInt64_zero
  startRow_uint64 := isUInt64_zero

theorem lastSecond_endsAtCurrent : lastSecond.EndsAtCurrent := ⟨rfl, by decide⟩

/-- Two rows before the current one, the second at the current time. -/
theorem batch_eq_request_lastSecond :
    ((HistoryWindow.new lastSecond true false).bufferAll
        ([(1, 10), (1500, 11)] ++ [(1500, 12)])).table =
      requestUnionWindow 12 [some [(1, 10), (1500, 11)].reverse] (1500 : Nat) lastSecond true true :=
  (batch_eq_request_iff lastSecond_endsAtCurrent true (by simp) (by decide)).mpr
    ⟨⟨(fun h => by cases h), (fun h => by cases h)⟩, (fun _ h => by cases h)⟩

/-- The first row of a window that excludes the current time, at timestamp zero:
batch mode sees it twice, request mode once. -/
theorem batch_ne_request_at_zero :
    ((HistoryWindow.new lastSecond true false).bufferAll ([] ++ [(0, 7)])).table =
        [(0, 7), (0, 7)] ∧
      requestUnionWindow 7 [some [].reverse] (0 : Nat) lastSecond true true = [(0, 7)] := by
  decide

end HybridSE.Vm
