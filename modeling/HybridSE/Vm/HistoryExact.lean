import HybridSE.Vm.UnionExact

/-!
# HybridSE.Vm.HistoryExact

What a `HistoryWindow` with `end_offset_ = 0` holds after each of a sequence of `BufferData`
calls, when it keeps the current time and the instance rows.

`historyFrame` is the frame in its own terms: the current row and the earlier rows that the
frame selects. The window is kept by evicting from the back, so each call sees only what
the earlier calls left. For ranges that start at or before the current row nothing is
evicted that a later frame wants, and only the wrapped row limit `start_row_ + 1` can show.
A range that starts after the current row evicts the current row itself, unless its start
leaves `int64_t`; then the window start is zero and nothing is too old. `CallExact` is
the exact condition for one call after a run in which all calls were right, and
`everyCall_frames_iff` the one for the run.
-/

namespace HybridSE.Vm

open HybridSE.Lib List

variable {Row : Type*}

/-- The frame of the newest of some rows, newest first: that row, and the earlier ones that
the frame selects, at most `max_size` rows in all. -/
def historyFrame (range : WindowRange) : List (Entry Row) → List (Entry Row)
  | [] => []
  | current :: earlier =>
    current :: limitSize range.maxSize 1 (selectRows range current.1 earlier)

/-- The window after a run of `BufferData` calls. -/
def historyAfter (range : WindowRange) (rows : List (Entry Row)) : HistoryWindow Row :=
  (HistoryWindow.new range false false).bufferAll rows

/-- One more call returns true and leaves the frame of its row in the table. -/
def CallFrames (range : WindowRange) (before : List (Entry Row)) (e : Entry Row) : Prop :=
  ((historyAfter range before).bufferData e.1 e.2).1 = true ∧
    ((historyAfter range before).bufferData e.1 e.2).2.table =
      historyFrame range (e :: before.reverse)

/-- A property of every call of a run, given the rows before it. -/
def EveryCall (P : List (Entry Row) → Entry Row → Prop) (rows : List (Entry Row)) : Prop :=
  ∀ before e after, rows = before ++ e :: after → P before e

/-- When one more call leaves the frame in the table. -/
structure CallExact (range : WindowRange) (before : List (Entry Row)) (e : Entry Row) :
    Prop where
  /-- The range starts at or before the current row. -/
  back : range.startOffset ≤ 0 → RowsLimitAgrees range e.1 before.reverse
  /-- The range starts after the current row; a rows frame does not read the start. -/
  aheadRows : 0 < range.startOffset → range.frameType = .kFrameRows →
    range.startRow + 1 < 2 ^ 64
  /-- The current row stays only where the start leaves `int64_t`, and then the previous
  row stays, too. -/
  aheadRange : 0 < range.startOffset → range.frameType = .kFrameRowsRange →
    2 ^ 63 ≤ (e.1 : Int) + range.startOffset ∧ (before = [] ∨ range.maxSize = 1)
  /-- The rows that are kept for their number are kept, and where the start leaves
  `int64_t` one more. -/
  aheadMerge : 0 < range.startOffset → range.frameType = .kFrameRowsMergeRowsRange →
    (range.startRow + 1 < 2 ^ 64 ∨ 2 ^ 63 ≤ (e.1 : Int) + range.startOffset) ∧
      (2 ^ 63 ≤ (e.1 : Int) + range.startOffset →
        before.length ≤ range.startRow ∨
          range.maxSize ≠ 0 ∧ range.maxSize ≤ range.startRow + 1)

/-! ### Runs call by call -/

theorem everyCall_nil (P : List (Entry Row) → Entry Row → Prop) : EveryCall P [] := by
  intro before e after h
  simp at h

theorem everyCall_concat {P : List (Entry Row) → Entry Row → Prop} {rows : List (Entry Row)}
    {e : Entry Row} : EveryCall P (rows ++ [e]) ↔ EveryCall P rows ∧ P rows e := by
  constructor
  · intro h
    refine ⟨fun before x after hrows => h before x (after ++ [e]) ?_, h rows e [] rfl⟩
    simp [hrows]
  · rintro ⟨hrows, he⟩ before x after h
    rcases eq_nil_or_concat after with rfl | ⟨after, y, rfl⟩
    · obtain ⟨rfl, hx⟩ := append_inj' h rfl
      rwa [← singleton_inj.mp hx]
    · rw [concat_eq_append, ← cons_append, ← append_assoc] at h
      exact hrows before x after (append_inj' h rfl).1

section

variable {range : WindowRange} {rows before : List (Entry Row)} {e : Entry Row}

/-- After a run in which every call was right the table holds the frame of the last row. -/
theorem table_of_everyCall (h : EveryCall (CallFrames range) rows) :
    (historyAfter range rows).table = historyFrame range rows.reverse := by
  rcases eq_nil_or_concat rows with rfl | ⟨rows, e, rfl⟩
  · rfl
  · rw [concat_eq_append] at h ⊢
    have htable := (everyCall_concat.mp h).2.2
    rw [reverse_append, reverse_singleton, singleton_append, ← htable]
    simp [historyAfter, HistoryWindow.bufferAll]

/-- A call cuts its row and what the earlier calls left by the frame test. -/
theorem bufferData_historyAfter (h0 : range.endOffset = 0)
    (hdesc : (e :: (historyAfter range before).table).Pairwise KeyDesc) :
    ((historyAfter range before).bufferData e.1 e.2).1 = true ∧
      ((historyAfter range before).bufferData e.1 e.2).2.table =
        takeIdxWhile (range.keepAt e.1) 0 (e :: (historyAfter range before).table) := by
  obtain ⟨hrange, hexclude⟩ := HistoryWindow.sameSettings_bufferAll
    (HistoryWindow.new range false false : HistoryWindow Row) before
  have hrange : (historyAfter range before).windowRange = range := hrange
  have hexclude : (historyAfter range before).excludeCurrentTime = false := hexclude
  have hle := (pairwise_cons.mp hdesc).1
  rw [HistoryWindow.bufferData_eq (by rw [hrange, h0]) e.2 hle]
  refine ⟨rfl, ?_⟩
  dsimp only [HistoryWindow.bufferCurrentTimeBuffer]
  rw [hexclude, if_pos (by simp), HistoryWindow.bufferEffectiveWindow_table _ _ hdesc, hrange]
  rfl

theorem historyAfter_concat (range : WindowRange) (rows : List (Entry Row)) (e : Entry Row) :
    historyAfter range (rows ++ [e]) = ((historyAfter range rows).bufferData e.1 e.2).2 := by
  simp [historyAfter, HistoryWindow.bufferAll]

/-- The rows in the table are the newest ones. -/
theorem historyAfter_isPrefix (h0 : range.endOffset = 0)
    (hasc : rows.Pairwise fun x y => x.1 ≤ y.1) :
    (historyAfter range rows).table <+: rows.reverse := by
  induction rows using List.reverseRecOn with
  | nil => exact nil_prefix
  | append_singleton rows e ih =>
    have hdesc := pairwise_reverse.mpr hasc
    rw [reverse_append] at hdesc ⊢
    have hprev := (prefix_cons_inj e).mpr (ih (pairwise_append.mp hasc).1)
    rw [historyAfter_concat, (bufferData_historyAfter h0 (hdesc.sublist hprev.sublist)).2]
    exact (takeIdxWhile_isPrefix _ _ _).trans hprev

/-! ### Ranges that start at or before the current row -/

/-- The frame is the cut by the frame test with the row limit that does not wrap. -/
theorem historyFrame_eq_takeIdxWhile (hr : range.EndsAtCurrent) (hk : e.1 < 2 ^ 63) {earlier}
    (hdesc : earlier.Pairwise KeyDesc) :
    historyFrame range (e :: earlier) =
      takeIdxWhile (frameKeep range (range.startRow + 1) (clampTs e.1 range.startOffset)) 0
        (e :: earlier) := by
  rw [takeIdxWhile_cons_of_pos (frameKeep_current hr hk e.2)]
  refine congrArg (e :: ·) (takeIdxWhile_frameKeep_eq (fun x => ?_) (fun _ => rfl) hdesc).symm
  rw [Bool.eq_iff_iff, decide_eq_true_eq]
  exact clampTs_le_iff hr hk x

theorem callFrames_iff_of_nonpos (hr : range.EndsAtCurrent)
    (hasc : (before ++ [e]).Pairwise fun x y => x.1 ≤ y.1) (hk : e.1 < 2 ^ 63) :
    CallFrames range before e ↔ RowsLimitAgrees range e.1 before.reverse := by
  have hbefore := (pairwise_append.mp hasc).1
  have hdesc := pairwise_reverse.mpr hasc
  rw [reverse_append, reverse_singleton, singleton_append] at hdesc
  have hprev := (prefix_cons_inj e).mpr (historyAfter_isPrefix hr.endOffset_eq hbefore)
  have hcall := bufferData_historyAfter hr.endOffset_eq (hdesc.sublist hprev.sublist)
  have htable : (historyAfter range (before ++ [e])).table =
      takeIdxWhile (range.keepAt e.1) 0 (e :: before.reverse) :=
    HistoryWindow.bufferAll_table hr false before hasc hk
  unfold CallFrames
  rw [and_iff_right hcall.1, ← historyAfter_concat, htable,
    historyFrame_eq_takeIdxWhile hr hk (pairwise_cons.mp hdesc).2]
  exact keepAt_eq_frameKeep_iff hr hk (pairwise_cons.mp hdesc).2

/-! ### Ranges that start after the current row -/

/-- How many rows the frame of such a range has at most. -/
def WindowRange.aheadCap (range : WindowRange) : Nat :=
  match range.frameType with
  | .kFrameRowsRange => 1
  | _ => if range.maxSize = 0 then range.startRow + 1 else min range.maxSize (range.startRow + 1)

theorem WindowRange.aheadCap_pos (range : WindowRange) : 0 < range.aheadCap := by
  unfold WindowRange.aheadCap
  split
  · exact Nat.one_pos
  · split <;> omega

/-- No earlier row is in the time range, so only its number puts a row into the frame. -/
theorem historyFrame_eq_take (hahead : 0 < range.startOffset) {xs : List (Entry Row)}
    (hdesc : xs.Pairwise KeyDesc) : historyFrame range xs = xs.take range.aheadCap := by
  cases xs with
  | nil => simp [historyFrame]
  | cons e earlier =>
    have hnone : ∀ ys ⊆ earlier, ys.filter (inTimeRange range e.1) = [] := by
      intro ys hys
      refine filter_eq_nil_iff.mpr fun x hx => ?_
      have hle : x.1 ≤ e.1 := (pairwise_cons.mp hdesc).1 x (hys hx)
      simp only [inTimeRange, decide_eq_true_eq]
      omega
    obtain ⟨n, hn⟩ := Nat.exists_eq_succ_of_ne_zero range.aheadCap_pos.ne'
    rw [hn]
    refine congrArg (e :: ·) ?_
    unfold WindowRange.aheadCap at hn
    unfold selectRows limitSize
    cases hf : range.frameType with
    | kFrameRows =>
      simp only [hf] at hn ⊢
      split at hn
      case isTrue hmax => rw [if_pos hmax, Nat.succ.inj hn]
      case isFalse hmax =>
        rw [if_neg hmax, take_take]
        congr 1
        omega
    | kFrameRowsRange =>
      simp only [hf] at hn ⊢
      rw [hnone earlier (List.Subset.refl _), take_nil, ite_self, ← Nat.succ.inj hn,
        take_zero]
    | kFrameRowsMergeRowsRange =>
      simp only [hf] at hn ⊢
      rw [hnone _ (drop_subset _ _), append_nil]
      split at hn
      case isTrue hmax => rw [if_pos hmax, Nat.succ.inj hn]
      case isFalse hmax =>
        rw [if_neg hmax, take_take]
        congr 1
        omega

/-- The start of such a range is after the current row. -/
theorem clampTs_of_lt {key : Nat} {offset : Int} (h : 0 < offset) (hlt : key + offset < 2 ^ 63) :
    key < clampTs key offset := by
  unfold clampTs
  rw [toInt64_of_isInt64 ⟨by omega, hlt⟩]
  dsimp only
  split <;> omega

/-- Where the sum leaves `int64_t` it is negative, and the start is zero. -/
theorem clampTs_of_le {key : Nat} {offset : Int} (hk : key < 2 ^ 63) (ho : IsInt64 offset)
    (hle : 2 ^ 63 ≤ key + offset) : clampTs key offset = 0 := by
  obtain ⟨-, hhi⟩ := ho
  unfold clampTs toInt64
  rw [Int.bmod_def]
  dsimp only
  split <;> split <;> omega

/-- A cut by the number of rows alone. -/
theorem takeIdxWhile_frameKeep_of_old {rowsLimit startTs : Nat} {xs : List (Entry Row)}
    (hf : range.frameType ≠ .kFrameRowsRange)
    (hold : range.frameType = .kFrameRowsMergeRowsRange → ∀ x ∈ xs, x.1 < startTs) :
    takeIdxWhile (frameKeep range rowsLimit startTs) 0 xs =
      xs.take (if range.maxSize = 0 then rowsLimit else min range.maxSize rowsLimit) := by
  rw [← Nat.sub_zero (ite _ _ _), ← takeIdxWhile_lt]
  refine takeIdxWhile_congr fun j x hx => ?_
  unfold frameKeep
  cases hframe : range.frameType with
  | kFrameRows => by_cases hmax : range.maxSize = 0 <;> simp [hmax, Bool.decide_and]
  | kFrameRowsRange => exact absurd hframe hf
  | kFrameRowsMergeRowsRange =>
    have hx : ¬ startTs ≤ x.1 := Nat.not_le.mpr (hold hframe x (mem_of_getElem? hx))
    by_cases hmax : range.maxSize = 0 <;> simp [hmax, hx, Bool.decide_and]

/-- A cut with nothing too old is made by `max_size_` alone. -/
theorem takeIdxWhile_frameKeep_zero {rowsLimit} (hf : range.frameType ≠ .kFrameRows)
    (xs : List (Entry Row)) :
    takeIdxWhile (frameKeep range rowsLimit 0) 0 xs = limitSize range.maxSize 0 xs := by
  rw [← takeIdxWhile_limitSize]
  unfold frameKeep
  cases hframe : range.frameType with
  | kFrameRows => exact absurd hframe hf
  | kFrameRowsRange => simp
  | kFrameRowsMergeRowsRange => simp

/-- One more row than the frame has, unless `max_size_` or the history cuts it. -/
theorem limitSize_cons_take_iff {m maxSize} (hm : 0 < m) {earlier} :
    limitSize maxSize 0 (e :: earlier.take m) = (e :: earlier).take m ↔
      (maxSize = 0 ∧ earlier.length < m) ∨
        (maxSize ≠ 0 ∧ min (min (maxSize - 1) m) earlier.length = min (m - 1) earlier.length) := by
  obtain ⟨n, rfl⟩ := Nat.exists_eq_succ_of_ne_zero hm.ne'
  rw [take_succ_cons, limitSize]
  split
  case isTrue hmax =>
    simp only [List.cons.injEq, true_and, take_eq_take_iff]
    omega
  case isFalse hmax =>
    obtain ⟨k, rfl⟩ := Nat.exists_eq_succ_of_ne_zero hmax
    simp only [Nat.succ_eq_add_one, Nat.sub_zero, take_succ_cons, List.cons.injEq,
      take_take, take_eq_take_iff, Nat.add_sub_cancel, ne_eq, Nat.succ_ne_zero,
      not_false_eq_true, false_and, false_or]

section AheadCut

variable {earlier : List (Entry Row)}

/-- The newest rows behind a new one are among the newest rows. -/
theorem take_cons_take (m : Nat) (hm : 0 < m) :
    (e :: earlier.take m).take m = (e :: earlier).take m := by
  obtain ⟨n, rfl⟩ := Nat.exists_eq_succ_of_ne_zero hm.ne'
  rw [take_succ_cons, take_succ_cons, take_take,
    Nat.min_eq_left (Nat.le_succ n)]

/-- A cut by the number of rows alone is the frame unless the row limit wraps. -/
theorem aheadCut_iff_of_old (hf : range.frameType ≠ .kFrameRowsRange)
    (hold : range.frameType = .kFrameRowsMergeRowsRange →
      ∀ x ∈ e :: earlier.take range.aheadCap, x.1 < clampTs e.1 range.startOffset) :
    takeIdxWhile (range.keepAt e.1) 0 (e :: earlier.take range.aheadCap) =
        (e :: earlier).take range.aheadCap ↔ range.startRow + 1 < 2 ^ 64 := by
  unfold WindowRange.keepAt
  rw [takeIdxWhile_frameKeep_of_old hf hold]
  by_cases hwrap : range.startRow + 1 < 2 ^ 64
  · have hcap : (if range.maxSize = 0 then range.rowsLimit
        else min range.maxSize range.rowsLimit) = range.aheadCap := by
      rw [rowsLimit_eq_of_lt hwrap]
      unfold WindowRange.aheadCap
      cases hframe : range.frameType with
      | kFrameRows => rfl
      | kFrameRowsRange => exact absurd hframe hf
      | kFrameRowsMergeRowsRange => rfl
    rw [hcap, take_cons_take _ range.aheadCap_pos]
    exact iff_of_true rfl hwrap
  · -- the wrapped limit is zero, and no row is kept
    rw [(startRow_eq_of_not_lt hwrap).2]
    obtain ⟨n, hn⟩ := Nat.exists_eq_succ_of_ne_zero range.aheadCap_pos.ne'
    rw [hn]
    exact iff_of_false (by simp) hwrap

/-- Nothing is too old: the frame, and one more row. -/
theorem aheadCut_iff_of_zero (hf : range.frameType ≠ .kFrameRows)
    (hstart : clampTs e.1 range.startOffset = 0) :
    takeIdxWhile (range.keepAt e.1) 0 (e :: earlier.take range.aheadCap) =
        (e :: earlier).take range.aheadCap ↔
      (range.maxSize = 0 ∧ earlier.length < range.aheadCap) ∨
        (range.maxSize ≠ 0 ∧ min (min (range.maxSize - 1) range.aheadCap) earlier.length =
          min (range.aheadCap - 1) earlier.length) := by
  unfold WindowRange.keepAt
  rw [hstart, takeIdxWhile_frameKeep_zero hf]
  exact limitSize_cons_take_iff range.aheadCap_pos

/-- A time range that the current row is not in. -/
theorem aheadCut_iff_of_rowsRange (hf : range.frameType = .kFrameRowsRange)
    (hahead : 0 < range.startOffset) (hk : e.1 < 2 ^ 63) :
    takeIdxWhile (range.keepAt e.1) 0 (e :: earlier.take range.aheadCap) =
        (e :: earlier).take range.aheadCap ↔
      2 ^ 63 ≤ (e.1 : Int) + range.startOffset ∧ (earlier = [] ∨ range.maxSize = 1) := by
  have hcap : range.aheadCap = 1 := by simp [WindowRange.aheadCap, hf]
  rcases lt_or_ge ((e.1 : Int) + range.startOffset) (2 ^ 63) with hlt | hge
  · have hnew : range.keepAt e.1 0 e = false := by
      have := clampTs_of_lt hahead hlt
      simp [WindowRange.keepAt, frameKeep, hf, this]
    rw [takeIdxWhile_cons_of_neg hnew, hcap]
    simp only [take_succ_cons, reduceCtorEq, false_iff]
    omega
  · rw [aheadCut_iff_of_zero (by simp [hf]) (clampTs_of_le hk range.startOffset_int64 hge), ← length_eq_zero_iff]
    omega

/-- The rows that a merged frame keeps for their number. -/
theorem aheadCut_iff_of_merge (hf : range.frameType = .kFrameRowsMergeRowsRange)
    (hahead : 0 < range.startOffset) (hk : e.1 < 2 ^ 63)
    (hle : ∀ x ∈ e :: earlier.take range.aheadCap, x.1 ≤ e.1) :
    takeIdxWhile (range.keepAt e.1) 0 (e :: earlier.take range.aheadCap) =
        (e :: earlier).take range.aheadCap ↔
      (range.startRow + 1 < 2 ^ 64 ∨ 2 ^ 63 ≤ (e.1 : Int) + range.startOffset) ∧
        (2 ^ 63 ≤ (e.1 : Int) + range.startOffset →
          earlier.length ≤ range.startRow ∨
            range.maxSize ≠ 0 ∧ range.maxSize ≤ range.startRow + 1) := by
  rcases lt_or_ge ((e.1 : Int) + range.startOffset) (2 ^ 63) with hlt | hge
  · have hstart := clampTs_of_lt hahead hlt
    rw [aheadCut_iff_of_old (by simp [hf]) fun _ x hx => Nat.lt_of_le_of_lt (hle x hx) hstart]
    have hnot := not_le.mpr hlt
    exact ⟨fun h => ⟨.inl h, (absurd · hnot)⟩, fun h => h.1.resolve_right hnot⟩
  · have hcap : range.aheadCap = if range.maxSize = 0 then range.startRow + 1
        else min range.maxSize (range.startRow + 1) := by
      simp [WindowRange.aheadCap, hf]
    rw [aheadCut_iff_of_zero (by simp [hf]) (clampTs_of_le hk range.startOffset_int64 hge), hcap]
    split <;> omega

end AheadCut

/-- One more call of such a range, when the table holds the frame of the row before. -/
theorem callFrames_iff_of_pos (h0 : range.endOffset = 0) (hahead : 0 < range.startOffset)
    (hasc : (before ++ [e]).Pairwise fun x y => x.1 ≤ y.1) (hk : e.1 < 2 ^ 63)
    (htable : (historyAfter range before).table = historyFrame range before.reverse) :
    CallFrames range before e ↔ CallExact range before e := by
  have hdesc := pairwise_reverse.mpr hasc
  rw [reverse_append, reverse_singleton, singleton_append] at hdesc
  rw [historyFrame_eq_take hahead (pairwise_cons.mp hdesc).2] at htable
  have hprev : e :: (historyAfter range before).table <+: e :: before.reverse := by
    rw [htable]
    exact (prefix_cons_inj e).mpr (List.take_prefix _ _)
  have hcall := bufferData_historyAfter h0 (hdesc.sublist hprev.sublist)
  have hle : ∀ x ∈ e :: before.reverse.take range.aheadCap, x.1 ≤ e.1 := by
    intro x hx
    rcases mem_cons.mp hx with rfl | hx
    · exact Nat.le_refl _
    · exact (pairwise_cons.mp hdesc).1 x (mem_of_mem_take hx)
  have hnonpos : ¬ range.startOffset ≤ 0 := by omega
  unfold CallFrames
  rw [and_iff_right hcall.1, hcall.2, htable, historyFrame_eq_take hahead hdesc]
  cases hf : range.frameType with
  | kFrameRows =>
    rw [aheadCut_iff_of_old (by simp [hf]) (by simp [hf])]
    exact ⟨fun h => ⟨(absurd · hnonpos), fun _ _ => h, by simp [hf], by simp [hf]⟩,
      fun h => h.aheadRows hahead hf⟩
  | kFrameRowsRange =>
    rw [aheadCut_iff_of_rowsRange hf hahead hk, reverse_eq_nil_iff]
    exact ⟨fun h => ⟨(absurd · hnonpos), by simp [hf], fun _ _ => h, by simp [hf]⟩,
      fun h => h.aheadRange hahead hf⟩
  | kFrameRowsMergeRowsRange =>
    rw [aheadCut_iff_of_merge hf hahead hk hle, length_reverse]
    exact ⟨fun h => ⟨(absurd · hnonpos), by simp [hf], by simp [hf], fun _ _ => h⟩,
      fun h => h.aheadMerge hahead hf⟩

/-! ### Whole runs -/

/-- One more call after a run in which every call left its frame in the table. -/
theorem callFrames_iff (h0 : range.endOffset = 0)
    (hasc : (before ++ [e]).Pairwise fun x y => x.1 ≤ y.1) (hk : e.1 < 2 ^ 63)
    (hbefore : EveryCall (CallFrames range) before) :
    CallFrames range before e ↔ CallExact range before e := by
  rcases le_or_gt range.startOffset 0 with hback | hahead
  · rw [callFrames_iff_of_nonpos ⟨h0, hback⟩ hasc hk]
    have hnot := not_lt.mpr hback
    exact ⟨fun h => ⟨fun _ => h, (absurd · hnot), (absurd · hnot), (absurd · hnot)⟩,
      fun h => h.back hback⟩
  · exact callFrames_iff_of_pos h0 hahead hasc hk (table_of_everyCall hbefore)

/-- Every call of a run is accepted and leaves exactly the frame of its row in the table, if
and only if the range and the rows before it are as `CallExact` says at every call. -/
theorem everyCall_frames_iff (h0 : range.endOffset = 0)
    (hasc : rows.Pairwise fun x y => x.1 ≤ y.1) (hk : ∀ e ∈ rows, e.1 < 2 ^ 63) :
    EveryCall (CallFrames range) rows ↔ EveryCall (CallExact range) rows := by
  induction rows using List.reverseRecOn with
  | nil => exact iff_of_true (everyCall_nil _) (everyCall_nil _)
  | append_singleton rows e ih =>
    have hrows := ih (pairwise_append.mp hasc).1
      fun x hx => hk x (mem_append_left _ hx)
    rw [everyCall_concat, everyCall_concat, ← hrows]
    exact and_congr_right fun hbefore =>
      callFrames_iff h0 hasc (hk e (mem_append_right _ mem_cons_self)) hbefore

end

/-- The last second and the last two rows, three rows at most. -/
def lastSecondOrTwo : WindowRange where
  frameType := .kFrameRowsMergeRowsRange
  startOffset := -1000
  endOffset := 0
  startRow := 2
  maxSize := 3
  startOffset_int64 := isInt64_oneSecondBack
  endOffset_int64 := isInt64_zero
  startRow_uint64 := isUInt64_two

theorem everyCall_frames_lastSecondOrTwo :
    EveryCall (CallFrames lastSecondOrTwo)
        [(100, 'a'), (1500, 'b'), (1600, 'c'), (1700, 'd'), (9000, 'e')] ∧
      historyFrame lastSecondOrTwo
        [(9000, 'e'), (1700, 'd'), (1600, 'c'), (1500, 'b'), (100, 'a')] =
          [(9000, 'e'), (1700, 'd'), (1600, 'c')] := by
  refine ⟨(everyCall_frames_iff rfl (by decide) (by decide)).mpr fun before e after _ => ?_,
    by decide⟩
  have hback : ¬ 0 < lastSecondOrTwo.startOffset := by decide
  exact ⟨fun _ => ⟨nofun, fun _ h => absurd h (by decide)⟩, (absurd · hback), (absurd · hback),
    (absurd · hback)⟩

/-- All rows, as far as a `uint64_t` can count them. -/
def lastRows : WindowRange where
  frameType := .kFrameRows
  startOffset := 0
  endOffset := 0
  startRow := 2 ^ 64 - 1
  maxSize := 0
  startOffset_int64 := isInt64_zero
  endOffset_int64 := isInt64_zero
  startRow_uint64 := isUInt64_last

/-- From one second after the current row. -/
def nextSecond : WindowRange where
  frameType := .kFrameRowsRange
  startOffset := 1000
  endOffset := 0
  startRow := 0
  maxSize := 0
  startOffset_int64 := isInt64_oneSecond
  endOffset_int64 := isInt64_zero
  startRow_uint64 := isUInt64_zero

/-- Both windows evict the current row itself. -/
theorem historyAfter_loses_current :
    (historyFrame lastRows [(5, 'a')] = [(5, 'a')] ∧ (historyAfter lastRows [(5, 'a')]).table = []) ∧
      (historyFrame nextSecond [(5, 'a')] = [(5, 'a')] ∧
        (historyAfter nextSecond [(5, 'a')]).table = []) := by
  decide

end HybridSE.Vm
