import HybridSE.Vm.FrameSeen

/-!
# HybridSE.Vm.FrameMerge

What merging two frames does to the rows that their aggregates see.

Merging two user frames gives a rows frame, a rows-range frame or a merged frame
(`mergeFrameNode_*`). Comparing what an aggregate sees under it with what it sees
under its own frame gives `merge_keeps_windows_iff`: rows get lost when `MAXSIZE`
is too small for the rows frame, when rows-range frames of one `MAXSIZE` end at
different times, when an unbounded rows frame is cut out of another window, and when
a missing bound of a rows-range frame gets another meaning in the merged frame.
-/

namespace HybridSE.Vm

open HybridSE.Lib HybridSE.Node List

variable {Row : Type*}

/-! ### The merged frame -/

theorem historyOffset_mono {a b} (h : a ≤ b) :
    FrameNode.historyOffset a ≤ FrameNode.historyOffset b := by
  unfold FrameNode.historyOffset
  split <;> split <;> omega

namespace SqlExtent

/-- The merged extent. -/
def merge (e1 e2 : SqlExtent) : SqlExtent where
  toFrameExtent := e1.toFrameExtent.merge e2.toFrameExtent
  start_sql := by
    unfold FrameExtent.merge
    dsimp only
    split
    · exact e1.start_sql
    · exact e2.start_sql
  stop_sql := by
    unfold FrameExtent.merge
    dsimp only
    split
    · exact e1.stop_sql
    · exact e2.stop_sql

/-- A missing start is `INT64_MIN`, the least of all offsets. -/
theorem historyBound_mono {b1 b2 : Option FrameBound} (h : position b1 ≤ position b2) :
    FrameNode.historyBound int64Min b1 ≤ FrameNode.historyBound int64Min b2 := by
  cases b1 with
  | none => exact (isInt64_historyBound (by decide) b2).1
  | some b1 =>
    cases b2 with
    | none => simp [position] at h
    | some b2 => exact historyOffset_mono (WithBot.coe_le_coe.mp h)

theorem merge_start_le (e1 e2 : SqlExtent) :
    (e1.merge e2).startOffset ≤ e1.startOffset ∧ (e1.merge e2).startOffset ≤ e2.startOffset := by
  have hstart : position (e1.merge e2).start = min (position e1.start) (position e2.start) :=
    FrameExtent.position_merge_start _ _
  exact ⟨historyBound_mono (hstart ▸ min_le_left _ _),
    historyBound_mono (hstart ▸ min_le_right _ _)⟩

end SqlExtent

namespace RowsExtent

/-- The merged extent of two rows frames. -/
def merge (e1 e2 : RowsExtent) : RowsExtent where
  toSqlExtent := e1.toSqlExtent.merge e2.toSqlExtent
  start_isSome := by
    unfold SqlExtent.merge FrameExtent.merge
    dsimp only
    split
    · exact e1.start_isSome
    · exact e2.start_isSome
  stop_isSome := by
    unfold SqlExtent.merge FrameExtent.merge
    dsimp only
    split
    · exact e1.stop_isSome
    · exact e2.stop_isSome

theorem rowsBack_mono {e em : RowsExtent} (h : em.startOffset ≤ e.startOffset) :
    e.rowsBack ≤ em.rowsBack := by
  unfold rowsBack
  omega

end RowsExtent

theorem mergeFrameNode_rowsRange (e1 e2 : SqlExtent) (maxsize : Nat) (hmax : maxsize < 2 ^ 63) :
    mergeFrameNode (UserFrame.rowsRange e1 maxsize hmax).node
        (UserFrame.rowsRange e2 maxsize hmax).node =
      (UserFrame.rowsRange (e1.merge e2) maxsize hmax).node := by
  unfold mergeFrameNode UserFrame.node
  simp only [ite_self]
  rfl

theorem mergeFrameNode_rowsRange_rows (e : RowsExtent) (r : SqlExtent) (maxsize : Nat)
    (hmax : maxsize < 2 ^ 63) :
    mergeFrameNode (UserFrame.rowsRange r maxsize hmax).node (UserFrame.rows e).node =
      mergedNode r e maxsize hmax := by
  unfold mergeFrameNode UserFrame.node mergedNode
  simp only [FrameNode.mk.injEq]
  refine ⟨rfl, rfl, rfl, ?_⟩
  split <;> omega

/-! ### When a merge keeps the windows -/

/-- A rows frame keeps its rows under a size bound: nothing that it wants is cut
off, and the inner rows list does not take an unbounded start for the current
row. -/
def RowsExtent.KeepsRows (e : RowsExtent) (maxsize : Nat) : Prop :=
  if e.endsBefore then maxsize = 0 ∨ e.innerStop < maxsize ∨ e.innerStop < e.innerStart
  else e.startOffset ≠ int64Min ∧ (maxsize = 0 ∨ e.rowsBack < maxsize)

instance (e : RowsExtent) (maxsize : Nat) : Decidable (e.KeepsRows maxsize) :=
  inferInstanceAs (Decidable (if e.endsBefore then _ else _))

/-- A rows-range frame keeps its rows under the merged frame with a rows frame: its start is
there, or the rows part already has all rows that the size bound leaves. -/
def SqlExtent.KeepsStart (r : SqlExtent) (e : RowsExtent) (maxsize : Nat) : Prop :=
  r.start ≠ none ∨ maxsize ≠ 0 ∧ maxsize ≤ e.rowsBack + 1

/-- A rows-range frame keeps its rows under a longer frame of the same size
bound: that frame does not end earlier, as it does if the end of this one is missing, and
there is no size, or the frames end at the same time, or the frame is empty wherever they do
not. -/
def SqlExtent.KeepsRange (e em : SqlExtent) (maxsize : Nat) : Prop :=
  e.stopOffset ≤ em.stopOffset ∧
    (maxsize = 0 ∨ e.stopOffset = em.stopOffset ∨ em.stopOffset ≤ e.startOffset)

/-- The merges that lose no row. -/
def LosslessMerge : UserFrame → UserFrame → Prop
  | .rows e1, .rows e2 =>
    (ReadsWhole e1 (e1.merge e2) ∨ e1.KeepsRows 0) ∧
      (ReadsWhole e2 (e1.merge e2) ∨ e2.KeepsRows 0)
  | .rows e, .rowsRange r maxsize _ => e.KeepsRows maxsize ∧ r.KeepsStart e maxsize
  | .rowsRange r maxsize _, .rows e => r.KeepsStart e maxsize ∧ e.KeepsRows maxsize
  | .rowsRange e1 maxsize _, .rowsRange e2 _ _ =>
    e1.KeepsRange (e1.merge e2) maxsize ∧ e2.KeepsRange (e1.merge e2) maxsize

/-- The rows that an aggregate sees under `primary` are those that it sees under
its own frame. -/
def KeepsWindow (Row : Type*) (f : UserFrame) (primary : FrameNode) : Prop :=
  ∀ (history : List (Entry Row)) (key : Nat) (row : Row),
    (history ++ [(key, row)]).Pairwise (fun x y => x.1 ≤ y.1) → key < 2 ^ 63 →
      ∃ rows, seenWindow f.node primary history key row = some rows ∧
        seenWindow f.node f.node history key row = some rows

/-- If both windows are there, they are equal. -/
theorem exists_some_iff {α : Type*} {x y : Option α} {a b : α} (hx : x = some a)
    (hy : y = some b) : (∃ c, x = some c ∧ y = some c) ↔ a = b := by
  subst hx hy
  simp [eq_comm]

theorem sizeTake_zero (rows : List (Entry Row)) : sizeTake 0 rows = rows := if_pos rfl

theorem sizeTake_of_pos {maxsize} (h : maxsize ≠ 0) (rows : List (Entry Row)) :
    sizeTake maxsize rows = rows.take maxsize := if_neg h

theorem RowsExtent.innerStart_eq_zero {e : RowsExtent} (h : e.endsBefore = false) :
    e.innerStart = 0 := by
  have := of_decide_eq_false h
  unfold innerStart
  omega

/-- What a rows frame sees under itself. -/
def aloneRows (e : RowsExtent) (rows : List (Entry Row)) : List (Entry Row) :=
  if e.endsBefore then (rows.take (e.innerStop + 1)).drop e.innerStart
  else rows.take (e.rowsBack + 1)

/-- The inner rows list under a size bound is the whole frame if the frame keeps
its rows. -/
theorem RowsExtent.KeepsRows.innerRows_eq {e : RowsExtent} {maxsize} (h : e.KeepsRows maxsize)
    (rows : List (Entry Row)) :
    ((sizeTake maxsize rows).take (e.innerStop + 1)).drop e.innerStart = aloneRows e rows := by
  have hsize : maxsize = 0 ∨ e.innerStop < maxsize →
      (sizeTake maxsize rows).take (e.innerStop + 1) = rows.take (e.innerStop + 1) := by
    intro hsize
    rcases Nat.eq_zero_or_pos maxsize with rfl | hpos
    · rw [sizeTake_zero]
    · rw [sizeTake_of_pos hpos.ne', take_take, Nat.min_eq_left (by omega)]
  unfold KeepsRows at h
  unfold aloneRows
  cases hends : e.endsBefore with
  | true =>
    rw [hends, if_pos rfl] at h
    rw [if_pos rfl]
    by_cases hempty : e.innerStop < e.innerStart
    · rw [drop_eq_nil_iff.mpr (by rw [length_take]; omega),
        drop_eq_nil_iff.mpr (by rw [length_take]; omega)]
    · rw [hsize (by omega)]
  | false =>
    rw [hends] at h
    rw [e.innerStart_eq_zero hends]
    rw [RowsExtent.innerStop_eq h.1] at hsize ⊢
    exact hsize h.2

/-- Otherwise a long enough history of one key shows the difference. -/
theorem RowsExtent.keepsRows_of_innerRows_eq {e : RowsExtent} {maxsize : Nat} {row : Row}
    (h : ∀ n, ((sizeTake maxsize (List.replicate (n + 1) (0, row))).take (e.innerStop + 1)).drop
      e.innerStart = aloneRows e (List.replicate (n + 1) (0, row))) : e.KeepsRows maxsize := by
  have hlen : ∀ n, min (e.innerStop + 1) (if maxsize = 0 then n + 1 else min maxsize (n + 1)) -
      e.innerStart = (aloneRows e (List.replicate (n + 1) ((0, row) : Entry Row))).length := by
    intro n
    rw [← h n, length_drop, length_take]
    unfold sizeTake
    split
    · rw [length_replicate]
    · rw [length_take, length_replicate]
  unfold aloneRows at hlen
  unfold KeepsRows
  cases hends : e.endsBefore with
  | true =>
    rw [hends] at hlen
    simp only [if_true, length_drop, length_take, length_replicate] at hlen ⊢
    have := hlen e.innerStop
    split at this <;> omega
  | false =>
    rw [hends] at hlen
    simp only [Bool.false_eq_true, if_false, length_take, length_replicate] at hlen ⊢
    have hbound : e.startOffset ≠ int64Min := by
      intro hmin
      have hback : e.rowsBack = 2 ^ 63 := by
        unfold rowsBack
        rw [hmin]
        rfl
      have hstop : e.innerStop = 0 := if_pos hmin
      have := hlen 1
      split at this <;> omega
    have := hlen e.rowsBack
    split at this <;> omega

theorem aloneRows_eq (e : RowsExtent) {history : List (Entry Row)} {key row}
    (hasc : (history ++ [(key, row)]).Pairwise fun x y => x.1 ≤ y.1) (hk : key < 2 ^ 63) :
    seenWindow (UserFrame.rows e).node (UserFrame.rows e).node history key row =
      some (aloneRows e (newestFirst history key row)) := by
  rw [seenWindow_rows hasc hk (Nat.le_refl e.rowsBack)]
  unfold aloneRows
  by_cases hends : e.endsBefore = true
  · have hcut : ¬ ReadsWhole e e := fun h => Bool.false_ne_true (h.2.symm.trans hends)
    rw [if_neg hcut, if_pos hends]
  · have hwhole : ReadsWhole e e := ⟨rfl, Bool.eq_false_iff.mpr hends⟩
    rw [if_pos hwhole, if_neg hends]

/-- A history of one key. -/
theorem newestFirst_replicate (n : Nat) (row : Row) :
    newestFirst (List.replicate n (0, row)) 0 row = List.replicate (n + 1) (0, row) := by
  unfold newestFirst
  rw [reverse_replicate, replicate_succ]

theorem pairwise_replicate_concat (n : Nat) (row : Row) :
    (List.replicate n (0, row) ++ [(0, row)]).Pairwise fun (x y : Entry Row) => x.1 ≤ y.1 := by
  simp [← replicate_succ', pairwise_replicate]

/-- Rows of key zero and a current row of key one. -/
theorem pairwise_replicate_one (n : Nat) (row : Row) :
    (List.replicate n (0, row) ++ [(1, row)]).Pairwise fun (x y : Entry Row) => x.1 ≤ y.1 := by
  rw [pairwise_append, pairwise_replicate]
  refine ⟨Or.inr (Nat.le_refl _), pairwise_singleton _ _, fun x hx y hy => ?_⟩
  rw [eq_of_mem_replicate hx]
  exact Nat.zero_le _

/-- What a rows-range frame that ends at the current row sees under itself. -/
theorem seenWindow_rowsRange_self {r : SqlExtent} (hstop : r.stopOffset = 0) (maxsize : Nat)
    (hmax : maxsize < 2 ^ 63) {history : List (Entry Row)} {key row}
    (hasc : (history ++ [(key, row)]).Pairwise fun x y => x.1 ≤ y.1) (hk : key < 2 ^ 63) :
    seenWindow (UserFrame.rowsRange r maxsize hmax).node (UserFrame.rowsRange r maxsize hmax).node
        history key row =
      some ((sizeTake maxsize (newestFirst history key row)).filter fun x =>
        decide (clampTs key r.startOffset ≤ x.1) && decide (x.1 ≤ clampTs key r.stopOffset)) := by
  have hall : (newestFirst history key row).filter
      (fun x => decide (x.1 ≤ clampTs key r.stopOffset)) = newestFirst history key row := by
    refine filter_eq_self.mpr fun x hx => ?_
    rw [hstop, clampTs_eq hk (by decide) (Int.le_refl 0)]
    simpa using le_of_mem_newestFirst hasc hx
  rw [seenWindow_rowsRange hasc hk (Int.le_refl r.startOffset), hall]

/-- A rows-range frame loses nothing under a merged frame if its start is there, or if the
rows part has all rows. -/
theorem keepsWindow_rowsRange_mergedNode {r : SqlExtent} (hstop : r.stopOffset = 0)
    (e : RowsExtent) (maxsize : Nat) (hmax : maxsize < 2 ^ 63) (h : r.KeepsStart e maxsize) :
    KeepsWindow Row (.rowsRange r maxsize hmax) (mergedNode r e maxsize hmax) := by
  intro history key row hasc hk
  refine (exists_some_iff (seenWindow_rowsRange_mergedNode hasc hk hstop e maxsize hmax)
    (seenWindow_rowsRange_self hstop maxsize hmax hasc hk)).mpr ?_
  rcases h with hstart | ⟨hpos, hle⟩
  · rw [SqlExtent.mergedStart_eq hstart]
    refine filter_takeIdxWhile (r := KeyDesc) ?_ ?_
      ((newestFirst_sorted hasc).sublist (sizeTake_sublist maxsize _))
    · intro i j x y hij hxy hy
      unfold KeyDesc at hxy
      simp only [Bool.or_eq_true, decide_eq_true_eq] at hy ⊢
      omega
    · intro j x hx
      exact Bool.or_eq_true_iff.mpr (Or.inr (Bool.and_eq_true_iff.mp hx).1)
  · rw [takeIdxWhile_eq_self]
    intro j x hj _
    rw [sizeTake_of_pos hpos, length_take] at hj
    simp only [Bool.or_eq_true, decide_eq_true_eq]
    omega

/-- Otherwise the row before the rows part is lost. -/
theorem keepsStart_of_keepsWindow [Inhabited Row] {r : SqlExtent} (hstop : r.stopOffset = 0)
    {e : RowsExtent} {maxsize} {hmax : maxsize < 2 ^ 63}
    (h : KeepsWindow Row (.rowsRange r maxsize hmax) (mergedNode r e maxsize hmax)) :
    r.KeepsStart e maxsize := by
  by_contra hloss
  unfold SqlExtent.KeepsStart at hloss
  obtain ⟨hnone, hsize⟩ := not_or.mp hloss
  rw [not_not] at hnone
  -- one row of key zero more than the rows part reaches back to, and the current row of key one
  have hasc := @pairwise_replicate_one Row (e.rowsBack + 1) default
  have hseen := (exists_some_iff
    (seenWindow_rowsRange_mergedNode hasc (by decide) hstop e maxsize hmax)
    (seenWindow_rowsRange_self hstop maxsize hmax hasc (by decide))).mp
      (h _ 1 default hasc (by decide))
  have hall : sizeTake maxsize (newestFirst (List.replicate (e.rowsBack + 1) (0, default)) 1
      (default : Row)) = (1, default) :: List.replicate (e.rowsBack + 1) (0, default) := by
    unfold sizeTake newestFirst
    rw [reverse_replicate]
    split
    · rfl
    · exact take_of_length_le (by rw [length_cons, length_replicate]; omega)
  have hstart : clampTs (1 : Nat) r.startOffset = 0 ∧ clampTs (1 : Nat) r.mergedStart = 1 := by
    unfold SqlExtent.startOffset SqlExtent.mergedStart
    rw [hnone]
    decide
  rw [hall, hstart.1, hstart.2, hstop] at hseen
  have hkept : ∀ rows : List (Entry Row),
      (∀ x ∈ rows, x ∈ (1, default) :: List.replicate (e.rowsBack + 1) (0, default)) →
      (rows.filter fun x => decide (0 ≤ x.1) && decide (x.1 ≤ clampTs (1 : Nat) 0)) = rows := by
    intro rows hmem
    refine filter_eq_self.mpr fun x hx => ?_
    rcases mem_cons.mp (hmem x hx) with rfl | hx
    · rfl
    · rw [eq_of_mem_replicate hx]
      rfl
  have hlast : takeWhile (fun x : Entry Row => decide (1 ≤ x.1))
      (drop (e.rowsBack + 1) ((1, default) :: List.replicate (e.rowsBack + 1) (0, default))) =
      [] := by
    rw [drop_succ_cons, drop_replicate]
    simp
  rw [hkept _ (takeIdxWhile_isPrefix _ _ _).subset, hkept _ fun _ hx => hx, takeIdxWhile_lt_or,
    Nat.sub_zero, hlast, append_nil] at hseen
  have hlen := congrArg length hseen
  rw [length_take, length_cons, length_replicate] at hlen
  omega

/-- A rows-range frame under a rows-range frame that starts no later. -/
theorem keepsWindow_rowsRange {e em : SqlExtent} (hstart : em.startOffset ≤ e.startOffset)
    {maxsize hmax} (h : e.KeepsRange em maxsize) :
    KeepsWindow Row (.rowsRange e maxsize hmax) (UserFrame.rowsRange em maxsize hmax).node := by
  intro history key row hasc hk
  obtain ⟨hstop, h⟩ := h
  refine (exists_some_iff (seenWindow_rowsRange hasc hk hstart maxsize hmax)
    (seenWindow_rowsRange hasc hk (Int.le_refl _) maxsize hmax)).mpr ?_
  have hle : clampTs key e.stopOffset ≤ clampTs key em.stopOffset :=
    clampTs_mono_offset hk e.int64_stopOffset hstop em.stopOffset_nonpos
  rcases h with rfl | h
  · rw [sizeTake_zero, sizeTake_zero, List.filter_filter, List.filter_filter]
    refine filter_congr fun x _ => ?_
    rw [Bool.eq_iff_iff]
    simp only [Bool.and_eq_true, decide_eq_true_eq]
    omega
  · rcases Nat.lt_or_ge (clampTs key e.stopOffset) (clampTs key e.startOffset) with hempty | hne
    · -- the frame is empty at this key
      have hnone : ∀ rows : List (Entry Row), (rows.filter fun x =>
          decide (clampTs key e.startOffset ≤ x.1) &&
            decide (x.1 ≤ clampTs key e.stopOffset)) = [] := fun rows =>
        filter_eq_nil_iff.mpr fun x _ => by
          simp only [Bool.and_eq_true, decide_eq_true_eq]
          omega
      rw [hnone, hnone]
    · have hsame : clampTs key e.stopOffset = clampTs key em.stopOffset := by
        rcases h with h | h
        · rw [h]
        · have := clampTs_mono_offset hk em.int64_stopOffset h e.startOffset_nonpos
          omega
      rw [hsame]

/-- A row of key zero, `n` rows of key `late` and the current row. -/
def crowdedHistory (n late : Nat) (row : Row) : List (Entry Row) :=
  (0, row) :: List.replicate n (late, row)

theorem crowdedHistory_asc {n late key} (h : late ≤ key) (row : Row) :
    (crowdedHistory n late row ++ [(key, row)]).Pairwise fun x y => x.1 ≤ y.1 := by
  unfold crowdedHistory
  rw [cons_append, pairwise_cons, pairwise_append, pairwise_replicate]
  refine ⟨fun _ _ => Nat.zero_le _, Or.inr (Nat.le_refl _), pairwise_singleton _ _, ?_⟩
  intro x hx y hy
  rw [eq_of_mem_replicate hx, mem_singleton.mp hy]
  exact h

theorem newestFirst_crowdedHistory (n late key : Nat) (row : Row) :
    newestFirst (crowdedHistory n late row) key row =
      ((key, row) :: List.replicate n (late, row)) ++ [(0, row)] := by
  simp [newestFirst, crowdedHistory]

theorem crowd_pos {n late key} (hlate : 0 < late) (hkey : late ≤ key) {row} {x : Entry Row}
    (hx : x ∈ (key, row) :: List.replicate n (late, row)) : 0 < x.1 := by
  rcases mem_cons.mp hx with rfl | hx
  · exact Nat.lt_of_lt_of_le hlate hkey
  · rw [eq_of_mem_replicate hx]
    exact hlate

/-- The newest `n` rows up to `late` leave no room for the row of key zero. -/
theorem take_crowdedHistory {n late key} (hlate : 0 < late) (hkey : late ≤ key) (row : Row) :
    (((newestFirst (crowdedHistory n late row) key row).filter
      fun x => decide (x.1 ≤ late)).take n).filter (fun x => decide (x.1 ≤ 0)) = [] := by
  have hroom : n ≤ (((key, row) :: List.replicate n (late, row)).filter
      fun x => decide (x.1 ≤ late)).length := by
    rw [filter_cons]
    split <;> simp
  rw [newestFirst_crowdedHistory, filter_append, take_append_of_le_length hroom,
    filter_eq_nil_iff]
  intro x hx
  simpa using (crowd_pos hlate hkey (mem_filter.mp (mem_of_mem_take hx)).1).ne'

theorem filter_crowdedHistory {n late key} (hlate : 0 < late) (hkey : late ≤ key) (row : Row) :
    (newestFirst (crowdedHistory n late row) key row).filter (fun x => decide (x.1 ≤ 0)) =
      [(0, row)] := by
  have hnone : ((key, row) :: List.replicate n (late, row)).filter
      (fun x => decide (x.1 ≤ 0)) = [] :=
    filter_eq_nil_iff.mpr fun x hx => by simpa using (crowd_pos hlate hkey hx).ne'
  rw [newestFirst_crowdedHistory, filter_append, hnone]
  rfl

section Keeps

variable [Inhabited Row]

/-- A rows frame under the merged rows frame. -/
theorem keepsWindow_rows_iff {e em : RowsExtent} (hstart : em.startOffset ≤ e.startOffset) :
    KeepsWindow Row (.rows e) (UserFrame.rows em).node ↔ ReadsWhole e em ∨ e.KeepsRows 0 := by
  have hback := RowsExtent.rowsBack_mono hstart
  constructor
  · intro h
    by_cases hwhole : ReadsWhole e em
    · exact Or.inl hwhole
    · refine Or.inr (@RowsExtent.keepsRows_of_innerRows_eq Row e 0 default fun n => ?_)
      have hasc := @pairwise_replicate_concat Row n default
      have := (exists_some_iff (seenWindow_rows hasc (by decide) hback)
        (aloneRows_eq e hasc (by decide))).mp (h _ 0 default hasc (by decide))
      rwa [if_neg hwhole, newestFirst_replicate] at this
  · intro h history key row hasc hk
    refine (exists_some_iff (seenWindow_rows hasc hk hback) (aloneRows_eq e hasc hk)).mpr ?_
    by_cases hwhole : ReadsWhole e em
    · obtain ⟨hs, ht⟩ := SqlExtent.offsets_eq_of_getExprString hwhole.1
      have hends : e.endsBefore = false := by
        rw [← hwhole.2, Bool.eq_iff_iff, e.endsBefore_iff, em.endsBefore_iff, ht]
      have hsame : em.rowsBack = e.rowsBack := by
        unfold RowsExtent.rowsBack
        rw [hs]
      simp [aloneRows, hends, hsame, hwhole]
    · have hkeep := (h.resolve_left hwhole).innerRows_eq (newestFirst history key row)
      rw [if_neg hwhole, ← hkeep, sizeTake_zero]

/-- A rows frame under the merged frame of both types. -/
theorem keepsWindow_rows_mergedNode_iff {r : SqlExtent} (hstop : r.stopOffset = 0)
    (e : RowsExtent) (maxsize : Nat) (hmax : maxsize < 2 ^ 63) :
    KeepsWindow Row (.rows e) (mergedNode r e maxsize hmax) ↔ e.KeepsRows maxsize := by
  constructor
  · intro h
    refine @RowsExtent.keepsRows_of_innerRows_eq Row e maxsize default fun n => ?_
    have hasc := @pairwise_replicate_concat Row n default
    have := (exists_some_iff (seenWindow_rows_mergedNode hasc (by decide) hstop e maxsize hmax)
      (aloneRows_eq e hasc (by decide))).mp (h _ 0 default hasc (by decide))
    rwa [newestFirst_replicate] at this
  · intro h history key row hasc hk
    exact (exists_some_iff (seenWindow_rows_mergedNode hasc hk hstop e maxsize hmax)
      (aloneRows_eq e hasc hk)).mpr (h.innerRows_eq _)

theorem keepsWindow_rowsRange_mergedNode_iff {r : SqlExtent} (hstop : r.stopOffset = 0)
    (e : RowsExtent) (maxsize : Nat) (hmax : maxsize < 2 ^ 63) :
    KeepsWindow Row (.rowsRange r maxsize hmax) (mergedNode r e maxsize hmax) ↔
      r.KeepsStart e maxsize :=
  ⟨keepsStart_of_keepsWindow hstop, keepsWindow_rowsRange_mergedNode hstop e maxsize hmax⟩

/-- A frame without an end sees the current row under itself, but not under a frame that ends
earlier. -/
theorem stopOffset_le_of_keepsWindow {e em : SqlExtent} (hstart : em.startOffset ≤ e.startOffset)
    (hnone : em.stopOffset < e.stopOffset → e.stopOffset = 0) {maxsize hmax}
    (h : KeepsWindow Row (.rowsRange e maxsize hmax) (UserFrame.rowsRange em maxsize hmax).node) :
    e.stopOffset ≤ em.stopOffset := by
  by_contra hlate
  rw [Int.not_le] at hlate
  have hstop := hnone hlate
  have hasc : ([] ++ [(1, default)] : List (Entry Row)).Pairwise fun x y => x.1 ≤ y.1 :=
    pairwise_singleton _ _
  have hseen := (exists_some_iff (seenWindow_rowsRange hasc (by decide) hstart maxsize hmax)
    (seenWindow_rowsRange hasc (by decide) (Int.le_refl _) maxsize hmax)).mp
      (h [] 1 default hasc (by decide))
  have hem : clampTs (1 : Nat) em.stopOffset = 0 := by
    rw [clampTs_eq (by decide) em.int64_stopOffset em.stopOffset_nonpos]
    omega
  have he : clampTs (1 : Nat) e.startOffset ≤ 1 ∧ clampTs (1 : Nat) e.stopOffset = 1 := by
    rw [clampTs_eq (by decide) e.int64_startOffset e.startOffset_nonpos, hstop]
    exact ⟨by have := e.startOffset_nonpos; omega, by decide⟩
  have hone : sizeTake maxsize [((1, default) : Entry Row)] = [(1, default)] := by
    unfold sizeTake
    split
    · rfl
    · exact take_of_length_le (by rw [length_singleton]; omega)
  have hnil : sizeTake maxsize ([] : List (Entry Row)) = [] := by simp [sizeTake]
  rw [hem, he.2] at hseen
  simp [newestFirst, hone, hnil] at hseen
  exact absurd he.1 (Nat.not_le.mpr hseen)

/-- Otherwise there is a key at which the frame holds the rows of key zero only,
and the merged frame's newest rows crowd these out. -/
theorem keepsRange_of_keepsWindow {e em : SqlExtent} (hstart : em.startOffset ≤ e.startOffset)
    (hstop : e.stopOffset ≤ em.stopOffset) {maxsize hmax} (hpos : maxsize ≠ 0)
    (h : KeepsWindow Row (.rowsRange e maxsize hmax) (UserFrame.rowsRange em maxsize hmax).node) :
    e.stopOffset = em.stopOffset ∨ em.stopOffset ≤ e.startOffset := by
  by_contra hloss
  have hlo := e.int64Min_lt_stopOffset
  have hs0 := e.startOffset_nonpos
  have ht0 := e.stopOffset_nonpos
  have hm0 := em.stopOffset_nonpos
  unfold int64Min at hlo
  obtain ⟨key, hkey⟩ : ∃ key : Nat, (key : Int) = -max e.startOffset e.stopOffset :=
    ⟨_, Int.toNat_of_nonneg (by omega)⟩
  have hk : key < 2 ^ 63 := by omega
  have hstart0 : clampTs key e.startOffset = 0 := by
    rw [clampTs_eq hk e.int64_startOffset hs0]
    omega
  have hstop0 : clampTs key e.stopOffset = 0 := by
    rw [clampTs_eq hk e.int64_stopOffset ht0]
    omega
  have hlate : 0 < clampTs key em.stopOffset ∧ clampTs key em.stopOffset ≤ key := by
    rw [clampTs_eq hk em.int64_stopOffset hm0]
    omega
  have hasc := @crowdedHistory_asc Row maxsize _ _ hlate.2 default
  have hseen := (exists_some_iff (seenWindow_rowsRange hasc hk hstart maxsize hmax)
    (seenWindow_rowsRange hasc hk (Int.le_refl _) maxsize hmax)).mp (h _ key default hasc hk)
  rw [hstart0, hstop0, sizeTake_of_pos hpos] at hseen
  simp only [Nat.zero_le, decide_true, Bool.true_and] at hseen
  rw [take_crowdedHistory hlate.1 hlate.2, filter_crowdedHistory hlate.1 hlate.2] at hseen
  obtain ⟨n, rfl⟩ := Nat.exists_eq_succ_of_ne_zero hpos
  exact cons_ne_nil _ _ hseen.symm

/-- A merged range ends before one of its parts only if that part has no end. -/
theorem SqlExtent.stopOffset_eq_zero_of_merge (e1 e2 : SqlExtent) :
    ((e1.merge e2).stopOffset < e1.stopOffset → e1.stopOffset = 0) ∧
      ((e1.merge e2).stopOffset < e2.stopOffset → e2.stopOffset = 0) := by
  have hbound : ∀ b1 b2 : Option FrameBound, position b1 ≤ position b2 →
      FrameNode.historyBound 0 b2 < FrameNode.historyBound 0 b1 →
      FrameNode.historyBound 0 b1 = 0 := by
    intro b1 b2 hle hlt
    cases b1 with
    | none => rfl
    | some b1 =>
      cases b2 with
      | none => simp [position] at hle
      | some b2 => exact absurd hlt (Int.not_lt.mpr (historyOffset_mono (WithBot.coe_le_coe.mp hle)))
  have hstop : position (e1.merge e2).stop = max (position e1.stop) (position e2.stop) :=
    FrameExtent.position_merge_stop _ _
  exact ⟨hbound _ _ (hstop ▸ le_max_left _ _), hbound _ _ (hstop ▸ le_max_right _ _)⟩

theorem keepsWindow_rowsRange_iff {e em : SqlExtent} (hstart : em.startOffset ≤ e.startOffset)
    (hnone : em.stopOffset < e.stopOffset → e.stopOffset = 0) (maxsize : Nat)
    (hmax : maxsize < 2 ^ 63) :
    KeepsWindow Row (.rowsRange e maxsize hmax) (UserFrame.rowsRange em maxsize hmax).node ↔
      e.KeepsRange em maxsize := by
  constructor
  · intro h
    have hstop := stopOffset_le_of_keepsWindow hstart hnone h
    exact ⟨hstop, or_iff_not_imp_left.mpr fun hpos =>
      keepsRange_of_keepsWindow hstart hstop hpos h⟩
  · exact keepsWindow_rowsRange hstart

/-- What `CanMergeWith` says about two rows-range frames. -/
theorem maxsize_eq_of_canMergeWith {e1 e2 : SqlExtent} {maxsize1 maxsize2 : Nat}
    {h1 : maxsize1 < 2 ^ 63} {h2 : maxsize2 < 2 ^ 63}
    (h : (UserFrame.rowsRange e1 maxsize1 h1).node.canMergeWith
      (UserFrame.rowsRange e2 maxsize2 h2).node true = some true) : maxsize1 = maxsize2 := by
  by_contra hne
  unfold FrameNode.canMergeWith FrameNode.equals UserFrame.node at h
  simp [FrameNode.isRowsRangeLikeFrame, hne] at h

/-- What `CanMergeWith` says about a rows-range frame and a rows frame. -/
theorem stopOffset_eq_of_canMergeWith {e : RowsExtent} {r : SqlExtent} {maxsize : Nat}
    {hmax : maxsize < 2 ^ 63}
    (h : (UserFrame.rowsRange r maxsize hmax).node.canMergeWith
        (UserFrame.rows e).node true = some true ∨
      (UserFrame.rows e).node.canMergeWith
        (UserFrame.rowsRange r maxsize hmax).node true = some true) : r.stopOffset = 0 := by
  by_contra hne
  have hpure : (UserFrame.rowsRange r maxsize hmax).node.isPureHistoryFrame = some true :=
    congrArg some (decide_eq_true (lt_of_le_of_ne r.stopOffset_nonpos hne))
  have hlike : (UserFrame.rowsRange r maxsize hmax).node.isRowsRangeLikeFrame = true := rfl
  have hnot : (UserFrame.rows e).node.isRowsRangeLikeFrame = false := rfl
  have htype : (UserFrame.rows e).node.frameType = .kFrameRows := rfl
  have hforbids : FrameNode.pureHistoryForbids (UserFrame.rowsRange r maxsize hmax).node
      (UserFrame.rows e).node = some true := by
    unfold FrameNode.pureHistoryForbids
    simp [hlike, hpure, htype]
  have hpass : FrameNode.pureHistoryForbids (UserFrame.rows e).node
      (UserFrame.rowsRange r maxsize hmax).node = some false := by
    unfold FrameNode.pureHistoryForbids
    simp [hnot]
  rcases h with h | h
  · have hdiff : (UserFrame.rowsRange r maxsize hmax).node.equals (UserFrame.rows e).node = false :=
      rfl
    unfold FrameNode.canMergeWith at h
    simp [hdiff, hnot, hforbids] at h
  · have hdiff : (UserFrame.rows e).node.equals (UserFrame.rowsRange r maxsize hmax).node = false :=
      rfl
    unfold FrameNode.canMergeWith at h
    simp [hdiff, hnot, hpass, hforbids] at h

/-- **Window merging.** For frames that `CanMergeWith` accepts, both keep their
windows under the merged frame, for every history, exactly if the merge is
lossless. -/
theorem merge_keeps_windows_iff (f1 f2 : UserFrame)
    (h : f1.node.canMergeWith f2.node true = some true) :
    (KeepsWindow Row f1 (mergeFrameNode f1.node f2.node) ∧
      KeepsWindow Row f2 (mergeFrameNode f1.node f2.node)) ↔ LosslessMerge f1 f2 := by
  cases f1 with
  | rows e1 =>
    cases f2 with
    | rows e2 =>
      obtain ⟨hle1, hle2⟩ := e1.toSqlExtent.merge_start_le e2.toSqlExtent
      exact and_congr (@keepsWindow_rows_iff Row _ e1 (e1.merge e2) hle1)
        (@keepsWindow_rows_iff Row _ e2 (e1.merge e2) hle2)
    | rowsRange r maxsize hmax =>
      have hstop := stopOffset_eq_of_canMergeWith (Or.inr h)
      exact and_congr (keepsWindow_rows_mergedNode_iff hstop e1 maxsize hmax)
        (keepsWindow_rowsRange_mergedNode_iff hstop e1 maxsize hmax)
  | rowsRange e1 maxsize hmax =>
    cases f2 with
    | rows e2 =>
      have hstop := stopOffset_eq_of_canMergeWith (Or.inl h)
      rw [mergeFrameNode_rowsRange_rows]
      exact and_congr (keepsWindow_rowsRange_mergedNode_iff hstop e2 maxsize hmax)
        (keepsWindow_rows_mergedNode_iff hstop e2 maxsize hmax)
    | rowsRange e2 maxsize2 hmax2 =>
      obtain rfl := maxsize_eq_of_canMergeWith h
      obtain ⟨hle1, hle2⟩ := e1.merge_start_le e2
      obtain ⟨hnone1, hnone2⟩ := e1.stopOffset_eq_zero_of_merge e2
      rw [mergeFrameNode_rowsRange]
      exact and_congr (keepsWindow_rowsRange_iff hle1 hnone1 maxsize hmax)
        (keepsWindow_rowsRange_iff hle2 hnone2 maxsize hmax)

end Keeps

/-- `n PRECEDING`. -/
def precedingBound (n : Nat) (h : n < 2 ^ 63) : FrameBound :=
  { boundType := .kPreceding
    offset := n
    offset_int64 := isInt64_natCast h }

/-- The extent from `n PRECEDING` to `CURRENT ROW`. -/
def precedingToCurrent (n : Nat) (h : n < 2 ^ 63) : RowsExtent where
  start := some (precedingBound n h)
  stop := some FrameBound.current
  start_sql := by simp [precedingBound]
  stop_sql := by simp [FrameBound.current]
  start_isSome := rfl
  stop_isSome := rfl

/-- Two rows before the current one. -/
def twoPreceding : UserFrame := .rows (precedingToCurrent 2 (by decide))

/-- The newest rows of the last ten milliseconds. -/
def lastTen (maxsize : Nat) (h : maxsize < 2 ^ 63) : UserFrame :=
  .rowsRange (precedingToCurrent 10 (by decide)).toSqlExtent maxsize h

/-- With `MAXSIZE 3` there is room for the rows frame. -/
theorem merge_keeps_windows_maxsizeThree :
    KeepsWindow Nat twoPreceding
        (mergeFrameNode twoPreceding.node (lastTen 3 (by decide)).node) ∧
      KeepsWindow Nat (lastTen 3 (by decide))
        (mergeFrameNode twoPreceding.node (lastTen 3 (by decide)).node) := by
  have hrows : (precedingToCurrent 2 (by decide)).KeepsRows 3 := by decide
  have hstart : (precedingToCurrent 10 (by decide)).toSqlExtent.start ≠ none := by decide
  exact (merge_keeps_windows_iff twoPreceding (lastTen 3 (by decide)) (by decide)).mpr
    ⟨hrows, .inl hstart⟩

/-- With `MAXSIZE 2` the frames still merge, and the rows frame loses a row. -/
theorem merge_loses_row_maxsizeTwo :
    twoPreceding.node.canMergeWith (lastTen 2 (by decide)).node true = some true ∧
      seenWindow twoPreceding.node twoPreceding.node [(0, 1), (0, 2)] 0 3 =
        some [(0, 3), (0, 2), (0, 1)] ∧
      seenWindow twoPreceding.node
        (mergeFrameNode twoPreceding.node (lastTen 2 (by decide)).node) [(0, 1), (0, 2)] 0 3 =
        some [(0, 3), (0, 2)] := by
  decide

end HybridSE.Vm
