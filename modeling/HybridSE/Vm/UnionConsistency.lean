import HybridSE.Vm.WindowAgg
import HybridSE.Vm.WindowConsistency

/-!
# HybridSE.Vm.UnionConsistency

`WINDOW ... UNION` in the two modes. Batch mode pushes union rows and instance
rows, oldest first, into one `HistoryWindow`; request mode reads the segments
back from the request row. Both merge stably, and the orders of preference among
equal keys mirror each other, so the rows before the current key are the same
list (`request_past_eq`). They differ in the union rows *at* the current key:
batch mode pushes union rows with a strictly smaller key only, request mode
reads them unless the current time is excluded.
-/

namespace HybridSE.Vm

open HybridSE.Lib List

variable {Row : Type*}

/-- The union segments of request mode: the earlier instance rows, unless they
are not to enter the window, and the union tables, all newest first. -/
def requestSegments (instanceNotInWindow : Bool) (before : List (Entry Row))
    (unionSegments : List (Option (List (Entry Row)))) : List (Option (List (Entry Row))) :=
  (if instanceNotInWindow then [] else [some before.reverse]) ++
    unionSegments.map (Option.map List.reverse)

/-- All rows of the union segments. -/
def unionRows (unionSegments : List (Option (List (Entry Row)))) : List (Entry Row) :=
  (unionSegments.map fun segment => segment.getD []).flatten

/-- The union rows of one key, as request mode reads them. -/
def tieRows (unionSegments : List (Option (List (Entry Row)))) (key : Nat) : List (Entry Row) :=
  ((unionRows unionSegments).filter fun e => decide (e.1 = key)).reverse

section Request

variable {inw : Bool} {before : List (Entry Row)}
  {unionSegments : List (Option (List (Entry Row)))} {key : Nat}

theorem requestSegments_sorted (hbefore : before.Pairwise fun x y => x.1 ≤ y.1)
    (hsorted : ∀ segment ∈ unionSegments, (segment.getD []).Pairwise fun x y => x.1 ≤ y.1) :
    ∀ segment ∈ requestSegments inw before unionSegments, (segment.getD []).Pairwise KeyDesc := by
  intro segment hmem
  rcases mem_append.mp hmem with hmem | hmem
  · cases inw with
    | true => exact absurd hmem not_mem_nil
    | false =>
      rw [mem_singleton.mp hmem]
      exact pairwise_reverse.mpr hbefore
  · obtain ⟨union, hunion, rfl⟩ := List.mem_map.mp hmem
    have hasc := hsorted union hunion
    cases union with
    | none => exact List.Pairwise.nil
    | some seg => exact pairwise_reverse.mpr hasc

/-- The rows that request mode reads, in the order of preference. -/
theorem unionIters_flatten (excludeCurrentTime : Bool)
    (hbefore : before.Pairwise fun x y => x.1 ≤ y.1)
    (hsorted : ∀ segment ∈ unionSegments, (segment.getD []).Pairwise fun x y => x.1 ≤ y.1) :
    (unionIters excludeCurrentTime key (requestSegments inw before unionSegments)).reverse.flatten =
      (((if inw then [] else before) ++ unionRows unionSegments).filter
        fun e => decide (e.1 ≤ unionEnd excludeCurrentTime key)).reverse := by
  have hseek : unionIters excludeCurrentTime key (requestSegments inw before unionSegments) =
      ((requestSegments inw before unionSegments).map fun segment =>
        (segment.getD []).filter fun e => decide (e.1 ≤ unionEnd excludeCurrentTime key)) :=
    map_congr_left fun segment hmem =>
      seek_eq_filter (requestSegments_sorted hbefore hsorted segment hmem)
  have hunions : ∀ segments : List (Option (List (Entry Row))),
      ((segments.map (Option.map List.reverse)).map fun segment => segment.getD []) =
        (segments.map fun segment => segment.getD []).map List.reverse := by
    intro segments
    rw [List.map_map, List.map_map]
    refine map_congr_left fun segment _ => ?_
    cases segment <;> rfl
  have hrows : ((requestSegments inw before unionSegments).map fun segment => segment.getD []) =
      ((if inw then [] else [before]) ++
        unionSegments.map fun segment => segment.getD []).map List.reverse := by
    unfold requestSegments
    rw [map_append, hunions]
    cases inw <;> rfl
  have hfilter : ((requestSegments inw before unionSegments).map fun segment =>
        (segment.getD []).filter fun e => decide (e.1 ≤ unionEnd excludeCurrentTime key)) =
      ((requestSegments inw before unionSegments).map fun segment => segment.getD []).map
        (List.filter fun e => decide (e.1 ≤ unionEnd excludeCurrentTime key)) := by
    rw [List.map_map]
    rfl
  rw [hseek, hfilter, hrows, ← map_reverse, ← filter_flatten, ← reverse_flatten]
  unfold unionRows
  cases inw <;> simp

/-- The rows of one key in request mode's merge. -/
theorem mergeUnionSegments_filter (excludeCurrentTime : Bool)
    (hbefore : before.Pairwise fun x y => x.1 ≤ y.1)
    (hsorted : ∀ segment ∈ unionSegments, (segment.getD []).Pairwise fun x y => x.1 ≤ y.1)
    {merged : List (Entry Row)}
    (hmerge : IsStableMerge Prod.fst (fun a b => b ≤ a)
      (unionIters excludeCurrentTime key (requestSegments inw before unionSegments)).reverse merged)
    (c : Nat) :
    merged.filter (fun e => decide (e.1 = c)) =
      if c ≤ unionEnd excludeCurrentTime key then
        (((if inw then [] else before) ++ unionRows unionSegments).filter
          fun e => decide (e.1 = c)).reverse
      else [] := by
  have hc := @filter_key_filter (Entry Row) Nat _ Prod.fst
    (fun c => decide (c ≤ unionEnd excludeCurrentTime key)) c
    ((if inw then [] else before) ++ unionRows unionSegments)
  simp only [decide_eq_true_eq] at hc
  rw [hmerge.filter_eq, unionIters_flatten excludeCurrentTime hbefore hsorted, filter_reverse,
    hc]
  split <;> rfl

theorem mem_tieRows {e} :
    e ∈ tieRows unionSegments key ↔ e ∈ unionRows unionSegments ∧ e.1 = key := by
  simp [tieRows]

/-- Request mode reads the union rows at the current key, if it reads that key,
and then the rows of batch mode's past. -/
theorem request_past_eq (excludeCurrentTime : Bool) {hist : List (Entry Row)}
    (hbefore : before.Pairwise fun x y => x.1 ≤ y.1) (hlt : ∀ e ∈ before, e.1 < key)
    (hsorted : ∀ segment ∈ unionSegments, (segment.getD []).Pairwise fun x y => x.1 ≤ y.1)
    (hhist : IsStableMerge Prod.fst (fun a b => a ≤ b)
      (windowSegments inw before (unionSegments.map fun segment => segment.getD []) key) hist) :
    mergeUnionSegments
        (unionIters excludeCurrentTime key (requestSegments inw before unionSegments)) =
      (if key ≤ unionEnd excludeCurrentTime key then tieRows unionSegments key else []) ++
        hist.reverse := by
  have hend : unionEnd excludeCurrentTime key ≤ key ∧ key ≤ unionEnd excludeCurrentTime key + 1 := by
    unfold unionEnd
    split <;> omega
  have hmerge : IsStableMerge Prod.fst (fun a b => b ≤ a)
      (unionIters excludeCurrentTime key (requestSegments inw before unionSegments)).reverse
      (mergeUnionSegments
        (unionIters excludeCurrentTime key (requestSegments inw before unionSegments))) := by
    refine isStableMerge_mergeUnionSegments fun seg hseg => ?_
    obtain ⟨segment, hmem, rfl⟩ := List.mem_map.mp hseg
    exact (requestSegments_sorted hbefore hsorted segment hmem).sublist
      (dropWhile_sublist _)
  have htie : ∀ e ∈ (if key ≤ unionEnd excludeCurrentTime key then tieRows unionSegments key
      else []), e.1 = key := by
    intro e he
    split at he
    · exact (mem_tieRows.mp he).2
    · exact absurd he not_mem_nil
  have hpast : ∀ e ∈ hist.reverse, e.1 < key := by
    intro e he
    rcases mem_windowSegments.mp (hhist.mem_iff.mp (mem_reverse.mp he)) with ⟨-, he⟩ | ⟨-, he⟩
    · exact hlt e he
    · exact he
  -- both sides are sorted, so it is enough to compare the rows of each key
  refine eq_of_pairwise_of_filter_eq (fun a b hab hba => Nat.le_antisymm hba hab) hmerge.sorted
    (pairwise_append.mpr ⟨?_, hhist.reverse.sorted, fun x hx y hy => ?_⟩) fun c => ?_
  · exact pairwise_of_forall_mem_list fun x hx y hy => ((htie y hy).trans (htie x hx).symm).le
  · exact (Nat.le_of_lt (hpast y hy)).trans (htie x hx).symm.le
  · have hinst : key ≤ c →
        (if inw then [] else before).filter (fun e => decide (e.1 = c)) = [] :=
      fun hc => filter_done_eq_nil fun e he => by
        have := hlt e he
        omega
    rw [mergeUnionSegments_filter excludeCurrentTime hbefore hsorted hmerge, filter_append,
      filter_append, @filter_reverse _ _ hist, hhist.filter_eq, windowSegments_filter]
    have htie_nil : c ≠ key → (if key ≤ unionEnd excludeCurrentTime key then
        tieRows unionSegments key else []).filter (fun e => decide (e.1 = c)) = [] := by
      intro hc
      refine filter_eq_nil_iff.mpr fun e he => ?_
      rw [decide_eq_true_eq, htie e he]
      exact hc.symm
    rcases Nat.lt_trichotomy c key with hc | rfl | hc
    · -- before the current key: the merge of batch mode, backwards
      have hle : c ≤ unionEnd excludeCurrentTime key := by omega
      rw [if_pos hle, htie_nil hc.ne, if_pos hc]
      rfl
    · rw [hinst (Nat.le_refl c), if_neg (Nat.lt_irrefl c)]
      split
      · simp [tieRows]
      · rfl
    · have hnle : ¬ c ≤ unionEnd excludeCurrentTime key := by omega
      rw [if_neg hnle, htie_nil hc.ne', hinst (Nat.le_of_lt hc), if_neg (Nat.not_lt.mpr (Nat.le_of_lt hc))]
      rfl

end Request

/-! ### When the two windows are the same -/

/-- When the two modes see the same rows for the instance row `(key, row)` after
the instance rows `before`. -/
structure UnionModesAgree (range : WindowRange) (excludeCurrentTime inw : Bool)
    (before : List (Entry Row)) (unionSegments : List (Option (List (Entry Row)))) (key : Nat)
    (row : Row) : Prop where
  /-- The row limit does not wrap visibly on the rows before the current key. -/
  limit : RowsLimitAgrees range key
    (((if inw then [] else before) ++ unionRows unionSegments).filter fun e => decide (e.1 < key))
  /-- No union row has the current key, or the frame has room for one row only. -/
  tie : excludeCurrentTime = false →
    (∀ e ∈ unionRows unionSegments, e.1 ≠ key) ∨ range.rowCap = some 1
  /-- At key zero batch mode has a second copy of the current row where request
  mode has the union rows of key zero. -/
  zero : excludeCurrentTime = true → key = 0 →
    capTake (range.rowCap.map (· - 1)) (tieRows unionSegments 0) =
      capTake (range.rowCap.map (· - 1)) [(0, row)]

/-- The same rows with the same, non-increasing, keys. -/
def SameRows (window request : List (Entry Row)) : Prop :=
  window.Perm request ∧ window.map Prod.fst = request.map Prod.fst ∧ window.Pairwise KeyDesc

section Agree

variable {range : WindowRange} {key : Nat} {row : Row}

/-- For two windows of one sorted list, the same rows means the same window. -/
theorem sameRows_iff_eq {window request rows : List (Entry Row)} (hrows : rows.Pairwise KeyDesc)
    (hwindow : window <+: rows) (hrequest : request <+: rows) :
    SameRows window request ↔ window = request := by
  constructor
  · rintro ⟨hperm, -, -⟩
    exact (prefix_of_prefix_length_le hwindow hrequest hperm.length_eq.le).eq_of_length
      hperm.length_eq
  · rintro rfl
    exact ⟨List.Perm.refl _, rfl, hrows.sublist hwindow.sublist⟩

theorem RowsLimitAgrees.perm {past past' : List (Entry Row)} (h : past.Perm past') :
    RowsLimitAgrees range key past ↔ RowsLimitAgrees range key past' := by
  constructor <;> rintro ⟨hrows, hmerge⟩ <;> refine ⟨hrows, fun hf hwrap => ?_⟩
  · exact (hmerge hf hwrap).imp (fun hall e he => hall e (h.mem_iff.mpr he))
      fun hcount => hcount.trans (h.countP_eq _).le
  · exact (hmerge hf hwrap).imp (fun hall e he => hall e (h.mem_iff.mp he))
      fun hcount => hcount.trans (h.countP_eq _).ge

/-- A frame with room for one row: the current one. -/
theorem takeIdxWhile_frameKeep_of_rowCap_one {rowsLimit startTs}
    (hlimit : range.frameType = .kFrameRows → rowsLimit = range.startRow + 1)
    (hcap : range.rowCap = some 1) (hstart : startTs ≤ key) (past : List (Entry Row)) :
    takeIdxWhile (frameKeep range rowsLimit startTs) 0 ((key, row) :: past) = [(key, row)] := by
  unfold WindowRange.rowCap at hcap
  have hfirst : frameKeep range rowsLimit startTs 0 (key, row) = true := by
    unfold frameKeep
    cases hf : range.frameType <;> simp [hf, hlimit, hstart] at hcap ⊢ <;> omega
  have hsecond : ∀ e : Entry Row, frameKeep range rowsLimit startTs 1 e = false := by
    unfold frameKeep
    cases hf : range.frameType <;> by_cases hmax : range.maxSize = 0 <;>
      simp [hf, hlimit, hmax] at hcap ⊢ <;> omega
  rw [takeIdxWhile_cons_of_pos hfirst]
  cases past with
  | nil => rfl
  | cons e past => rw [takeIdxWhile_cons_of_neg (hsecond e)]

/-- A frame with room for more: a row at the current key is in the window. -/
theorem frameKeep_of_rowCap_ne_one {startTs} (hcap : range.rowCap ≠ some 1) {e : Entry Row}
    (hstart : startTs ≤ e.1) : frameKeep range (range.startRow + 1) startTs 1 e = true := by
  unfold WindowRange.rowCap at hcap
  unfold frameKeep
  cases hf : range.frameType <;> by_cases hmax : range.maxSize = 0 <;>
    simp [hf, hmax] at hcap ⊢ <;> omega

/-- Both modes have the same past: only the row limits can differ. -/
theorem sameRows_iff_of_same_past (hr : range.EndsAtCurrent) (hk : key < 2 ^ 63)
    {past : List (Entry Row)} (hpast : ((key, row) :: past).Pairwise KeyDesc) :
    SameRows (takeIdxWhile (range.keepAt key) 0 ((key, row) :: past))
        (takeIdxWhile (frameKeep range (range.startRow + 1) (clampTs key range.startOffset)) 0
          ((key, row) :: past)) ↔
      RowsLimitAgrees range key past := by
  rw [sameRows_iff_eq hpast (takeIdxWhile_isPrefix _ _ _) (takeIdxWhile_isPrefix _ _ _)]
  exact keepAt_eq_frameKeep_iff hr hk (pairwise_cons.mp hpast).2

/-- Request mode has rows at the current key that batch mode has not: the frame
must have room for the current row only. -/
theorem sameRows_iff_of_ties (hr : range.EndsAtCurrent) (hk : key < 2 ^ 63) {past ties}
    (hpast : ∀ e ∈ past, e.1 < key) (hties : ∀ e ∈ ties, e.1 = key) (hne : ties ≠ []) :
    SameRows (takeIdxWhile (range.keepAt key) 0 ((key, row) :: past))
        (takeIdxWhile (frameKeep range (range.startRow + 1) (clampTs key range.startOffset)) 0
          ((key, row) :: (ties ++ past))) ↔
      RowsLimitAgrees range key past ∧ range.rowCap = some 1 := by
  have hstart := clampTs_le hk range.startOffset_int64 hr.startOffset_nonpos
  constructor
  · rintro ⟨-, hkeys, -⟩
    by_cases hwrap : range.frameType = .kFrameRows ∧ ¬ range.startRow + 1 < 2 ^ 64
    · rw [takeIdxWhile_keepAt_eq_nil hwrap.1 hwrap.2,
        takeIdxWhile_cons_of_pos (frameKeep_current hr hk row)] at hkeys
      cases hkeys
    have hrows : range.frameType = .kFrameRows → range.startRow + 1 < 2 ^ 64 :=
      fun hf => Decidable.of_not_not fun h => hwrap ⟨hf, h⟩
    have hcap : range.rowCap = some 1 := by
      by_contra hcap
      obtain ⟨e, rest, rfl⟩ := exists_cons_of_ne_nil hne
      have he : e.1 = key := hties e mem_cons_self
      -- the second row of request mode has the current key, no second row of batch mode has
      rw [takeIdxWhile_cons_of_pos (frameKeep_current hr hk row), cons_append,
        takeIdxWhile_cons_of_pos (frameKeep_of_rowCap_ne_one hcap (hstart.trans he.ge))] at hkeys
      obtain ⟨tail, htail⟩ := takeIdxWhile_isPrefix (range.keepAt key) 0 ((key, row) :: past)
      cases hb : takeIdxWhile (range.keepAt key) 0 ((key, row) :: past) with
      | nil => rw [hb] at hkeys; cases hkeys
      | cons x xs =>
        rw [hb] at hkeys htail
        cases xs with
        | nil => simp at hkeys
        | cons y ys =>
          have hy : y ∈ past := by
            have := (cons_eq_cons.mp htail).2
            simp [← this]
          have hyk := hpast y hy
          simp only [map_cons, cons_eq_cons] at hkeys
          omega
    refine ⟨⟨hrows, fun hf _ => Or.inr ?_⟩, hcap⟩
    have hmax : range.maxSize = 1 := by
      unfold WindowRange.rowCap at hcap
      rw [hf] at hcap
      by_cases h0 : range.maxSize = 0 <;> simp [h0] at hcap
      exact hcap
    simp [WindowRange.olderRows, hmax]
  · rintro ⟨hlimit, hcap⟩
    have hrows : range.frameType = .kFrameRows → range.rowsLimit = range.startRow + 1 :=
      fun hf => rowsLimit_eq_of_lt (hlimit.rows hf)
    unfold WindowRange.keepAt
    rw [takeIdxWhile_frameKeep_of_rowCap_one hrows hcap hstart,
      takeIdxWhile_frameKeep_of_rowCap_one (fun _ => rfl) hcap hstart]
    exact ⟨List.Perm.refl _, rfl, pairwise_singleton _ _⟩

theorem capTake_sublist (cap : Option Nat) (xs : List (Entry Row)) :
    (capTake cap xs).Sublist xs := by
  cases cap with
  | none => exact List.Sublist.refl _
  | some n => exact take_sublist _ _

/-- The first rows of a window with a row in front. -/
theorem capTake_cons (x : Entry Row) (xs : List (Entry Row)) :
    capTake range.rowCap (x :: xs) = x :: capTake (range.rowCap.map (· - 1)) xs := by
  cases hcap : range.rowCap with
  | none => rfl
  | some n =>
    obtain ⟨m, rfl⟩ := Nat.exists_eq_succ_of_ne_zero (rowCap_pos hcap).ne'
    rfl

/-- Key zero: batch mode has a second copy of the current row, request mode the
union rows of key zero. -/
theorem sameRows_iff_of_zero (hr : range.EndsAtCurrent) (ties : List (Entry Row)) :
    SameRows (takeIdxWhile (range.keepAt 0) 0 [(0, row), (0, row)])
        (takeIdxWhile (frameKeep range (range.startRow + 1) (clampTs (0 : Nat) range.startOffset)) 0
          ((0, row) :: ties)) ↔
      (range.frameType = .kFrameRows → range.startRow + 1 < 2 ^ 64) ∧
        capTake (range.rowCap.map (· - 1)) ties =
          capTake (range.rowCap.map (· - 1)) [(0, row)] := by
  have hstart : clampTs (0 : Nat) range.startOffset = 0 :=
    Nat.le_zero.mp (clampTs_le (by decide) range.startOffset_int64 hr.startOffset_nonpos)
  by_cases hwrap : range.frameType = .kFrameRows ∧ ¬ range.startRow + 1 < 2 ^ 64
  · rw [takeIdxWhile_keepAt_eq_nil hwrap.1 hwrap.2,
      takeIdxWhile_cons_of_pos (frameKeep_current hr (by decide) row)]
    exact ⟨fun h => absurd h.1.length_eq (by simp), fun h => absurd (h.1 hwrap.1) hwrap.2⟩
  have hrows : range.frameType = .kFrameRows → range.startRow + 1 < 2 ^ 64 :=
    fun hf => Decidable.of_not_not fun h => hwrap ⟨hf, h⟩
  unfold WindowRange.keepAt
  rw [hstart, takeIdxWhile_frameKeep_eq_capTake (fun hf => rowsLimit_eq_of_lt (hrows hf))
      (fun e _ => Nat.zero_le _),
    takeIdxWhile_frameKeep_eq_capTake (fun _ => rfl) (fun e _ => Nat.zero_le _),
    capTake_cons, capTake_cons]
  constructor
  · rintro ⟨hperm, -, -⟩
    refine ⟨hrows, ?_⟩
    have hperm := perm_cons _ |>.mp hperm
    cases hcap : range.rowCap.map (· - 1) with
    | none =>
      rw [hcap] at hperm
      exact perm_singleton.mp hperm.symm
    | some n =>
      rw [hcap] at hperm
      cases n with
      | zero => rfl
      | succ n =>
        have hone : capTake (some (n + 1)) [((0 : Nat), row)] = [(0, row)] := by
          simp [capTake]
        rw [hone] at hperm ⊢
        exact perm_singleton.mp hperm.symm
  · rintro ⟨-, heq⟩
    rw [heq]
    have hsub : ((0, row) :: capTake (range.rowCap.map (· - 1)) [(0, row)]).Sublist
        [(0, row), (0, row)] := (capTake_sublist _ _).cons_cons _
    refine ⟨List.Perm.refl _, rfl, List.Pairwise.sublist hsub ?_⟩
    exact pairwise_cons.mpr ⟨fun e he => by rw [mem_singleton.mp he]; exact Nat.le_refl 0,
      pairwise_singleton _ _⟩

/-- The window of batch mode and that of request mode have the same rows exactly
under `UnionModesAgree`. -/
theorem sameRows_batchWindow_iff (hr : range.EndsAtCurrent) (excludeCurrentTime inw : Bool)
    {before hist : List (Entry Row)} {unionSegments : List (Option (List (Entry Row)))}
    (hbefore : before.Pairwise fun x y => x.1 ≤ y.1) (hlt : ∀ e ∈ before, e.1 < key)
    (hk : key < 2 ^ 63)
    (hsorted : ∀ segment ∈ unionSegments, (segment.getD []).Pairwise fun x y => x.1 ≤ y.1)
    (hhist : IsStableMerge Prod.fst (fun a b => a ≤ b)
      (windowSegments inw before (unionSegments.map fun segment => segment.getD []) key) hist) :
    SameRows (batchWindow range excludeCurrentTime key row hist)
        (requestUnionWindow row (requestSegments inw before unionSegments) key range true
          excludeCurrentTime) ↔
      UnionModesAgree range excludeCurrentTime inw before unionSegments key row := by
  have hpast : ∀ e ∈ hist.reverse, e.1 < key := by
    intro e he
    rcases mem_windowSegments.mp (hhist.mem_iff.mp (mem_reverse.mp he)) with ⟨-, he⟩ | ⟨-, he⟩
    · exact hlt e he
    · exact he
  have hdesc : ((key, row) :: hist.reverse).Pairwise KeyDesc :=
    pairwise_cons.mpr ⟨fun e he => Nat.le_of_lt (hpast e he), hhist.reverse.sorted⟩
  -- the past of batch mode, as the condition on the inputs names it
  have hperm : hist.reverse.Perm
      (((if inw then [] else before) ++ unionRows unionSegments).filter
        fun e => decide (e.1 < key)) := by
    refine (reverse_perm hist).trans (hhist.perm.trans (List.Perm.of_eq ?_))
    unfold windowSegments unionRows
    rw [flatten_cons, ← filter_flatten, filter_append]
    refine congrArg (· ++ _) (filter_eq_self.mpr fun e he => ?_).symm
    cases inw with
    | true => exact absurd he not_mem_nil
    | false => simpa using hlt e he
  have hlimit := @RowsLimitAgrees.perm _ range key _ _ hperm
  unfold batchWindow
  rw [requestUnionWindow_eq hr excludeCurrentTime hk row (requestSegments_sorted hbefore hsorted),
    request_past_eq excludeCurrentTime hbefore hlt hsorted hhist]
  cases excludeCurrentTime with
  | false =>
    rw [if_pos (show key ≤ unionEnd false key from Nat.le_refl key)]
    by_cases hties : tieRows unionSegments key = []
    · rw [hties]
      refine (sameRows_iff_of_same_past hr hk hdesc).trans (hlimit.trans ⟨fun h => ?_, (·.limit)⟩)
      refine ⟨h, fun _ => Or.inl fun e he hkey => ?_, (nomatch ·)⟩
      have : e ∈ tieRows unionSegments key := mem_tieRows.mpr ⟨he, hkey⟩
      rw [hties] at this
      cases this
    · refine (sameRows_iff_of_ties hr hk hpast (fun e he => (mem_tieRows.mp he).2) hties).trans ?_
      rw [hlimit]
      refine ⟨fun h => ⟨h.1, fun _ => Or.inr h.2, (nomatch ·)⟩, fun h => ⟨h.limit, ?_⟩⟩
      refine (h.tie rfl).resolve_left fun hnone => hties ?_
      exact eq_nil_iff_forall_not_mem.mpr fun e he =>
        hnone e (mem_tieRows.mp he).1 (mem_tieRows.mp he).2
  | true =>
    rcases Nat.eq_zero_or_pos key with rfl | hpos
    · have hnil : hist.reverse = [] :=
        eq_nil_iff_forall_not_mem.mpr fun e he => absurd (hpast e he) (Nat.not_lt_zero _)
      rw [hnil, append_nil]
      refine (sameRows_iff_of_zero hr _).trans ⟨fun h => ⟨⟨h.1, fun _ _ => Or.inl ?_⟩,
        (nomatch ·), fun _ _ => h.2⟩, fun h => ⟨h.limit.rows, h.zero rfl rfl⟩⟩
      intro e he
      have := (mem_filter.mp he).2
      simp at this
    · have hend : ¬ key ≤ unionEnd true key := by
        unfold unionEnd
        rw [if_pos rfl]
        omega
      have hbatch : HistoryWindow.batchPast true key row hist.reverse = hist.reverse := by
        unfold HistoryWindow.batchPast
        rw [if_neg hpos.ne']
        exact filter_eq_self.mpr fun e he => by simpa using hpast e he
      rw [if_neg hend, hbatch]
      refine (sameRows_iff_of_same_past hr hk hdesc).trans (hlimit.trans ⟨fun h => ?_, (·.limit)⟩)
      exact ⟨h, (nomatch ·), fun _ h0 => absurd h0 hpos.ne'⟩

end Agree

/-- `WINDOW ... UNION`: for an instance row `(key, row)` of a partition, the window
that batch mode shows to the projection has the same rows as the window of
request mode exactly under `UnionModesAgree`. -/
theorem windowAgg_sameRows_request_iff {range : WindowRange} (hr : range.EndsAtCurrent)
    (excludeCurrentTime inw : Bool) {before after : List (Entry Row)} {key : Nat} {row : Row}
    {unionSegments : List (Option (List (Entry Row)))}
    (hasc : (before ++ (key, row) :: after).Pairwise fun x y => x.1 < y.1) (hk : key < 2 ^ 63)
    (hsorted : ∀ segment ∈ unionSegments, (segment.getD []).Pairwise fun x y => x.1 ≤ y.1)
    (hbound : ∀ segment ∈ unionSegments, ∀ e ∈ segment.getD [], e.1 < 2 ^ 63) :
    ∃ window,
      (runWindowAggOnKey (fun _ _ window => some window) range excludeCurrentTime inw 0
          (before ++ (key, row) :: after) unionSegments [])[before.length]? = some (some window) ∧
      (SameRows window
          (requestUnionWindow row (requestSegments inw before unionSegments) key range true
            excludeCurrentTime) ↔
        UnionModesAgree range excludeCurrentTime inw before unionSegments key row) := by
  obtain ⟨hbefore, -, hlt⟩ := pairwise_append.mp hasc
  have hcurrent : (before ++ [(key, row)]).Pairwise fun x y => x.1 < y.1 := by
    rw [← singleton_append, ← append_assoc] at hasc
    exact (pairwise_append.mp hasc).1
  obtain ⟨hist, hhist, hget⟩ := getElem?_runWindowAggOnKey hr excludeCurrentTime inw
    (fun _ _ window => window) hcurrent hk hsorted hbound
  exact ⟨_, hget, sameRows_batchWindow_iff hr excludeCurrentTime inw
    (hbefore.imp fun {x y} => Nat.le_of_lt) (fun e he => hlt e he (key, row) mem_cons_self) hk
    hsorted hhist⟩

/-- Two instance rows and one union table; no union row has the current key. -/
theorem windowAgg_sameRows_lastSecond :
    ∃ window,
      (runWindowAggOnKey (fun _ _ window => some window) lastSecond false false 0
          ([(1000, 10)] ++ (1500, 11) :: []) [some [(700, 20), (1000, 21), (1600, 22)]] [])[1]? =
        some (some window) ∧
      SameRows window
        (requestUnionWindow 11
          (requestSegments false [(1000, 10)] [some [(700, 20), (1000, 21), (1600, 22)]])
          (1500 : Nat) lastSecond true false) := by
  obtain ⟨window, hwindow, hiff⟩ := @windowAgg_sameRows_request_iff Nat lastSecond
    lastSecond_endsAtCurrent false false [(1000, 10)] [] 1500 11
    [some [(700, 20), (1000, 21), (1600, 22)]] (by decide) (by decide) (by decide) (by decide)
  exact ⟨window, hwindow, hiff.mpr ⟨⟨(nomatch ·), (nomatch ·)⟩,
    fun _ => Or.inl (by simp [unionRows]), (nomatch ·)⟩⟩

/-- A union row at the timestamp of the instance row: batch mode does not show it
to the projection, request mode has it in the window. -/
theorem windowAgg_ne_request_at_tie :
    runWindowAggOnKey (fun _ _ window => some window) lastSecond false false 0
        [(1500, 11)] [some [(1500, 20)]] [] = [some [(1500, 11)]] ∧
      requestUnionWindow 11 (requestSegments false [] [some [(1500, 20)]]) (1500 : Nat) lastSecond
          true false = [(1500, 11), (1500, 20)] := by
  decide

end HybridSE.Vm
