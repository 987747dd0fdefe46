import HybridSE.Vm.IteratorStatus

/-!
# HybridSE.Vm.WindowAgg

Batch mode over one partition: `Runner::WindowProject` and
`WindowAggRunner::RunWindowAggOnKey` of `src/vm/runner.cc`, without window joins.

The runner walks the instance segment, oldest row first. Before it projects an
instance row it pushes into the window the union rows with a smaller key, oldest
first. The compiled projection is a parameter `fn`: it gets the key, the row and
the window and may fail. Rows are never empty.

`getElem?_runWindowAggOnKey` says which rows are behind an instance row when it
is projected: the stable merge of the earlier instance rows and the union rows
with smaller keys.
-/

namespace HybridSE.Vm

open HybridSE.Lib List

variable {Row Out : Type*}

/-- `Runner::WindowProject`: the projected row (`none` where the code returns an
empty row) and the window afterwards. The row that is popped has just been pushed. -/
def windowProject (fn : Nat → Row → List (Entry Row) → Option Out) (rowKey : Nat) (row : Row)
    (isInstance : Bool) (window : HistoryWindow Row) : Option Out × HistoryWindow Row :=
  match window.bufferData rowKey row with
  | (false, window) => (none, window)
  | (true, window) =>
    if !isInstance then (none, window)
    else
      match fn rowKey row window.table with
      | none => (none, window)
      | some out =>
        (some out, if window.instanceNotInWindow then window.dropFront else window)

/-- The inner loop of `RunWindowAggOnKey`: push the union rows with keys below
`instanceOrder`. The first argument bounds the number of rounds. -/
def pushUnionRows (fn : Nat → Row → List (Entry Row) → Option Out) (instanceOrder : Nat) :
    Nat → List (List (Entry Row)) → HistoryWindow Row → List (List (Entry Row)) × HistoryWindow Row
  | 0, iters, window => (iters, window)
  | n + 1, iters, window =>
    match IteratorStatus.pickIteratorWithMininumKey (iters.map IteratorStatus.ofIter) with
    | none => (iters, window)
    | some minUnionPos =>
      match iters[minUnionPos]? with
      | some (e :: rest) =>
        if e.1 < instanceOrder then
          pushUnionRows fn instanceOrder n (iters.set minUnionPos rest)
            (windowProject fn e.1 e.2 false window).2
        else (iters, window)
      -- a picked iterator is valid
      | _ => (iters, window)

/-- The outer loop of `RunWindowAggOnKey`, over the instance segment; `cnt` is
the size of the output table. -/
def windowAggLoop (fn : Nat → Row → List (Entry Row) → Option Out) (limitCnt : Nat) :
    List (Entry Row) → List (List (Entry Row)) → HistoryWindow Row → List (Option Out) →
      List (Option Out)
  | [], _, _, output => output
  | instanceRow :: rest, iters, window, output =>
    if 0 < limitCnt ∧ limitCnt ≤ output.length then output
    else
      let pushed := pushUnionRows fn instanceRow.1 iters.flatten.length iters window
      let projected := windowProject fn instanceRow.1 instanceRow.2 true pushed.2
      windowAggLoop fn limitCnt rest pushed.1 projected.2 (output ++ [projected.1])

/-- `WindowAggRunner::RunWindowAggOnKey`: the output table after the partition.
A missing union segment is `none`. -/
def runWindowAggOnKey (fn : Nat → Row → List (Entry Row) → Option Out) (range : WindowRange)
    (excludeCurrentTime instanceNotInWindow : Bool) (limitCnt : Nat)
    (instanceSegment : List (Entry Row)) (unionSegments : List (Option (List (Entry Row))))
    (output : List (Option Out)) : List (Option Out) :=
  windowAggLoop fn limitCnt instanceSegment (unionSegments.map fun segment => segment.getD [])
    (HistoryWindow.new range excludeCurrentTime instanceNotInWindow) output

/-! ### The inner loop -/

/-- A union row is pushed, whatever the projection is. -/
@[simp] theorem windowProject_union (fn : Nat → Row → List (Entry Row) → Option Out) (key : Nat)
    (row : Row) (window : HistoryWindow Row) :
    (windowProject fn key row false window).2 = (window.bufferData key row).2 := by
  unfold windowProject
  split
  · next h => rw [h]
  · next h => simp [h]

section PushUnionRows

variable {fn : Nat → Row → List (Entry Row) → Option Out} {instanceOrder : Nat}

variable {iters : List (List (Entry Row))}

/-- Lists whose heads are not below `instanceOrder` have nothing to push. -/
theorem map_dropWhile_eq_self (h : ∀ seg ∈ iters, ∀ y ∈ seg.head?, instanceOrder ≤ y.1) :
    iters.map (List.dropWhile fun e => decide (e.1 < instanceOrder)) = iters := by
  refine (map_congr_left fun seg hseg => ?_).trans (List.map_id _)
  cases seg with
  | nil => rfl
  | cons e rest =>
    have := h (e :: rest) hseg e rfl
    rw [dropWhile_cons_of_neg (by simpa using this)]
    rfl

/-- The inner loop pushes the merged union rows below `instanceOrder` and leaves
the others. -/
theorem pushUnionRows_eq {n} (window : HistoryWindow Row)
    (h : Ready (fun e : Entry Row => e.1 < 2 ^ 64 - 1) Prod.fst (fun a b => a ≤ b) n iters) :
    pushUnionRows fn instanceOrder n iters window =
      (iters.map (List.dropWhile fun e => decide (e.1 < instanceOrder)),
        window.bufferAll
          ((kwayMerge (fun segs =>
              IteratorStatus.pickIteratorWithMininumKey (segs.map IteratorStatus.ofIter)) n
            iters).takeWhile fun e => decide (e.1 < instanceOrder))) := by
  induction n generalizing iters window with
  | zero =>
    have hnil : ∀ seg ∈ iters, seg = [] :=
      flatten_eq_nil_iff.mp (length_eq_zero_iff.mp (Nat.le_zero.mp h.fuel))
    rw [map_dropWhile_eq_self fun seg hseg y hy => by rw [hnil seg hseg] at hy; cases hy]
    rfl
  | succ n ih =>
    have hpick := IteratorStatus.picks_mininumKey iters h.all
    rw [pushUnionRows, kwayMerge]
    cases hpos : IteratorStatus.pickIteratorWithMininumKey (iters.map IteratorStatus.ofIter) with
    | none =>
      have hnil : ∀ seg ∈ iters, seg = [] := flatten_eq_nil_iff.mp (hpick.of_none hpos)
      rw [map_dropWhile_eq_self fun seg hseg y hy => by rw [hnil seg hseg] at hy; cases hy]
      rfl
    | some pos =>
      obtain ⟨before, e, rest, after, hget, harr, hset, hbefore, hafter⟩ :=
        hpick.of_some pos hpos
      dsimp only [id] at harr hset
      dsimp only
      rw [hget]
      dsimp only
      by_cases he : e.1 < instanceOrder
      · have hready := h
        rw [harr] at hready
        rw [if_pos he, hset, ih _ hready.step, takeWhile_cons_of_pos (by simpa using he)]
        refine Prod.ext ?_ ?_
        · simp [harr, he]
        · simp [HistoryWindow.bufferAll]
      · -- every head is at or after the smallest one
        have hheads : ∀ seg ∈ iters, ∀ y ∈ seg.head?, instanceOrder ≤ y.1 := by
          intro seg hseg y hy
          rw [harr] at hseg
          rcases mem_append.mp hseg with hseg | hseg
          · have := (hbefore seg hseg y hy).1
            omega
          · rcases mem_cons.mp hseg with rfl | hseg
            · obtain rfl : e = y := by simpa using hy
              omega
            · have := hafter seg hseg y hy
              omega
        rw [if_neg he, map_dropWhile_eq_self hheads,
          takeWhile_cons_of_neg (by simpa using he)]
        rfl

/-- The rows of a sorted list before and from a key on. -/
theorem keySorted_lt_antitone {xs : List (Entry Row)} (h : KeySorted Prod.fst (fun a b => a ≤ b) xs)
    (c : Nat) : xs.Pairwise fun x y => decide (y.1 < c) = true → decide (x.1 < c) = true :=
  h.imp fun {x y} hxy hy => by
    simp only [decide_eq_true_eq] at hy ⊢
    exact Nat.lt_of_le_of_lt hxy hy

/-- The inner loop, as a merge: the pushed rows are the stable merge of the union
rows below `instanceOrder`. -/
theorem exists_pushUnionRows (fn : Nat → Row → List (Entry Row) → Option Out) (instanceOrder : Nat)
    (window : HistoryWindow Row)
    (hsorted : ∀ seg ∈ iters, KeySorted Prod.fst (fun a b => a ≤ b) seg)
    (hbound : ∀ e ∈ iters.flatten, e.1 < 2 ^ 63) :
    ∃ rows, pushUnionRows fn instanceOrder iters.flatten.length iters window =
        (iters.map (List.filter fun e => decide (instanceOrder ≤ e.1)), window.bufferAll rows) ∧
      IsStableMerge Prod.fst (fun a b => a ≤ b)
        (iters.map fun seg => seg.filter fun e => decide (e.1 < instanceOrder)) rows := by
  have hready : Ready (fun e : Entry Row => e.1 < 2 ^ 64 - 1) Prod.fst (fun a b => a ≤ b)
      iters.flatten.length iters :=
    ⟨fun e he => Nat.lt_trans (hbound e he) (by decide), hsorted, Nat.le_refl _⟩
  have hmerge := isStableMerge_kwayMerge IteratorStatus.picks_mininumKey
    (fun a b c => Nat.le_trans) (fun a b => Nat.le_antisymm) hready
  refine ⟨_, pushUnionRows_eq window hready |>.trans (Prod.ext ?_ rfl), ?_⟩
  · refine map_congr_left fun seg hseg => ?_
    rw [dropWhile_eq_filter (keySorted_lt_antitone (hsorted seg hseg) instanceOrder)]
    exact filter_congr fun e _ => by rw [Bool.eq_iff_iff]; simp
  · rw [takeWhile_eq_filter (keySorted_lt_antitone hmerge.sorted instanceOrder)]
    exact hmerge.filter fun c => decide (c < instanceOrder)

end PushUnionRows

/-! ### The outer loop -/

/-- The segments that a window of batch mode merges: the earlier instance rows,
unless they are not to enter the window, and the union rows below a key. -/
def windowSegments (instanceNotInWindow : Bool) (done : List (Entry Row))
    (unions : List (List (Entry Row))) (order : Nat) : List (List (Entry Row)) :=
  (if instanceNotInWindow then [] else done) ::
    unions.map fun seg => seg.filter fun e => decide (e.1 < order)

section Segments

variable {inw : Bool} {done : List (Entry Row)} {unions : List (List (Entry Row))}
  {hist rows : List (Entry Row)} {last order : Nat}

/-- The rows of one key in the segments. -/
theorem windowSegments_filter (c : Nat) :
    (windowSegments inw done unions order).flatten.filter (fun e => decide (e.1 = c)) =
      (if inw then [] else done).filter (fun e => decide (e.1 = c)) ++
        if c < order then unions.flatten.filter (fun e => decide (e.1 = c)) else [] := by
  have hkey := @filter_key_filter (Entry Row) Nat _ Prod.fst (fun c => decide (c < order)) c
    unions.flatten
  simp [decide_eq_true_eq, windowSegments, flatten_cons, filter_append, ← filter_flatten, hkey]

theorem mem_windowSegments {e} :
    e ∈ (windowSegments inw done unions order).flatten ↔
      (inw = false ∧ e ∈ done) ∨ (e ∈ unions.flatten ∧ e.1 < order) := by
  unfold windowSegments
  rw [flatten_cons, mem_append, ← filter_flatten, mem_filter]
  cases inw <;> simp

theorem filter_done_eq_nil {c} (hdone : ∀ e ∈ done, e.1 ≠ c) :
    (if inw then [] else done).filter (fun e => decide (e.1 = c)) = [] := by
  refine filter_eq_nil_iff.mpr fun e he => ?_
  cases inw with
  | true => exact absurd he not_mem_nil
  | false => simpa using hdone e he

/-- The rows pushed before the next instance row extend the merge. -/
theorem isStableMerge_append_unions (hle : last ≤ order) (hdone : ∀ e ∈ done, e.1 ≤ last)
    (hhist : IsStableMerge Prod.fst (fun a b => a ≤ b) (windowSegments inw done unions last) hist)
    (hrows : IsStableMerge Prod.fst (fun a b => a ≤ b)
      ((unions.map (List.filter fun e => decide (last ≤ e.1))).map
        fun seg => seg.filter fun e => decide (e.1 < order)) rows) :
    IsStableMerge Prod.fst (fun a b => a ≤ b) (windowSegments inw done unions order)
      (hist ++ rows) := by
  have hrows_key : ∀ c, rows.filter (fun e => decide (e.1 = c)) =
      if last ≤ c ∧ c < order then unions.flatten.filter (fun e => decide (e.1 = c)) else [] := by
    intro c
    have hlt := @filter_key_filter (Entry Row) Nat _ Prod.fst (fun c => decide (c < order)) c
      (unions.flatten.filter fun e => decide (last ≤ e.1))
    have hge := @filter_key_filter (Entry Row) Nat _ Prod.fst (fun c => decide (last ≤ c)) c
      unions.flatten
    rw [hrows.filter_eq, ← filter_flatten, ← filter_flatten, hlt]
    split <;> split <;> simp_all
  refine ⟨pairwise_append.mpr ⟨hhist.sorted, hrows.sorted, fun x hx y hy => ?_⟩, fun c => ?_⟩
  · have hxle : x.1 ≤ last := by
      rcases mem_windowSegments.mp (hhist.mem_iff.mp hx) with ⟨-, hx⟩ | ⟨-, hx⟩
      · exact hdone x hx
      · exact Nat.le_of_lt hx
    have hyge : last ≤ y.1 := by
      have hy := hrows.mem_iff.mp hy
      rw [← filter_flatten, ← filter_flatten] at hy
      simpa using (mem_filter.mp (mem_filter.mp hy).1).2
    exact Nat.le_trans hxle hyge
  · rw [filter_append, hhist.filter_eq, hrows_key, windowSegments_filter,
      windowSegments_filter]
    by_cases hc : c < last
    · simp [hc, Nat.lt_of_lt_of_le hc hle]
    · simp [Nat.not_lt.mp hc]

/-- The instance row is the newest row and the only one of its key. -/
theorem isStableMerge_append_instance {row : Row}
    (hdone : ∀ e ∈ done, e.1 < order)
    (hhist : IsStableMerge Prod.fst (fun a b => a ≤ b)
      (windowSegments false done unions order) hist) :
    IsStableMerge Prod.fst (fun a b => a ≤ b)
      (windowSegments false (done ++ [(order, row)]) unions order) (hist ++ [(order, row)]) := by
  refine ⟨pairwise_append.mpr ⟨hhist.sorted, pairwise_singleton _ _, fun x hx y hy => ?_⟩,
    fun c => ?_⟩
  · rw [mem_singleton.mp hy]
    rcases mem_windowSegments.mp (hhist.mem_iff.mp hx) with ⟨-, hx⟩ | ⟨-, hx⟩
    · exact Nat.le_of_lt (hdone x hx)
    · exact Nat.le_of_lt hx
  · rw [filter_append, hhist.filter_eq, windowSegments_filter, windowSegments_filter]
    by_cases hc : order = c
    · simp [hc]
    · simp [hc]

end Segments

/-- Invariant of the outer loop, between two instance rows. `done` are the
instance rows already projected, `last` is the key of the last one and `hist`
are the rows in the window's past, oldest first. -/
structure AggInv (range : WindowRange) (excludeCurrentTime inw : Bool)
    (unions : List (List (Entry Row))) (done : List (Entry Row)) (iters : List (List (Entry Row)))
    (window : HistoryWindow Row) (hist : List (Entry Row)) (last : Nat) : Prop where
  run : window.RunInv range excludeCurrentTime hist.reverse last
  flag : window.instanceNotInWindow = inw
  iters_eq : iters = unions.map (List.filter fun e => decide (last ≤ e.1))
  merge : IsStableMerge Prod.fst (fun a b => a ≤ b) (windowSegments inw done unions last) hist
  done_le : ∀ e ∈ done, e.1 ≤ last

section Loop

variable {range : WindowRange} {excludeCurrentTime inw : Bool} {unions : List (List (Entry Row))}

theorem AggInv.new (range : WindowRange) (excludeCurrentTime inw : Bool)
    (unions : List (List (Entry Row))) :
    AggInv range excludeCurrentTime inw unions [] unions
      (HistoryWindow.new range excludeCurrentTime inw) [] 0 where
  run := HistoryWindow.RunInv.new range excludeCurrentTime inw
  flag := rfl
  iters_eq := by
    refine (List.map_id unions).symm.trans (map_congr_left fun seg _ => ?_)
    exact (filter_eq_self.mpr fun _ _ => by simp).symm
  merge := ⟨List.Pairwise.nil, fun c => by rw [windowSegments_filter]; simp⟩
  done_le := by simp

variable {done : List (Entry Row)} {iters : List (List (Entry Row))} {window : HistoryWindow Row}
  {hist : List (Entry Row)} {last : Nat}

/-- The state between the two halves of a round: the union rows below `order` are
in the window. -/
structure PushedInv (range : WindowRange) (excludeCurrentTime inw : Bool)
    (unions : List (List (Entry Row))) (done : List (Entry Row)) (window : HistoryWindow Row)
    (hist : List (Entry Row)) (order : Nat) : Prop where
  run : ∃ last ≤ order, window.RunInv range excludeCurrentTime hist.reverse last
  flag : window.instanceNotInWindow = inw
  merge : IsStableMerge Prod.fst (fun a b => a ≤ b) (windowSegments inw done unions order) hist

variable {order : Nat}

/-- First half of a round: the inner loop. -/
theorem AggInv.push (h : AggInv range excludeCurrentTime inw unions done iters window hist last)
    (hr : range.EndsAtCurrent) (hsorted : ∀ seg ∈ unions, KeySorted Prod.fst (fun a b => a ≤ b) seg)
    (hbound : ∀ e ∈ unions.flatten, e.1 < 2 ^ 63) (fn : Nat → Row → List (Entry Row) → Option Out)
    (hlast : last ≤ order) (horder : order < 2 ^ 63) :
    ∃ window' hist', pushUnionRows fn order iters.flatten.length iters window =
        (unions.map (List.filter fun e => decide (order ≤ e.1)), window') ∧
      PushedInv range excludeCurrentTime inw unions done window' hist' order := by
  obtain ⟨hrun, hflag, rfl, hmerge, hdone⟩ := h
  have hiters_sorted : ∀ seg ∈ unions.map (List.filter fun e => decide (last ≤ e.1)),
      KeySorted Prod.fst (fun a b => a ≤ b) seg := by
    intro seg hseg
    obtain ⟨seg, hmem, rfl⟩ := List.mem_map.mp hseg
    exact (hsorted seg hmem).sublist filter_sublist
  obtain ⟨rows, hpush, hrows⟩ := exists_pushUnionRows fn order window hiters_sorted
    fun e he => hbound e (mem_filter.mp (filter_flatten ▸ he)).1
  have hrows_key : ∀ e ∈ rows, last ≤ e.1 ∧ e.1 < order := by
    intro e he
    have he := hrows.mem_iff.mp he
    rw [← filter_flatten, ← filter_flatten] at he
    obtain ⟨he, hlt⟩ := mem_filter.mp he
    exact ⟨by simpa using (mem_filter.mp he).2, by simpa using hlt⟩
  obtain ⟨last', hlast', hrun'⟩ := hrun.bufferAll hr hrows.sorted (fun e he => (hrows_key e he).1)
    (fun e he => Nat.le_of_lt (hrows_key e he).2) hlast horder
  refine ⟨window.bufferAll rows, hist ++ rows, hpush.trans (Prod.ext ?_ rfl),
    ⟨last', hlast', by rwa [reverse_append]⟩,
    (HistoryWindow.bufferAll_instanceNotInWindow window rows).trans hflag,
    isStableMerge_append_unions hlast hdone hmerge hrows⟩
  rw [List.map_map]
  refine map_congr_left fun seg _ => ?_
  rw [Function.comp_apply, List.filter_filter]
  refine filter_congr fun e _ => ?_
  rw [Bool.eq_iff_iff]
  simp only [Bool.and_eq_true, decide_eq_true_eq]
  omega

/-- The window that the projection of `(order, row)` sees. -/
def batchWindow (range : WindowRange) (excludeCurrentTime : Bool) (order : Nat) (row : Row)
    (hist : List (Entry Row)) : List (Entry Row) :=
  takeIdxWhile (range.keepAt order) 0
    ((order, row) :: HistoryWindow.batchPast excludeCurrentTime order row hist.reverse)

/-- Second half of a round: the projection sees the instance row in front of the
window's past, and the invariant of the loop holds again. -/
theorem PushedInv.project (h : PushedInv range excludeCurrentTime inw unions done window hist order)
    (hr : range.EndsAtCurrent) (f : Nat → Row → List (Entry Row) → Out) (row : Row)
    (hdone : ∀ e ∈ done, e.1 < order) (horder : order < 2 ^ 63) :
    ∃ window' hist', windowProject (fun k r w => some (f k r w)) order row true window =
        (some (f order row (batchWindow range excludeCurrentTime order row hist)), window') ∧
      AggInv range excludeCurrentTime inw unions (done ++ [(order, row)])
        (unions.map (List.filter fun e => decide (order ≤ e.1))) window' hist' order := by
  obtain ⟨⟨last, hlast, hrun⟩, hflag, hmerge⟩ := h
  have hok := @HistoryWindow.RunInv.bufferData_fst _ _ _ _ _ _ _ row hrun hr hlast
  have htable := @HistoryWindow.RunInv.bufferData_table _ _ _ _ _ _ _ row hrun hr hlast horder
  have hflag' : (window.bufferData order row).2.instanceNotInWindow = inw := by
    rw [HistoryWindow.bufferData_instanceNotInWindow, hflag]
  have hproject : windowProject (fun k r w => some (f k r w)) order row true window =
      (some (f order row (batchWindow range excludeCurrentTime order row hist)),
        if inw then (window.bufferData order row).2.dropFront
        else (window.bufferData order row).2) := by
    unfold windowProject batchWindow
    rw [← htable, ← hflag']
    split
    · next heq => rw [heq] at hok; cases hok
    · next heq => rw [heq]; rfl
  have hdone' : ∀ e ∈ done ++ [(order, row)], e.1 ≤ order := by
    intro e he
    rcases mem_append.mp he with he | he
    · exact Nat.le_of_lt (hdone e he)
    · rw [mem_singleton.mp he]
  cases inw with
  | false =>
    refine ⟨_, hist ++ [(order, row)], hproject, ?_, hflag', rfl,
      isStableMerge_append_instance hdone hmerge, hdone'⟩
    rw [reverse_append]
    exact hrun.bufferData hr hlast horder
  | true =>
    refine ⟨_, hist, hproject, ?_, ?_, rfl, ⟨hmerge.sorted, hmerge.filter_eq⟩, hdone'⟩
    · -- at key zero no row is before the instance row
      refine hrun.dropFront hr hlast horder fun hzero => ?_
      refine reverse_eq_nil_iff.mpr (eq_nil_iff_forall_not_mem.mpr fun e he => ?_)
      rcases mem_windowSegments.mp (hmerge.mem_iff.mp he) with ⟨hfalse, -⟩ | ⟨-, he⟩
      · cases hfalse
      · omega
    · rw [if_pos rfl, HistoryWindow.dropFront_instanceNotInWindow, hflag']

/-- The loop only appends to the output table. -/
theorem isPrefix_windowAggLoop (fn : Nat → Row → List (Entry Row) → Option Out) (limitCnt : Nat)
    (instances : List (Entry Row)) (iters : List (List (Entry Row))) (window : HistoryWindow Row)
    (output : List (Option Out)) :
    output <+: windowAggLoop fn limitCnt instances iters window output := by
  induction instances generalizing iters window output with
  | nil => exact prefix_rfl
  | cons e rest ih =>
    rw [windowAggLoop]
    split
    · exact prefix_rfl
    · exact (prefix_append output _).trans (ih _ _ _)

/-- What the projection of the instance row `(order, row)` sees. -/
theorem AggInv.getElem?_windowAggLoop (hr : range.EndsAtCurrent)
    (hsorted : ∀ seg ∈ unions, KeySorted Prod.fst (fun a b => a ≤ b) seg)
    (hbound : ∀ e ∈ unions.flatten, e.1 < 2 ^ 63) (f : Nat → Row → List (Entry Row) → Out)
    (row : Row) (after : List (Entry Row)) (horder : order < 2 ^ 63) (before : List (Entry Row)) :
    ∀ (done : List (Entry Row)) (iters : List (List (Entry Row))) (window : HistoryWindow Row)
      (hist : List (Entry Row)) (last : Nat) (output : List (Option Out)),
      AggInv range excludeCurrentTime inw unions done iters window hist last →
      (done ++ before ++ [(order, row)]).Pairwise (fun x y => x.1 < y.1) →
      (∀ e ∈ before ++ [(order, row)], last ≤ e.1) →
      ∃ pushed,
        IsStableMerge Prod.fst (fun a b => a ≤ b) (windowSegments inw (done ++ before) unions order)
          pushed ∧
        (windowAggLoop (fun k r w => some (f k r w)) 0 (before ++ (order, row) :: after) iters window
            output)[output.length + before.length]? =
          some (some (f order row (batchWindow range excludeCurrentTime order row pushed))) := by
  -- one round per earlier instance row, then the round of the row itself
  induction before with
  | nil =>
    intro done iters window hist last output h hasc hlast
    have hdone : ∀ e ∈ done, e.1 < order := fun e he =>
      (pairwise_append.mp hasc).2.2 e (by simpa using he) (order, row) (by simp)
    obtain ⟨window', pushed, hpush, hinv⟩ := h.push hr hsorted hbound
      (fun k r w => some (f k r w)) (hlast (order, row) (by simp)) horder
    obtain ⟨window'', hist', hproject, -⟩ := hinv.project hr f row hdone horder
    refine ⟨pushed, by simpa using hinv.merge, ?_⟩
    rw [nil_append, windowAggLoop, hpush]
    dsimp only
    rw [hproject]
    obtain ⟨rest, hrest⟩ := isPrefix_windowAggLoop (fun k r w => some (f k r w)) 0 after
      (unions.map (List.filter fun e => decide (order ≤ e.1))) window''
      (output ++ [some (f order row (batchWindow range excludeCurrentTime order row pushed))])
    rw [← hrest]
    simp
  | cons e before ih =>
    intro done iters window hist last output h hasc hlast
    have hdone : ∀ d ∈ done, d.1 < e.1 := by
      rw [append_assoc] at hasc
      exact fun d hd => (pairwise_append.mp hasc).2.2 d hd e (by simp)
    have hafter : ∀ d ∈ before ++ [(order, row)], e.1 ≤ d.1 := by
      rw [append_assoc] at hasc
      exact fun d hd => Nat.le_of_lt
        ((pairwise_cons.mp (pairwise_append.mp hasc).2.1).1 d hd)
    have he : e.1 < 2 ^ 63 :=
      Nat.lt_of_le_of_lt (hafter (order, row) (by simp)) horder
    obtain ⟨window', pushed, hpush, hinv⟩ := h.push hr hsorted hbound
      (fun k r w => some (f k r w)) (hlast e (by simp)) he
    obtain ⟨window'', hist', hproject, hinv'⟩ := hinv.project hr f e.2 hdone he
    obtain ⟨rows, hrows, hget⟩ := ih (done ++ [(e.1, e.2)]) _ window'' hist' e.1
      (output ++ [some (f e.1 e.2 (batchWindow range excludeCurrentTime e.1 e.2 pushed))]) hinv'
      (by simpa using hasc) hafter
    refine ⟨rows, by simpa using hrows, ?_⟩
    rw [cons_append, windowAggLoop, hpush]
    dsimp only
    rw [hproject, ← hget]
    congr 1
    simp only [length_append, length_cons, length_nil]
    omega

end Loop

/-- Batch mode: the window of the instance row `(order, row)` is the frame's cut
of that row in front of the stable merge of the earlier instance rows and the
union rows before it. -/
theorem getElem?_runWindowAggOnKey {range} (hr : range.EndsAtCurrent)
    (excludeCurrentTime inw : Bool) (f : Nat → Row → List (Entry Row) → Out)
    {before after : List (Entry Row)} {order row unionSegments}
    (hasc : (before ++ [(order, row)]).Pairwise fun x y => x.1 < y.1) (horder : order < 2 ^ 63)
    (hsorted : ∀ segment ∈ unionSegments, (segment.getD []).Pairwise fun x y => x.1 ≤ y.1)
    (hbound : ∀ segment ∈ unionSegments, ∀ e ∈ segment.getD [], e.1 < 2 ^ 63) :
    ∃ hist,
      IsStableMerge Prod.fst (fun a b => a ≤ b)
        (windowSegments inw before (unionSegments.map fun segment => segment.getD []) order) hist ∧
      (runWindowAggOnKey (fun k r w => some (f k r w)) range excludeCurrentTime inw 0
          (before ++ (order, row) :: after) unionSegments [])[before.length]? =
        some (some (f order row (batchWindow range excludeCurrentTime order row hist))) := by
  have hsorted' : ∀ seg ∈ unionSegments.map (fun segment => segment.getD []),
      KeySorted Prod.fst (fun a b => a ≤ b) seg := by
    intro seg hseg
    obtain ⟨segment, hmem, rfl⟩ := List.mem_map.mp hseg
    exact hsorted segment hmem
  have hbound' : ∀ e ∈ (unionSegments.map fun segment => segment.getD []).flatten,
      e.1 < 2 ^ 63 := by
    intro e he
    obtain ⟨seg, hseg, he⟩ := mem_flatten.mp he
    obtain ⟨segment, hmem, rfl⟩ := List.mem_map.mp hseg
    exact hbound segment hmem e he
  obtain ⟨hist, hmerge, hget⟩ := AggInv.getElem?_windowAggLoop hr hsorted' hbound' f row after horder
    before [] _ _ [] 0 [] (AggInv.new range excludeCurrentTime inw _) hasc
    (fun _ _ => Nat.zero_le _)
  exact ⟨hist, hmerge, by simpa [runWindowAggOnKey] using hget⟩

end HybridSE.Vm
