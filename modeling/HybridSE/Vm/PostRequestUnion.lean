import HybridSE.Codec.RowList
import HybridSE.Vm.WindowConsistency

/-!
# HybridSE.Vm.PostRequestUnion

`PostRequestUnionRunner` of `src/vm/runner.cc`: it puts the request row in front of a window
that was computed without it, by the `RequestUnionTableHandler` of `src/vm/mem_catalog.cc`.
`RequestUnionWindow` can put the row there itself.

The two use different keys for a request row with a negative order value, such as the -1
that stands for NULL: `RequestUnionWindow` uses zero, `PostRequestUnionRunner` the value as an
unsigned number. `postRequestUnion_same_iff`: the tables look the same when the order value
is not negative.
-/

namespace HybridSE.Vm

open HybridSE.Lib HybridSE.Codec

variable {σ τ R : Type*}

/-- `RequestUnionIterator`: the position in the window and `window_iter_start_`. -/
def requestUnionIterator (requestTs : Nat) (requestRow : R) (windowIter : Cursor σ R) :
    Cursor (σ × Bool) R where
  fresh := (windowIter.fresh, false)
  current := fun s => if s.2 then windowIter.current s.1 else some (requestTs, requestRow)
  next := fun s => if s.2 then (windowIter.next s.1, true) else (s.1, true)
  seek := fun key s =>
    if requestTs ≤ key then (windowIter.seekToFirst s.1, false) else (windowIter.seek key s.1, true)
  seekToFirst := fun s => (windowIter.seekToFirst s.1, false)
  left := fun s => windowIter.left s.1 + if s.2 then 0 else 1
  left_next s h := by
    obtain ⟨s, started⟩ := s
    cases started with
    | false => simp
    | true => simpa using windowIter.left_next s h

/-- `RequestUnionTableHandler`; it counts and indexes as `ListV` does. -/
def requestUnionTable [Inhabited R] (requestTs : Nat) (requestRow : R) (window : ListV σ R) :
    ListV (σ × Bool) R :=
  .ofIterator (requestUnionIterator requestTs requestRow window.getRawIterator)
    (requestUnionIterator requestTs requestRow window.getRawIterator)

/-- `MemTimeTableHandler` as a list: it counts and indexes its table directly. -/
def memTimeTable [Inhabited R] (table : List (Entry R)) : ListV (List (Entry R)) R where
  getIterator := .ofList table
  getRawIterator := .ofList table
  getCount := table.length
  elemAt := fun pos => ((table[pos]?).map Prod.snd).getD default

/-- `PostRequestUnionRunner::Run`: the order value becomes an unsigned key. -/
def postRequestUnion [Inhabited R] (ts : BitVec 64) (requestRow : R) (window : ListV σ R) :
    ListV (σ × Bool) R :=
  requestUnionTable ts.toNat requestRow window

/-! ### What the iterator shows -/

section Iterator

variable (requestTs : Nat) (requestRow : R) (windowIter : Cursor σ R)

theorem shown_requestUnionIterator_started (s : σ) :
    (requestUnionIterator requestTs requestRow windowIter).shown (s, true) =
      windowIter.shown s := by
  induction s using windowIter.induct with
  | done s hs =>
    rw [Cursor.shown_of_none hs, Cursor.shown_of_none]
    exact hs
  | move s e hs ih =>
    have hstarted : (requestUnionIterator requestTs requestRow windowIter).current (s, true) =
        some e := hs
    rw [Cursor.shown_of_some hs, Cursor.shown_of_some hstarted]
    exact congrArg _ ih

theorem shown_requestUnionIterator_request (s : σ) :
    (requestUnionIterator requestTs requestRow windowIter).shown (s, false) =
      (requestTs, requestRow) :: windowIter.shown s := by
  exact congrArg _ (shown_requestUnionIterator_started requestTs requestRow windowIter s)

end Iterator

/-! ### The tables compared -/

/-- Two tables look the same: from the start, from any key, by count and by position. -/
structure SameTable (a : ListV σ R) (b : ListV τ R) : Prop where
  first : ∀ s t, a.getIterator.shown (a.getIterator.seekToFirst s) =
    b.getIterator.shown (b.getIterator.seekToFirst t)
  seek : ∀ key s t, a.getIterator.shown (a.getIterator.seek key s) =
    b.getIterator.shown (b.getIterator.seek key t)
  count : a.getCount = b.getCount
  elems : ∀ i, a.elemAt i = b.elemAt i

variable [Inhabited R]

/-- The request row in front of a window is the table with that row in front, when the keys
of the row agree. -/
theorem sameTable_requestUnionTable_iff (requestTs key : Nat) (requestRow : R)
    (window : List (Entry R)) :
    SameTable (requestUnionTable requestTs requestRow (memTimeTable window))
        (memTimeTable ((key, requestRow) :: window)) ↔ requestTs = key := by
  have hshown (s : List (Entry R)) :
      (requestUnionIterator requestTs requestRow (.ofList window)).shown (s, false) =
        (requestTs, requestRow) :: s := by
    rw [shown_requestUnionIterator_request, Cursor.shown_ofList]
  constructor
  · intro h
    have hfirst : (requestTs, requestRow) :: window = (key, requestRow) :: window := by
      rw [← hshown window]
      refine (h.first (window, false) window).trans ?_
      exact Cursor.shown_ofList _ _
    exact congrArg Prod.fst (List.cons.inj hfirst).1
  · rintro rfl
    refine ⟨fun s t => ?_, fun key s t => ?_, ?_, fun i => ?_⟩
    · exact (hshown window).trans (Cursor.shown_ofList _ _).symm
    · refine Eq.trans ?_ (Cursor.shown_ofList _ _).symm
      change (requestUnionIterator requestTs requestRow (.ofList window)).shown
        (if requestTs ≤ key then (window, false) else (seek key window, true)) =
          seek key ((requestTs, requestRow) :: window)
      by_cases hle : requestTs ≤ key
      · have hstop : ¬ key < requestTs := by omega
        rw [if_pos hle, hshown, seek, List.dropWhile_cons_of_neg (by simpa using hstop)]
      · have hskip : key < requestTs := by omega
        rw [if_neg hle, shown_requestUnionIterator_started, Cursor.shown_ofList]
        exact (List.dropWhile_cons_of_pos (by simpa using hskip)).symm
    · refine (ListV.getCount_ofIterator _ _).trans ?_
      exact congrArg List.length (hshown window)
    · refine (ListV.elemAt_ofIterator _ _ i).trans ?_
      exact congrArg (fun rows => ((rows[i]?).map Prod.snd).getD default) (hshown window)

/-- The key of the request row in `RequestUnionWindow` is the unsigned value of its order value
when that is not negative. -/
theorem requestKey_eq_iff (ts : BitVec 64) :
    ts.toNat = (if 0 < ts.toInt then ts.toInt.toNat else 0) ↔ 0 ≤ ts.toInt := by
  rw [BitVec.toInt_eq_toNat_cond]
  split <;> split <;> omega

/-- The request row put in front of the window afterwards gives the table that has it from
the start, when the order value is not negative. -/
theorem postRequestUnion_same_iff (request : R) (unionSegments : List (Option (List (Entry R))))
    (range : WindowRange) (excludeCurrentTime : Bool) (ts : BitVec 64) :
    SameTable
        (postRequestUnion ts request
          (memTimeTable
            (requestUnionWindow request unionSegments ts.toInt range false excludeCurrentTime)))
        (memTimeTable
          (requestUnionWindow request unionSegments ts.toInt range true excludeCurrentTime)) ↔
      0 ≤ ts.toInt := by
  rw [← requestKey_eq_iff]
  exact sameTable_requestUnionTable_iff _ _ _ _

/-- A request row whose order value is NULL: `PostRequestUnionRunner` shows it with the greatest
key and `RequestUnionWindow` with key zero. -/
theorem not_sameTable_null :
    ¬ SameTable
      (postRequestUnion (-1) 7
        (memTimeTable
          (requestUnionWindow 7 [some [(500, 3)]] (-1 : BitVec 64).toInt lastSecond false false)))
      (memTimeTable
        (requestUnionWindow 7 [some [(500, 3)]] (-1 : BitVec 64).toInt lastSecond true false)) := by
  intro h
  exact absurd (h.first ([], false) []) (by decide)

end HybridSE.Vm
