import HybridSE.Lib.KWayMerge
import HybridSE.Vm.WindowSound

/-!
# HybridSE.Vm.IteratorStatus

The iterators over union segments: `IteratorStatus` of `src/vm/runner.h` and its
two functions that choose the segment to read next.

An iterator is the list of entries it has still to deliver, and its status is
read off that list. `PickIteratorWithMininumKey` takes the first of the segments
with the smallest head key and `PickIteratorWithMaximizeKey` the last of those
with the largest one. Both are `Lib.Picks`, so the loops that use them are k-way
merges.
-/

namespace HybridSE.Vm

open HybridSE.Lib List

variable {Row : Type*}

/-- `IteratorStatus`. -/
structure IteratorStatus where
  isValid : Bool
  key : Nat
  deriving DecidableEq, Repr

namespace IteratorStatus

/-- The status of an iterator: invalid at the end, else the key it stands at. -/
def ofIter : List (Entry Row) → IteratorStatus
  | [] => { isValid := false, key := 0 }
  | e :: _ => { isValid := true, key := e.1 }

/-- The loop of the two pick functions: `minUnionPos` and `minUnionOrder` move
to a valid status whose key is `better`. -/
def pickLoop (better : Nat → Nat → Bool) :
    List IteratorStatus → (i : Nat) → (minUnionPos : Option Nat) → (minUnionOrder : Nat) →
      Option Nat
  | [], _, minUnionPos, _ => minUnionPos
  | status :: rest, i, minUnionPos, minUnionOrder =>
    if status.isValid && better status.key minUnionOrder then
      pickLoop better rest (i + 1) (some i) status.key
    else pickLoop better rest (i + 1) minUnionPos minUnionOrder

/-- `IteratorStatus::PickIteratorWithMininumKey`; `-1` is `none`. -/
def pickIteratorWithMininumKey (statusList : List IteratorStatus) : Option Nat :=
  pickLoop (fun key order => decide (key < order)) statusList 0 none (2 ^ 64 - 1)

/-- `IteratorStatus::PickIteratorWithMaximizeKey`; `-1` is `none`. -/
def pickIteratorWithMaximizeKey (statusList : List IteratorStatus) : Option Nat :=
  pickLoop (fun key order => decide (order ≤ key)) statusList 0 none 0

/-! ### What the loop picks -/

/-- The comparisons of the two pick functions. -/
structure IsBetter (better : Nat → Nat → Bool) : Prop where
  trans : ∀ a b c, better a b = true → better b c = true → better a c = true
  neg_trans : ∀ a b c, better a b = true → better c b = false → better a c = true

/-- The loop variables after the statuses `seen`: nothing valid was better than
the initial order, or the chosen status beats those before it and is not beaten
by those after it. -/
def PickInv (better : Nat → Nat → Bool) (init : Nat) (seen : List IteratorStatus) :
    Option Nat → Nat → Prop
  | none, order => order = init ∧ ∀ s ∈ seen, s.isValid = true → better s.key init = false
  | some i, order => ∃ before s after, seen = before ++ s :: after ∧ before.length = i ∧
      s.isValid = true ∧ s.key = order ∧
      (∀ t ∈ before, t.isValid = true → better order t.key = true) ∧
      ∀ t ∈ after, t.isValid = true → better t.key order = false

section PickLoop

variable {better : Nat → Nat → Bool} {init : Nat}

/-- A better status is better than all that were seen. -/
theorem PickInv.better_all (hb : IsBetter better) {seen pos order}
    (h : PickInv better init seen pos order) {key} (hkey : better key order = true) :
    ∀ t ∈ seen, t.isValid = true → better key t.key = true := by
  intro t ht hvalid
  cases pos with
  | none =>
    obtain ⟨rfl, hnone⟩ := h
    exact hb.neg_trans _ _ _ hkey (hnone t ht hvalid)
  | some i =>
    obtain ⟨before, s, after, rfl, -, -, rfl, hbefore, hafter⟩ := h
    rcases mem_append.mp ht with ht | ht
    · exact hb.trans _ _ _ hkey (hbefore t ht hvalid)
    · rcases mem_cons.mp ht with rfl | ht
      · exact hkey
      · exact hb.neg_trans _ _ _ hkey (hafter t ht hvalid)

/-- A status that is invalid or not better changes nothing. -/
theorem PickInv.skip {seen pos order} (h : PickInv better init seen pos order) {s}
    (hs : s.isValid = true → better s.key order = false) :
    PickInv better init (seen ++ [s]) pos order := by
  cases pos with
  | none =>
    obtain ⟨rfl, hnone⟩ := h
    refine ⟨rfl, fun t ht => ?_⟩
    rcases mem_append.mp ht with ht | ht
    · exact hnone t ht
    · rw [mem_singleton.mp ht]
      exact hs
  | some i =>
    obtain ⟨before, t, after, rfl, hlen, hvalid, hkey, hbefore, hafter⟩ := h
    refine ⟨before, t, after ++ [s], by simp, hlen, hvalid, hkey, hbefore, fun u hu => ?_⟩
    rcases mem_append.mp hu with hu | hu
    · exact hafter u hu
    · rw [mem_singleton.mp hu]
      exact hs

/-- The loop keeps its invariant to the end. -/
theorem pickLoop_inv (hb : IsBetter better) (rest : List IteratorStatus) :
    ∀ (seen : List IteratorStatus) (pos : Option Nat) (order : Nat),
      PickInv better init seen pos order →
      ∃ order', PickInv better init (seen ++ rest)
        (pickLoop better rest seen.length pos order) order' := by
  induction rest with
  | nil =>
    intro seen pos order h
    rw [append_nil]
    exact ⟨order, h⟩
  | cons s rest ih =>
    intro seen pos order h
    have hlen : (seen ++ [s]).length = seen.length + 1 := by simp
    rw [append_cons, pickLoop, ← hlen]
    by_cases hs : (s.isValid && better s.key order) = true
    · rw [if_pos hs]
      rw [Bool.and_eq_true] at hs
      refine ih (seen ++ [s]) (some seen.length) s.key ?_
      exact ⟨seen, s, [], rfl, rfl, hs.1, rfl, h.better_all hb hs.2, by simp⟩
    · rw [if_neg hs]
      refine ih (seen ++ [s]) pos order (h.skip fun hvalid => ?_)
      simpa [hvalid] using hs

/-- An iterator with an entry left has a valid status. -/
theorem ofIter_valid {seg} {y : Entry Row} (hy : y ∈ seg.head?) :
    (ofIter seg).isValid = true ∧ (ofIter seg).key = y.1 := by
  cases seg with
  | nil => cases hy
  | cons e rest =>
    obtain rfl : e = y := by simpa using hy
    exact ⟨rfl, rfl⟩

/-- No pick: every iterator is at its end, if every key beats the initial order. -/
theorem pickLoop_eq_none (hb : IsBetter better) {segs : List (List (Entry Row))}
    (hinit : ∀ e ∈ segs.flatten, better e.1 init = true)
    (hpick : pickLoop better (segs.map ofIter) 0 none init = none) : segs.flatten = [] := by
  obtain ⟨order, hinv⟩ := pickLoop_inv hb (segs.map ofIter) [] none init ⟨rfl, by simp⟩
  rw [length_nil, hpick] at hinv
  refine flatten_eq_nil_iff.mpr fun seg hseg => ?_
  cases hs : seg with
  | nil => rfl
  | cons e rest =>
    have hfalse := hinv.2 (ofIter seg) (List.mem_map_of_mem hseg) (by rw [hs]; rfl)
    rw [hs] at hfalse hseg
    have htrue := hinit e (mem_flatten.mpr ⟨_, hseg, mem_cons_self⟩)
    rw [ofIter, htrue] at hfalse
    cases hfalse

/-- A pick: the iterators in front of it are beaten, those behind do not beat it. -/
theorem pickLoop_eq_some (hb : IsBetter better) {segs : List (List (Entry Row))} {i : Nat}
    (hpick : pickLoop better (segs.map ofIter) 0 none init = some i) :
    ∃ front x rest back, segs = front ++ (x :: rest) :: back ∧ front.length = i ∧
      (∀ seg ∈ front, ∀ y ∈ seg.head?, better x.1 y.1 = true) ∧
      (∀ seg ∈ back, ∀ y ∈ seg.head?, better y.1 x.1 = false) := by
  obtain ⟨order, hinv⟩ := pickLoop_inv hb (segs.map ofIter) [] none init ⟨rfl, by simp⟩
  rw [length_nil, hpick] at hinv
  obtain ⟨before, s, after, hmap, hlen, hvalid, hkey, hbefore, hafter⟩ := hinv
  obtain ⟨front, tl, rfl, rfl, htl⟩ := map_eq_append_iff.mp hmap
  obtain ⟨seg, back, rfl, rfl, rfl⟩ := map_eq_cons_iff.mp htl
  cases seg with
  | nil => cases hvalid
  | cons x rest =>
    subst hkey
    refine ⟨front, x, rest, back, rfl, by simpa using hlen, fun seg hseg y hy => ?_,
      fun seg hseg y hy => ?_⟩
    · obtain ⟨hv, hk⟩ := ofIter_valid hy
      have := hbefore (ofIter seg) (List.mem_map_of_mem hseg) hv
      rwa [hk] at this
    · obtain ⟨hv, hk⟩ := ofIter_valid hy
      have := hafter (ofIter seg) (List.mem_map_of_mem hseg) hv
      rwa [hk] at this

end PickLoop

/-- The iterator with the smallest key, the first one among equals. -/
theorem picks_mininumKey :
    Picks (fun e : Entry Row => e.1 < 2 ^ 64 - 1) Prod.fst (fun a b => a ≤ b) id
      (fun segs => pickIteratorWithMininumKey (segs.map ofIter)) := by
  have hb : IsBetter fun key order => decide (key < order) :=
    ⟨fun a b c => by simp only [decide_eq_true_eq]; omega,
      fun a b c => by simp only [decide_eq_true_eq, decide_eq_false_iff_not]; omega⟩
  intro segs hbound
  refine ⟨fun hnone => pickLoop_eq_none hb (fun e he => by simpa using hbound e he) hnone,
    fun i hsome => ?_⟩
  obtain ⟨front, x, rest, back, rfl, rfl, hfront, hback⟩ := pickLoop_eq_some hb hsome
  refine ⟨front, x, rest, back, by simp, rfl, by simp, fun seg hseg y hy => ?_,
    fun seg hseg y hy => ?_⟩
  · have := hfront seg hseg y hy
    simp only [decide_eq_true_eq] at this
    omega
  · simpa using hback seg hseg y hy

/-- The iterator with the largest key, the last one among equals. -/
theorem picks_maximizeKey :
    Picks (fun _ : Entry Row => True) Prod.fst (fun a b => b ≤ a) List.reverse
      (fun segs => pickIteratorWithMaximizeKey (segs.map ofIter)) := by
  have hb : IsBetter fun key order => decide (order ≤ key) :=
    ⟨fun a b c => by simp only [decide_eq_true_eq]; omega,
      fun a b c => by simp only [decide_eq_true_eq, decide_eq_false_iff_not]; omega⟩
  intro segs _
  refine ⟨fun hnone => ?_, fun i hsome => ?_⟩
  · have hnil := pickLoop_eq_none hb (fun e _ => by simp) hnone
    rw [flatten_eq_nil_iff] at hnil ⊢
    exact fun seg hseg => hnil seg (mem_reverse.mp hseg)
  obtain ⟨front, x, rest, back, rfl, rfl, hfront, hback⟩ := pickLoop_eq_some hb hsome
  refine ⟨back.reverse, x, rest, front.reverse, by simp, by simp, by simp,
    fun seg hseg y hy => ?_, fun seg hseg y hy => ?_⟩
  · have := hback seg (mem_reverse.mp hseg) y hy
    simp only [decide_eq_false_iff_not] at this
    omega
  · simpa using hfront seg (mem_reverse.mp hseg) y hy

end IteratorStatus

end HybridSE.Vm
