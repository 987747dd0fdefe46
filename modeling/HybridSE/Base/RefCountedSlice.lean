import Mathlib.Algebra.Ring.Nat
import Mathlib.Data.List.Nodup

/-!
# HybridSE.Base.RefCountedSlice

Model of `RefCountedSlice` (`src/base/fe_slice.cc`, `include/base/fe_slice.h`) and of the slices in
a `Row` (`src/codec/row.cc`), over every sequence of constructions, assignments and destructions.

What the slices hold does not depend on the counters (`Objects`); the heap has the counters and the
logs of what was freed. The counter of a buffer is the number of the slices that own it (`Inv`),
whatever the order of the calls: an assignment releases before it acquires, but the slice that it
copies keeps its counter alive. A slice without ownership is not counted, and a counter is an
`int`: these are the two limits (`freedOnce_iff`).
-/

namespace HybridSE.Base

open List Option

/-- `RefCountedSlice`: the buffer that it refers to (0 is `nullptr`), and its counter. -/
structure Slice where
  data : Nat
  refCnt : Option Nat
  deriving DecidableEq

/-- The live slices by their addresses, and the managed buffers: `managed[c]` is that of the
counter `c`. -/
structure Objects where
  slices : List (Nat × Slice) := []
  managed : List Nat := []

/-- The counters that are allocated, and the counters that were deleted, each with the buffer that
was freed just before it. -/
structure Heap where
  counters : Nat → Option Int := fun _ => none
  freed : List (Nat × Nat) := []

/-- A call on slices; `x` is the address of the slice that is made or changed. -/
inductive SliceCall
  | createManaged (x buf : Nat)
  | create (x buf : Nat)
  | copy (x y : Nat)
  | move (x y : Nat)
  | assign (x y : Nat)
  | moveAssign (x y : Nat)
  | destroy (x : Nat)

/-- `RefCountedSlice::Release`. Reading a counter that was deleted fails. -/
def Heap.release (h : Heap) (slice : Slice) : Option Heap :=
  match slice.refCnt with
  | none => some h
  | some c => do
    let cnt ← h.counters c
    if cnt - 1 = 0 then
      return ⟨Function.update h.counters c none, (c, slice.data) :: h.freed⟩
    else return { h with counters := Function.update h.counters c (some (cnt - 1)) }

/-- The largest value of an `int`. -/
def maxCount : Nat := 2 ^ 31 - 1

/-- The counter in `RefCountedSlice::Update`; an overflow of the `int` fails. -/
def Heap.acquire (h : Heap) (slice : Slice) : Option Heap :=
  match slice.refCnt with
  | none => some h
  | some c => do
    let cnt ← h.counters c
    if cnt + 1 ≤ maxCount then
      return { h with counters := Function.update h.counters c (some (cnt + 1)) }
    else none

namespace Objects

def get (o : Objects) (x : Nat) : Option Slice := o.slices.lookup x

def remove (o : Objects) (x : Nat) : List (Nat × Slice) := o.slices.eraseP fun e => x == e.1

/-- The live slices without their addresses. -/
def live (o : Objects) : List Slice := o.slices.map Prod.snd

/-- The calls that a program can make: what they make is not there yet, what they use is, and a
managed buffer is fresh. -/
def allows (o : Objects) : SliceCall → Bool
  | .createManaged x buf =>
    (o.get x).isNone && buf != 0 && !o.managed.contains buf && o.live.all (·.data != buf)
  | .create x _ => (o.get x).isNone
  | .copy x y | .move x y => (o.get x).isNone && (o.get y).isSome
  | .assign x y | .moveAssign x y => (o.get x).isSome && (o.get y).isSome
  | .destroy x => (o.get x).isSome

/-- What the slices hold after a call. -/
def apply (o : Objects) : SliceCall → Objects
  | .createManaged x buf => ⟨(x, ⟨buf, some o.managed.length⟩) :: o.slices, o.managed ++ [buf]⟩
  | .create x buf => { o with slices := (x, ⟨buf, none⟩) :: o.slices }
  | .copy x y | .move x y => { o with slices := ((o.get y).map (x, ·)).toList ++ o.slices }
  | .assign x y | .moveAssign x y =>
    if y = x then o else { o with slices := ((o.get y).map (x, ·)).toList ++ o.remove x }
  | .destroy x => { o with slices := o.remove x }

end Objects

/-- What a call does to the heap. -/
def Heap.exec (h : Heap) (o : Objects) : SliceCall → Option Heap
  | .createManaged _ _ =>
    some { h with counters := Function.update h.counters o.managed.length (some 1) }
  | .create _ _ => some h
  | .copy _ y | .move _ y => o.get y >>= h.acquire
  | .assign x y | .moveAssign x y =>
    if y = x then some h else do (← o.get x >>= h.release).acquire (← o.get y)
  | .destroy x => o.get x >>= h.release

/-- The objects after one more call; a call that no program can make is left out. -/
def Objects.step (o : Objects) (call : SliceCall) : Objects :=
  if o.allows call then o.apply call else o

/-- The objects after some calls. -/
def objects (calls : List SliceCall) : Objects := calls.foldl Objects.step {}

/-- The objects and the heap after one more call. -/
def stepHeap (s : Objects × Heap) (call : SliceCall) : Option (Objects × Heap) :=
  if s.1.allows call then (s.2.exec s.1 call).map (s.1.apply call, ·) else some s

/-- The objects and the heap after some calls. -/
def runSlices (calls : List SliceCall) : Option (Objects × Heap) :=
  calls.foldlM stepHeap ({}, {})

/-! ### Rows -/

/-- A call on slices or on rows. A row is the addresses of `slice_` and of `slices_`. -/
inductive Call
  | slice (call : SliceCall)
  | copyRow (x y : List Nat)
  | joinRows (x : List Nat) (majorSlices : Nat) (major : List Nat) (secondarySlices : Nat)
      (secondary : List Nat)
  | append (x y : List Nat)
  | relocate (x y : List Nat)
  | destroyRow (x : List Nat)

/-- The calls on slices of one call. `Row(s, n, secondary)` is `joinRows` of the one slice; `x` in
`append` are the places at the end of `slices_`, and `relocate` is what `slices_` does when its
storage grows. -/
def Call.steps : Call → List SliceCall
  | .slice call => [call]
  | .copyRow x y | .append x y => zipWith .copy x y
  | .joinRows x majorSlices major secondarySlices secondary =>
    zipWith .copy (x.take 1) major ++ (x.drop 1).map (.create · 0) ++
      zipWith .assign ((x.drop 1).take (majorSlices - 1)) (major.drop 1) ++
      zipWith .assign ((x.drop majorSlices).take secondarySlices) secondary
  | .relocate x y => zipWith .move x y ++ y.map .destroy
  | .destroyRow x => x.map .destroy

/-! ### Freed once -/

/-- Each managed buffer and its counter are freed once, when no slice refers to it any more. -/
structure Safe (o : Objects) (h : Heap) : Prop where
  once : (h.freed.map Prod.fst).Nodup ∧ (h.freed.map Prod.snd).Nodup
  freed_iff : ∀ c buf, (c, buf) ∈ h.freed ↔
    o.managed[c]? = some buf ∧ ∀ slice ∈ o.live, slice.data ≠ buf

/-- No call of a program fails, and after each of them the heap is safe. -/
def FreedOnce (prog : List Call) : Prop :=
  ∀ n, ∃ o h, runSlices ((prog.flatMap Call.steps).take n) = some (o, h) ∧ Safe o h

/-- How many slices have the counter `c`. -/
def refs (slices : List Slice) (c : Nat) : Nat := slices.countP (·.refCnt = some c)

/-- No counter has more slices than an `int` can count. -/
def Bounded (slices : List Slice) : Prop := ∀ c, refs slices c ≤ maxCount

/-- No slice without ownership refers to a managed buffer that no slice owns. -/
def Objects.Covered (o : Objects) : Prop :=
  ∀ slice ∈ o.live, ∀ c : Nat, slice.refCnt = none → o.managed[c]? = some slice.data →
    refs o.live c ≠ 0

/-! ### The invariant -/

theorem refs_cons {slice slices c} :
    refs (slice :: slices) c = refs slices c + if slice.refCnt = some c then 1 else 0 := by
  simp [refs, countP_cons]

theorem refs_cons_none {slice slices} (hs : slice.refCnt = none) :
    refs (slice :: slices) = refs slices := by
  funext c
  simp [refs_cons, hs]

theorem refs_eq_zero_iff {slices c} :
    refs slices c = 0 ↔ ∀ slice ∈ slices, slice.refCnt ≠ some c := by
  simp [refs]

/-- The counters are right when `cnt c` slices have the counter `c`. -/
structure Inv (managed : List Nat) (cnt : Nat → Nat) (h : Heap) : Prop where
  counters : ∀ c, h.counters c = if cnt c = 0 then none else some (cnt c : Int)
  bounded : ∀ c, cnt c ≤ maxCount
  lt : ∀ c, cnt c ≠ 0 → c < managed.length
  nodup : h.freed.Nodup
  mem_freed : ∀ c buf, (c, buf) ∈ h.freed ↔ managed[c]? = some buf ∧ cnt c = 0

namespace Inv

variable {managed : List Nat} {h : Heap} {slice : Slice} {slices : List Slice}

theorem init : Inv [] (refs []) {} := by
  constructor <;> simp [refs]

/-- A counter that stays above zero. -/
theorem setCounter {cnt cnt' : Nat → Nat} {c} (hinv : Inv managed cnt h)
    (hother : ∀ d, c ≠ d → cnt' d = cnt d) (hc : cnt c ≠ 0) (hc' : cnt' c ≠ 0)
    (hle : cnt' c ≤ maxCount) :
    Inv managed cnt' { h with counters := Function.update h.counters c (some (cnt' c : Int)) } := by
  obtain ⟨hcnt, hbound, hlt, hnodup, hmem⟩ := hinv
  have hsplit : ∀ d, d = c ∨ d ≠ c ∧ cnt' d = cnt d := by grind
  refine ⟨fun d => ?_, fun d => ?_, fun d => ?_, hnodup, fun d => ?_⟩ <;>
    obtain rfl | ⟨hd, heq⟩ := hsplit d <;> simp_all

theorem release (hinv : Inv managed (refs (slice :: slices)) h)
    (hown : ∀ c ∈ slice.refCnt, managed[c]? = some slice.data) :
    ∃ h', h.release slice = some h' ∧ Inv managed (refs slices) h' := by
  unfold Heap.release
  cases hs : slice.refCnt with
  | none => exact ⟨h, rfl, refs_cons_none hs ▸ hinv⟩
  | some c =>
      have hrefs : ∀ d, refs (slice :: slices) d = refs slices d + if c = d then 1 else 0 := by
        simp [refs_cons, hs]
      have hother : ∀ d, c ≠ d → refs slices d = refs (slice :: slices) d := by simp_all
      have hread : h.counters c = some (refs slices c + 1 : Int) := by simp [hinv.counters, hrefs]
      simp only [hread, Option.bind_eq_bind, bind_some, Int.add_sub_cancel, Int.natCast_eq_zero]
      by_cases h0 : refs slices c = 0
      · obtain ⟨hcnt, hbound, hlt, hnodup, hmem⟩ := hinv
        have hsplit : ∀ d, d = c ∨ d ≠ c ∧ refs (slice :: slices) d = refs slices d := by grind
        refine ⟨_, by rw [if_pos h0]; rfl, fun d => ?_, fun d => ?_, fun d => ?_, ?_, fun d => ?_⟩
        · obtain rfl | ⟨hd, heq⟩ := hsplit d <;> simp_all
        · exact Nat.le_trans (hrefs d ▸ Nat.le_add_right _ _) (hbound d)
        · obtain rfl | ⟨hd, heq⟩ := hsplit d <;> simp_all
        · simp [hnodup, hmem, hrefs]
        · obtain rfl | ⟨hd, heq⟩ := hsplit d <;> simp_all [eq_comm]
      · refine ⟨_, if_neg h0, hinv.setCounter hother (by simp [hrefs]) h0 ?_⟩
        exact Nat.le_trans (hrefs c ▸ Nat.le_add_right _ _) (hinv.bounded c)

theorem acquire_of_some {c n} (hs : slice.refCnt = some c) (hread : h.counters c = some n) :
    h.acquire slice = if n + 1 ≤ maxCount then
      some { h with counters := Function.update h.counters c (some (n + 1)) } else none := by
  simp [Heap.acquire, hs, hread]

theorem acquire (hinv : Inv managed (refs slices) h) (hmem : slice ∈ slices) :
    (Bounded (slice :: slices) → ∃ h', h.acquire slice = some h') ∧
      ∀ h', h.acquire slice = some h' → Inv managed (refs (slice :: slices)) h' := by
  obtain hs | ⟨c, hs⟩ := Option.eq_none_or_eq_some slice.refCnt
  · simpa [Heap.acquire, hs, refs_cons_none hs] using hinv
  · have hself : refs (slice :: slices) c = refs slices c + 1 := by simp [refs_cons, hs]
    have hc : refs slices c ≠ 0 := by
      simpa [refs] using ⟨slice, hmem, hs⟩
    rw [acquire_of_some hs (n := refs slices c) (by simp [hinv.counters, hc])]
    constructor
    · intro hb
      refine ⟨_, if_pos ?_⟩
      exact_mod_cast hself ▸ hb c
    · intro h' heq
      obtain ⟨hle, heq⟩ := Option.ite_none_right_eq_some.mp heq
      have hnew : Inv managed (refs (slice :: slices)) _ :=
        hinv.setCounter (c := c) (by simp_all [refs_cons]) hc (by simp [hself])
          (by rw [hself]; exact_mod_cast hle)
      rw [hself] at hnew
      exact Option.some.inj heq ▸ hnew

theorem createManaged {buf} (hinv : Inv managed (refs slices) h) :
    Inv (managed ++ [buf]) (refs (⟨buf, some managed.length⟩ :: slices))
      { h with counters := Function.update h.counters managed.length (some 1) } := by
  obtain ⟨hcnt, hbound, hlt, hnodup, hmem⟩ := hinv
  have hzero : refs slices managed.length = 0 := by
    by_contra h0
    exact Nat.lt_irrefl _ (hlt _ h0)
  have hnew : refs (⟨buf, some managed.length⟩ :: slices) managed.length = 1 := by
    simp [refs_cons, hzero]
  have hsplit : ∀ c, c = managed.length ∨ c ≠ managed.length ∧
      refs (⟨buf, some managed.length⟩ :: slices) c = refs slices c := by
    intro c
    simpa [refs_cons, eq_comm] using em _
  refine ⟨fun c => ?_, fun c => ?_, fun c => ?_, hnodup, fun c b => ?_⟩ <;>
    obtain rfl | ⟨hc, heq⟩ := hsplit c
  · simp [hnew]
  · simp [hc, heq, hcnt]
  · simp [hnew, maxCount]
  · exact heq ▸ hbound c
  · simp
  · simpa [heq] using fun h0 => Nat.lt_succ_of_lt (hlt c h0)
  · simp [hnew, hmem]
  · grind

end Inv

/-! ### Runs -/

theorem perm_remove {x slice} {slices : List (Nat × Slice)} (h : slices.lookup x = some slice) :
    slices ~ (x, slice) :: slices.eraseP fun e => x == e.1 := by
  induction slices with
  | nil => simp at h
  | cons e rest ih =>
      obtain ⟨y, s⟩ := e
      by_cases hx : x = y
      · simp_all
      · have := ih (by simpa [lookup_cons, beq_false_of_ne hx] using h)
        simpa [hx] using (this.cons _).trans (.swap _ _ _)

/-- The counters are right for the live slices, which own what they count. -/
structure Objects.Inv (o : Objects) (h : Heap) : Prop where
  nodup : o.managed.Nodup
  owned : ∀ slice ∈ o.live, ∀ c ∈ slice.refCnt, o.managed[c]? = some slice.data
  inv : Base.Inv o.managed (refs o.live) h

namespace Objects.Inv

variable {o : Objects} {h : Heap} {x y : Nat}

theorem live_perm {slice} (hx : o.get x = some slice) :
    o.live ~ slice :: (o.remove x).map Prod.snd :=
  (perm_remove hx).map Prod.snd

theorem release {slice} (hinv : o.Inv h) (hx : o.get x = some slice) :
    ∃ h', h.release slice = some h' ∧ Objects.Inv { o with slices := o.remove x } h' := by
  have hp := live_perm hx
  have hcnt : refs o.live = refs (slice :: (o.remove x).map Prod.snd) :=
    funext fun c => hp.countP_eq _
  obtain ⟨h', heq, hinv'⟩ :=
    (hcnt ▸ hinv.inv).release (hinv.owned _ (hp.mem_iff.mpr mem_cons_self))
  exact ⟨h', heq, hinv.nodup, fun s hs => hinv.owned s (hp.mem_iff.mpr (mem_cons_of_mem _ hs)),
    hinv'⟩

/-- A call keeps the invariant, and it fails only when it has too many slices count. -/
def KeptBy (o : Objects) (h : Heap) (call : SliceCall) : Prop :=
  (Bounded (o.apply call).live → ∃ h', h.exec o call = some h') ∧
    ∀ h', h.exec o call = some h' → (o.apply call).Inv h'

theorem acquire {slice} (hinv : o.Inv h) (hmem : slice ∈ o.live) :
    (Bounded (Objects.live { o with slices := (x, slice) :: o.slices }) →
        ∃ h', h.acquire slice = some h') ∧
      ∀ h', h.acquire slice = some h' →
        Objects.Inv { o with slices := (x, slice) :: o.slices } h' := by
  obtain ⟨hsome, hkept⟩ := hinv.inv.acquire hmem
  refine ⟨hsome, fun h' heq => ⟨hinv.nodup, fun s hs => ?_, hkept h' heq⟩⟩
  obtain rfl | hs := mem_cons.mp hs
  · exact hinv.owned _ hmem
  · exact hinv.owned s hs

theorem createManaged {buf} (hinv : o.Inv h) (hbuf : buf ∉ o.managed) :
    (o.apply (.createManaged x buf)).Inv
      { h with counters := Function.update h.counters o.managed.length (some 1) } := by
  refine ⟨?_, fun s hs c hc => ?_, hinv.inv.createManaged⟩
  · simpa [Objects.apply, nodup_append] using
      ⟨hinv.nodup, fun a ha => ne_of_mem_of_not_mem ha hbuf⟩
  obtain rfl | hs := mem_cons.mp hs
  · cases hc
    exact getElem?_concat_length
  · have heq := hinv.owned s hs c hc
    exact (getElem?_append_left (List.getElem?_eq_some_iff.mp heq).1).trans heq

theorem copy (hinv : o.Inv h) (hy : (o.get y).isSome) : KeptBy o h (.copy x y) := by
  obtain ⟨slice, hy⟩ := isSome_iff_exists.mp hy
  have hmem : slice ∈ o.live := (live_perm hy).mem_iff.mpr mem_cons_self
  simpa [KeptBy, Heap.exec, Objects.apply, hy] using hinv.acquire (x := x) hmem

theorem assign (hinv : o.Inv h) (hx : (o.get x).isSome) (hy : (o.get y).isSome) :
    KeptBy o h (.assign x y) := by
  obtain ⟨old, hx⟩ := isSome_iff_exists.mp hx
  obtain ⟨slice, hy⟩ := isSome_iff_exists.mp hy
  by_cases hxy : y = x
  · simpa [KeptBy, Heap.exec, Objects.apply, hxy] using hinv
  · obtain ⟨h', heq, hinv'⟩ := hinv.release hx
    -- the slice that is copied is still there
    have hmem : (y, slice) ∈ (x, old) :: o.remove x :=
      (perm_remove hx).mem_iff.mp ((perm_remove hy).mem_iff.mpr mem_cons_self)
    have hlive : slice ∈ Objects.live { o with slices := o.remove x } :=
      mem_map_of_mem (mem_of_ne_of_mem (by simp [hxy]) hmem)
    simpa [KeptBy, Heap.exec, Objects.apply, hy, hx, hxy, heq] using hinv'.acquire (x := x) hlive

theorem exec {call} (hinv : o.Inv h) (hallows : o.allows call = true) : KeptBy o h call := by
  cases call with
  | createManaged x buf =>
      have hbuf : buf ∉ o.managed := by
        simp [Objects.allows] at hallows
        tauto
      simpa [KeptBy, Heap.exec] using hinv.createManaged hbuf
  | create x buf =>
      have := @refs_cons_none ⟨buf, none⟩ o.live rfl
      refine ⟨fun _ => ⟨h, rfl⟩, fun h' heq => ?_⟩
      cases heq
      exact ⟨hinv.nodup, by simpa [Objects.apply, Objects.live] using hinv.owned, this ▸ hinv.inv⟩
  | copy x y => exact hinv.copy (Bool.and_eq_true_iff.mp hallows).2
  | move x y => exact hinv.copy (Bool.and_eq_true_iff.mp hallows).2
  | assign x y =>
      obtain ⟨hx, hy⟩ := Bool.and_eq_true_iff.mp hallows
      exact hinv.assign hx hy
  | moveAssign x y =>
      obtain ⟨hx, hy⟩ := Bool.and_eq_true_iff.mp hallows
      exact hinv.assign hx hy
  | destroy x =>
      obtain ⟨slice, hx⟩ := isSome_iff_exists.mp hallows
      obtain ⟨h', heq, hinv'⟩ := hinv.release hx
      simpa [KeptBy, Heap.exec, Objects.apply, hx, heq] using hinv'

end Objects.Inv

theorem stepHeap_inv {o : Objects} {h : Heap} (hinv : o.Inv h) (call : SliceCall) :
    (Bounded (o.step call).live → ∃ s, stepHeap (o, h) call = some s) ∧
      ∀ s, stepHeap (o, h) call = some s → s.1 = o.step call ∧ s.1.Inv s.2 := by
  unfold stepHeap Objects.step
  split
  case isTrue hallows =>
      obtain ⟨hsome, hkept⟩ := hinv.exec hallows
      refine ⟨fun hb => ?_, fun s hs => ?_⟩
      · obtain ⟨h', heq⟩ := hsome hb
        exact ⟨_, by rw [heq]; rfl⟩
      · obtain ⟨h', heq, rfl⟩ := Option.map_eq_some_iff.mp hs
        exact ⟨rfl, hkept h' heq⟩
  case isFalse => exact ⟨fun _ => ⟨_, rfl⟩, by rintro s ⟨⟩; exact ⟨rfl, hinv⟩⟩

/-- A run fails only when it has too many slices count, and it keeps the invariant. -/
theorem foldlM_stepHeap_inv (calls : List SliceCall) {o : Objects} {h : Heap} (hinv : o.Inv h) :
    ((∀ n, Bounded ((calls.take n).foldl Objects.step o).live) →
        ∃ s, calls.foldlM stepHeap (o, h) = some s) ∧
      ∀ s, calls.foldlM stepHeap (o, h) = some s →
        s.1 = calls.foldl Objects.step o ∧ s.1.Inv s.2 := by
  induction calls generalizing o h with
  | nil => exact ⟨fun _ => ⟨_, rfl⟩, by rintro s ⟨⟩; exact ⟨rfl, hinv⟩⟩
  | cons call calls ih =>
      obtain ⟨hsome, hkept⟩ := stepHeap_inv hinv call
      simp only [foldlM_cons, Option.bind_eq_bind, bind_eq_some_iff, foldl_cons]
      constructor
      · intro hb
        obtain ⟨s, hs⟩ := hsome (hb 1)
        obtain ⟨ho, hs'⟩ := hkept s hs
        obtain ⟨s', hs'⟩ := (ih hs').1 fun n => ho ▸ hb (n + 1)
        exact ⟨s', s, hs, hs'⟩
      · rintro s' ⟨s, hs, hs'⟩
        obtain ⟨ho, hinv'⟩ := hkept s hs
        exact ho ▸ (ih hinv').2 s' hs'

theorem Objects.Inv.safe {o : Objects} {h : Heap} (hinv : o.Inv h) (hcov : o.Covered) :
    Safe o h := by
  obtain ⟨hnodup, howned, hinv⟩ := hinv
  have hlt : ∀ {c : Nat} {buf}, o.managed[c]? = some buf → c < o.managed.length :=
    fun hc => (List.getElem?_eq_some_iff.mp hc).1
  refine ⟨⟨hinv.nodup.map_on ?_, hinv.nodup.map_on ?_⟩, fun c buf => ?_⟩
  · rintro ⟨c, b⟩ hb ⟨d, b'⟩ hb' rfl
    have := ((hinv.mem_freed c b).mp hb).1.symm.trans ((hinv.mem_freed c b').mp hb').1
    simpa using this
  · rintro ⟨c, b⟩ hb ⟨d, b'⟩ hb' rfl
    have hc := ((hinv.mem_freed c b).mp hb).1
    have hd := ((hinv.mem_freed d b).mp hb').1
    simpa using (getElem?_inj (hlt hc) hnodup).mp (hc.trans hd.symm)
  · rw [hinv.mem_freed, refs_eq_zero_iff]
    refine and_congr_right fun hc => ⟨fun h0 s hs heq => ?_, fun hall s hs hcnt => hall s hs ?_⟩
    · cases hcnt : s.refCnt with
      | none => exact hcov s hs c hcnt (heq ▸ hc) (refs_eq_zero_iff.mpr h0)
      | some d =>
          have hd := howned s hs d hcnt
          rw [heq, ← hc] at hd
          exact h0 s hs ((getElem?_inj (hlt hc) hnodup).mp hd.symm ▸ hcnt)
    · exact Option.some.inj ((howned s hs c hcnt).symm.trans hc)

/-- A program frees each managed buffer and its counter once, at the moment when the last slice that
refers to it goes, exactly when at no moment a buffer has more slices than its counter can count and
no slice without ownership is left behind by the last owner of its buffer. -/
theorem freedOnce_iff (prog : List Call) :
    FreedOnce prog ↔ ∀ n,
      Bounded (objects ((prog.flatMap Call.steps).take n)).live ∧
        (objects ((prog.flatMap Call.steps).take n)).Covered := by
  unfold FreedOnce
  generalize prog.flatMap Call.steps = calls
  have hinit : Objects.Inv {} {} := ⟨nodup_nil, by simp [Objects.live], .init⟩
  have hrun n := foldlM_stepHeap_inv (calls.take n) hinit
  constructor
  · intro hfreed n
    obtain ⟨o, h, heq, hsafe⟩ := hfreed n
    obtain ⟨ho, -, howned, hinv⟩ := (hrun n).2 _ heq
    rw [show objects (calls.take n) = o from ho.symm]
    refine ⟨hinv.bounded, fun s hs c hcnt hdata h0 => ?_⟩
    exact ((hsafe.freed_iff c _).mp ((hinv.mem_freed c _).mpr ⟨hdata, h0⟩)).2 s hs rfl
  · intro hall n
    obtain ⟨⟨o, h⟩, heq⟩ := (hrun n).1 fun m => by
      rw [take_take]
      exact (hall _).1
    obtain ⟨ho, hinv⟩ := (hrun n).2 _ heq
    exact ⟨o, h, heq, hinv.safe (by rw [show o = _ from ho]; exact (hall n).2)⟩

/-- A slice without ownership still refers to the buffer when its last owner is destroyed. -/
theorem not_freedOnce_create :
    ¬ FreedOnce [.slice (.createManaged 0 1), .slice (.create 1 1), .slice (.destroy 0)] := by
  intro hfreed
  obtain ⟨o, h, hrun, hsafe⟩ := hfreed 3
  have hlog : (runSlices [.createManaged 0 1, .create 1 1, .destroy 0]).map
      (fun s => (s.1.live, s.2.freed)) = some ([⟨1, none⟩], [(0, 1)]) := by
    decide
  simp only [show runSlices [.createManaged 0 1, .create 1 1, .destroy 0] = some (o, h) from hrun,
    Option.map_some, Option.some.injEq, Prod.mk.injEq] at hlog
  exact ((hsafe.freed_iff 0 1).mp (by simp [hlog])).2 ⟨1, none⟩ (by simp [hlog]) rfl

end HybridSE.Base
