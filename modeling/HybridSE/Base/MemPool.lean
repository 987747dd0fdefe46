import Mathlib.Data.List.Nodup
import Mathlib.Data.List.Perm.Basic
import Mathlib.Data.List.Range

/-!
# HybridSE.Base.MemPool

Model of `ByteMemoryPool` of `include/base/mem_pool.h`, the memory of a run step
(`JitRuntime::AllocManaged` and `ReleaseRunStep` of `src/vm/jit_runtime.cc`).

The first chunk is the one that memory is taken from; a new one is put before it when the request
does not fit. `Reset` walks the list and deletes every chunk, so the pool is then empty and the next
request makes a new chunk. Chunks are numbered in the order in which they are made, and the numbers
of the deleted ones are kept in a log (`pool_safe`).
-/

namespace HybridSE.Base

open List

/-- `MemoryChunk`. -/
structure MemoryChunk where
  id : Nat
  chuckSize : Nat
  allocatedSize : Nat

/-- A region of a chunk. -/
structure Region where
  chunk : Nat
  offset : Nat
  size : Nat

/-- `ByteMemoryPool`, with the number of chunks made so far and the log of the deleted ones. -/
structure ByteMemoryPool where
  chucks : List MemoryChunk
  made : Nat
  deleted : List Nat

namespace MemoryChunk

/-- `DEFAULT_CHUCK_SIZE`. -/
def defaultChuckSize : Nat := 4096

def new (id requestSize : Nat) : MemoryChunk where
  id := id
  chuckSize := if requestSize > defaultChuckSize then requestSize else defaultChuckSize
  allocatedSize := 0

def availableSize (c : MemoryChunk) : Nat := c.chuckSize - c.allocatedSize

/-- `MemoryChunk::Alloc`; `none` is `nullptr`. -/
def alloc (c : MemoryChunk) (requestSize : Nat) : MemoryChunk × Option Region :=
  if requestSize > c.availableSize then (c, none)
  else
    ({ c with allocatedSize := c.allocatedSize + requestSize },
      some ⟨c.id, c.allocatedSize, requestSize⟩)

end MemoryChunk

namespace ByteMemoryPool

def expandStorage (p : ByteMemoryPool) (requestSize : Nat) : ByteMemoryPool :=
  { p with chucks := .new p.made requestSize :: p.chucks, made := p.made + 1 }

/-- The constructor of the pool. -/
def new (initSize : Nat) : ByteMemoryPool := expandStorage ⟨[], 0, []⟩ initSize

/-- `ByteMemoryPool::Alloc`. -/
def alloc (p : ByteMemoryPool) (requestSize : Nat) : ByteMemoryPool × Option Region :=
  let p :=
    match p.chucks with
    | [] => p.expandStorage requestSize
    | c :: _ => if c.availableSize < requestSize then p.expandStorage requestSize else p
  match p.chucks with
  | [] => (p, none)
  | c :: rest =>
    let (c, region) := c.alloc requestSize
    ({ p with chucks := c :: rest }, region)

/-- The loop of `ByteMemoryPool::Reset`. -/
def resetLoop : List MemoryChunk → List Nat → List Nat
  | [], deleted => deleted
  | chuck :: next, deleted => resetLoop next (deleted ++ [chuck.id])

/-- `ByteMemoryPool::Reset`; the destructor calls it. -/
def reset (p : ByteMemoryPool) : ByteMemoryPool :=
  { p with chucks := [], deleted := resetLoop p.chucks p.deleted }

end ByteMemoryPool

/-- A call of the pool. -/
inductive PoolCall
  | alloc (requestSize : Nat)
  | reset

/-- The pool, and the sizes and the results of the requests since the last reset. -/
structure PoolRun where
  pool : ByteMemoryPool
  requests : List Nat
  results : List (Option Region)

def PoolRun.call (s : PoolRun) : PoolCall → PoolRun
  | .alloc requestSize =>
    ⟨(s.pool.alloc requestSize).1, s.requests ++ [requestSize],
      s.results ++ [(s.pool.alloc requestSize).2]⟩
  | .reset => ⟨s.pool.reset, [], []⟩

/-- The calls of a new pool. -/
def runPool (initSize : Nat) (calls : List PoolCall) : PoolRun :=
  calls.foldl PoolRun.call ⟨.new initSize, [], []⟩

/-! ### What is meant -/

/-- The region lies inside a chunk that is alive. -/
def Region.Inside (r : Region) (p : ByteMemoryPool) : Prop :=
  ∃ c ∈ p.chucks, c.id = r.chunk ∧ r.offset + r.size ≤ c.chuckSize

def Region.Disjoint (r r' : Region) : Prop :=
  r.chunk = r'.chunk → r.offset + r.size ≤ r'.offset ∨ r'.offset + r'.size ≤ r.offset

/-- The requests have got disjoint live memory, and every chunk is deleted once in the end. -/
structure PoolRun.Safe (s : PoolRun) : Prop where
  granted : ∃ regions : List Region, s.results = regions.map some ∧
    regions.map Region.size = s.requests ∧ (∀ r ∈ regions, r.Inside s.pool) ∧
    regions.Pairwise Region.Disjoint
  deleted_once : s.pool.reset.deleted ~ List.range s.pool.made

/-! ### The invariant -/

/-- The chunks are numbered, and the regions are what has been taken from them. -/
structure PoolRun.Inv (s : PoolRun) (regions : List Region) : Prop where
  chunks : s.pool.deleted ++ s.pool.chucks.map MemoryChunk.id ~ List.range s.pool.made
  bounded : ∀ c ∈ s.pool.chucks, c.allocatedSize ≤ c.chuckSize
  results_eq : s.results = regions.map some
  requests_eq : regions.map Region.size = s.requests
  taken : ∀ r ∈ regions, ∃ c ∈ s.pool.chucks, c.id = r.chunk ∧ r.offset + r.size ≤ c.allocatedSize
  disjoint : regions.Pairwise Region.Disjoint

section Calls

variable {s : PoolRun} {regions : List Region} {p : ByteMemoryPool}

theorem resetLoop_eq (chucks : List MemoryChunk) (deleted : List Nat) :
    ByteMemoryPool.resetLoop chucks deleted = deleted ++ chucks.map MemoryChunk.id := by
  induction chucks generalizing deleted with
  | nil => simp [ByteMemoryPool.resetLoop]
  | cons chuck next ih => simp [ByteMemoryPool.resetLoop, ih]

theorem PoolRun.Inv.safe (h : s.Inv regions) : s.Safe where
  granted := by
    refine ⟨regions, h.results_eq, h.requests_eq, fun r hr => ?_, h.disjoint⟩
    obtain ⟨c, hc, hid, hle⟩ := h.taken r hr
    exact ⟨c, hc, hid, hle.trans (h.bounded c hc)⟩
  deleted_once := by
    rw [ByteMemoryPool.reset, resetLoop_eq]
    exact h.chunks

/-- A new chunk changes nothing for the regions. -/
theorem PoolRun.Inv.expandStorage (h : s.Inv regions) (requestSize : Nat) :
    PoolRun.Inv { s with pool := s.pool.expandStorage requestSize } regions where
  chunks := by
    rw [ByteMemoryPool.expandStorage, range_succ]
    exact perm_middle.trans ((h.chunks.cons _).trans (perm_append_singleton _ _).symm)
  bounded := by
    intro c hc
    rcases mem_cons.mp hc with rfl | hc
    · exact Nat.zero_le _
    · exact h.bounded c hc
  results_eq := h.results_eq
  requests_eq := h.requests_eq
  taken r hr := by
    obtain ⟨c, hc, hid, hle⟩ := h.taken r hr
    exact ⟨c, mem_cons_of_mem _ hc, hid, hle⟩
  disjoint := h.disjoint

/-- Memory from the first chunk, which has enough. -/
theorem PoolRun.Inv.take (h : s.Inv regions) {c : MemoryChunk} {rest : List MemoryChunk}
    (hchucks : s.pool.chucks = c :: rest) {requestSize : Nat}
    (hroom : requestSize ≤ c.availableSize) :
    PoolRun.Inv
      ⟨{ s.pool with chucks := (c.alloc requestSize).1 :: rest }, s.requests ++ [requestSize],
        s.results ++ [(c.alloc requestSize).2]⟩
      (regions ++ [⟨c.id, c.allocatedSize, requestSize⟩]) := by
  have hbound := h.bounded c (by simp [hchucks])
  have halloc : c.alloc requestSize = ({ c with allocatedSize := c.allocatedSize + requestSize },
      some ⟨c.id, c.allocatedSize, requestSize⟩) := if_neg (Nat.not_lt.mpr hroom)
  have hids := h.chunks
  rw [hchucks] at hids
  have hnodup : ((c :: rest).map MemoryChunk.id).Nodup :=
    (nodup_append.mp (hids.nodup_iff.mpr nodup_range)).2.1
  rw [halloc]
  refine ⟨hids, fun c' hc' => ?_, by simp [h.results_eq], by simp [h.requests_eq],
    fun r hr => ?_, ?_⟩
  · rcases mem_cons.mp hc' with rfl | hc'
    · unfold MemoryChunk.availableSize at hroom
      dsimp only
      omega
    · exact h.bounded c' (by simp [hchucks, hc'])
  · rcases mem_append.mp hr with hr | hr
    · obtain ⟨c', hc', hid, hle⟩ := h.taken r hr
      rw [hchucks] at hc'
      rcases mem_cons.mp hc' with rfl | hc'
      · exact ⟨_, mem_cons_self, hid, by dsimp only; omega⟩
      · exact ⟨c', mem_cons_of_mem _ hc', hid, hle⟩
    · obtain rfl := mem_singleton.mp hr
      exact ⟨_, mem_cons_self, rfl, le_rfl⟩
  · refine pairwise_append.mpr ⟨h.disjoint, pairwise_singleton _ _, fun r hr r' hr' hchunk => ?_⟩
    obtain rfl := mem_singleton.mp hr'
    -- the older regions of the first chunk end where the new one begins
    obtain ⟨c', hc', hid, hle⟩ := h.taken r hr
    rw [hchucks] at hc'
    obtain rfl : c' = c := inj_on_of_nodup_map hnodup hc' mem_cons_self (hid.trans hchunk)
    exact Or.inl hle

theorem le_availableSize_new (id requestSize : Nat) :
    requestSize ≤ (MemoryChunk.new id requestSize).availableSize := by
  unfold MemoryChunk.availableSize MemoryChunk.new
  dsimp only
  split <;> omega

/-- Behind the test of `Alloc` there is a first chunk with enough space. -/
theorem PoolRun.Inv.alloc (h : s.Inv regions) (requestSize : Nat) :
    ∃ regions, (s.call (.alloc requestSize)).Inv regions := by
  have hexpand := (h.expandStorage requestSize).take rfl
    (le_availableSize_new s.pool.made requestSize)
  unfold PoolRun.call ByteMemoryPool.alloc
  cases hchucks : s.pool.chucks with
  | nil => exact ⟨_, hexpand⟩
  | cons c rest =>
    by_cases hroom : c.availableSize < requestSize
    · simpa [hroom] using ⟨_, hexpand⟩
    · simpa [hchucks, hroom] using ⟨_, h.take hchucks (Nat.not_lt.mp hroom)⟩

theorem PoolRun.Inv.reset (h : s.Inv regions) : (s.call .reset).Inv [] where
  chunks := by
    simp [PoolRun.call, ByteMemoryPool.reset, resetLoop_eq, map_nil, append_nil, h.chunks]
  bounded c hc := absurd hc not_mem_nil
  results_eq := rfl
  requests_eq := rfl
  taken r hr := absurd hr not_mem_nil
  disjoint := Pairwise.nil

end Calls

/-- **The pool hands out disjoint live memory**, and deletes every chunk once. -/
theorem pool_safe (initSize : Nat) (calls : List PoolCall) : (runPool initSize calls).Safe := by
  have hinv : ∃ regions, (runPool initSize calls).Inv regions := by
    unfold runPool
    induction calls using List.reverseRecOn with
    | nil =>
      exact ⟨[], .refl _,
        by simp [ByteMemoryPool.new, ByteMemoryPool.expandStorage, MemoryChunk.new],
        rfl, rfl, by simp, Pairwise.nil⟩
    | append_singleton calls call ih =>
      obtain ⟨regions, h⟩ := ih
      rw [foldl_append]
      cases call with
      | alloc requestSize => exact h.alloc requestSize
      | reset => exact ⟨[], h.reset⟩
  obtain ⟨regions, h⟩ := hinv
  exact h.safe

end HybridSE.Base
