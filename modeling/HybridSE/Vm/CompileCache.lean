import Mathlib.Data.Finset.Basic
import HybridSE.Codec.RowLayout
import HybridSE.Lib.LruCache
import HybridSE.Lib.StepRun

/-!
# HybridSE.Vm.CompileCache

The compile cache of `Engine` (`src/vm/engine.cc`) under concurrent calls of `Get`,
`UpdateCatalog` and `ClearCacheLocked`.

The critical sections of the mutex and the atomic accesses to the catalog are the steps. A `Get`
looks its query up, and if there is no compatible entry it loads the catalog, compiles, and enters
the result; other calls run in between. Catalogs are numbered in the order in which they are
installed, and every `Get` has a number, too, so that a run says which of them started after a
given state.

The caches of the modes and databases are `boost::compute::detail::lru_cache`s, all of one
positive size. They are a parameter of the model (`Cache`), and the theorems assume of it what
the engine relies on (`Cache.Lawful`).

A result is entered under the query, database and mode it was compiled for, and parameters and
common columns are compared at every look-up, so that no `Get` is served with a foreign plan.
A stale plan is another matter: a `Get` that has loaded an old catalog can enter its result after
the cache has been cleared. `clear_serves_iff` says that this is the only way.
-/

namespace HybridSE.Vm

open HybridSE.Lib HybridSE.Codec List Option

universe u

/-- `EngineMode`. -/
inductive EngineMode
  | kBatchMode
  | kRequestMode
  | kBatchRequestMode
  deriving DecidableEq

/-- The fields of a `SqlContext` that a compilation starts from. -/
structure SqlContext where
  sql : String
  db : String
  engineMode : EngineMode
  parameterTypes : List ColumnType
  commonColumnIndices : Finset Nat

/-- A call of `Get`: a query and what it reads of the session. Only a `BatchRequestRunSession`,
which has the mode `kBatchRequestMode`, has common columns. -/
structure GetRequest where
  sql : String
  db : String
  engineMode : EngineMode
  parameterTypes : List ColumnType
  commonColumnIndices : Finset Nat

/-- The context that `Get` fills. -/
def GetRequest.context (r : GetRequest) : SqlContext where
  sql := r.sql
  db := r.db
  engineMode := r.engineMode
  parameterTypes := r.parameterTypes
  commonColumnIndices := if r.engineMode = .kBatchRequestMode then r.commonColumnIndices else ∅

/-- A `CompileInfo`: what was compiled, and the number of the catalog it was compiled against. -/
structure CompileInfo (Plan : Type u) where
  context : SqlContext
  version : Nat
  plan : Plan

/-- The plan is one for the request. -/
structure CompileInfo.Serves {Plan : Type u} (info : CompileInfo Plan) (r : GetRequest) : Prop where
  sql : info.context.sql = r.sql
  db : info.context.db = r.db
  engineMode : info.context.engineMode = r.engineMode
  parameterTypes : info.context.parameterTypes = r.parameterTypes
  commonColumnIndices : r.engineMode = .kBatchRequestMode →
    info.context.commonColumnIndices = r.commonColumnIndices

/-- `Engine::IsCompatibleCache`. -/
def isCompatibleCache {Plan : Type u} (r : GetRequest) (info : CompileInfo Plan) : Bool :=
  decide (info.context.engineMode = r.engineMode) &&
    decide (info.context.parameterTypes = r.parameterTypes) &&
      (decide (r.engineMode ≠ .kBatchRequestMode) ||
        decide (info.context.commonColumnIndices = r.commonColumnIndices))

/-- A `Get` that has missed the cache: its number and request, and the catalog with its number once
it is loaded. -/
structure InFlight (Catalog : Type u) where
  call : Nat
  request : GetRequest
  loaded : Option (Nat × Catalog)

/-- A `Get` that has returned true. -/
structure Served (Plan : Type u) where
  call : Nat
  request : GetRequest
  info : CompileInfo Plan

/-- `Engine`, the calls of `Get` under way, and those that have succeeded. A database has a cache
once a result was entered into it. -/
structure EngineState (Catalog : Type u) {Plan : Type u}
    (cache : Cache String (CompileInfo Plan)) where
  catalog : Catalog
  version : Nat
  lruCache : EngineMode → String → Option cache.Store
  inFlight : List (InFlight Catalog)
  served : List (Served Plan)
  nextCall : Nat

/-- The steps. -/
inductive EngineAction (Catalog : Type u)
  | updateCatalog (c : Catalog)
  | clearCacheLocked (db : String)
  /-- `GetCacheLocked`, with which a `Get` starts, and the check of the entry. -/
  | getCacheLocked (r : GetRequest)
  | loadCatalog (call : Nat)
  /-- The end of a `Get`: the result of the compilation, and `SetCacheLocked`. -/
  | setCacheLocked (call : Nat)

namespace EngineState

variable {Catalog Plan : Type u} {cache : Cache String (CompileInfo Plan)}

/-- A new engine. -/
def new (c : Catalog) : EngineState Catalog cache where
  catalog := c
  version := 0
  lruCache := fun _ _ => none
  inFlight := []
  served := []
  nextCall := 0

/-- Changes the cache of a mode and database. -/
def setCache (s : EngineState Catalog cache) (mode : EngineMode) (db : String)
    (c : cache.Store) : EngineState Catalog cache :=
  { s with lruCache := fun m d => if m = mode ∧ d = db then some c else s.lruCache m d }

/-- `Engine::UpdateCatalog`. -/
def updateCatalog (s : EngineState Catalog cache) (c : Catalog) : EngineState Catalog cache :=
  { s with catalog := c, version := s.version + 1 }

/-- `Engine::ClearCacheLocked`. -/
def clearCacheLocked (s : EngineState Catalog cache) (db : String) : EngineState Catalog cache :=
  { s with lruCache := fun m d => if d = db then none else s.lruCache m d }

/-- `Engine::GetCacheLocked`: the entry of the query, and the state after the look-up. -/
def lookup (s : EngineState Catalog cache) (r : GetRequest) :
    Option (CompileInfo Plan) × EngineState Catalog cache :=
  match s.lruCache r.engineMode r.db with
  | none => (none, s)
  | some c => ((cache.get c r.sql).1, s.setCache r.engineMode r.db (cache.get c r.sql).2)

/-- The start of a `Get`: the look-up and `IsCompatibleCache`. The call is served or goes on to
compile. -/
def getCacheLocked (s : EngineState Catalog cache) (r : GetRequest) : EngineState Catalog cache :=
  let touched := { (s.lookup r).2 with nextCall := s.nextCall + 1 }
  match (s.lookup r).1.filter (isCompatibleCache r) with
  | some info => { touched with served := ⟨s.nextCall, r, info⟩ :: s.served }
  | none => { touched with inFlight := ⟨s.nextCall, r, none⟩ :: s.inFlight }

/-- `Engine::SetCacheLocked`. -/
def enter (s : EngineState Catalog cache) (r : GetRequest) (info : CompileInfo Plan) :
    EngineState Catalog cache :=
  let c := (s.lruCache r.engineMode r.db).getD cache.new
  let value := cache.get c r.sql
  if value.1.isNone || decide (r.engineMode = .kBatchRequestMode) then
    s.setCache r.engineMode r.db (cache.insert value.2 r.sql info)
  else s.setCache r.engineMode r.db value.2

/-- The other calls under way. -/
def others (s : EngineState Catalog cache) (call : Nat) : List (InFlight Catalog) :=
  s.inFlight.filter fun g => g.call ≠ call

/-- One step. -/
def step (compile : SqlContext → Catalog → Option Plan)
    (s : EngineState Catalog cache) : EngineAction Catalog → Option (EngineState Catalog cache)
  | .updateCatalog c => some (s.updateCatalog c)
  | .clearCacheLocked db => some (s.clearCacheLocked db)
  | .getCacheLocked r => some (s.getCacheLocked r)
  | .loadCatalog call => do
      let g ← s.inFlight.find? fun g => decide (g.call = call) && g.loaded.isNone
      some { s with
        inFlight := { g with loaded := some (s.version, s.catalog) } :: s.others call }
  | .setCacheLocked call => do
      let g ← s.inFlight.find? fun g => decide (g.call = call)
      let loaded ← g.loaded
      let s := { s with inFlight := s.others call }
      match compile g.request.context loaded.2 with
      | none => some s
      | some plan =>
        let info : CompileInfo Plan := ⟨g.request.context, loaded.1, plan⟩
        some { s.enter g.request info with served := ⟨call, g.request, info⟩ :: s.served }

end EngineState

/-! ### What a step does -/

section Steps

variable {Catalog Plan : Type u} {cache : Cache String (CompileInfo Plan)}
  {s s' : EngineState Catalog cache}

theorem isCompatibleCache_iff {r} {info : CompileInfo Plan} :
    isCompatibleCache r info = true ↔ info.context.engineMode = r.engineMode ∧
      info.context.parameterTypes = r.parameterTypes ∧
        (r.engineMode = .kBatchRequestMode →
          info.context.commonColumnIndices = r.commonColumnIndices) := by
  simp [isCompatibleCache, Bool.and_eq_true, Bool.or_eq_true, decide_eq_true_eq, and_assoc,
    ← imp_iff_not_or]

namespace EngineState

/-- The query has this entry in the cache of the mode and database. -/
def Holds (s : EngineState Catalog cache) (m : EngineMode) (d sql : String)
    (info : CompileInfo Plan) : Prop :=
  ∃ c, s.lruCache m d = some c ∧ cache.find c sql = some info

/-- Entries after a change of one cache. -/
theorem Holds.of_setCache {mode db c m d sql info}
    (h : (s.setCache mode db c).Holds m d sql info) :
    s.Holds m d sql info ∨ m = mode ∧ d = db ∧ cache.find c sql = some info := by
  obtain ⟨c', hc', hfind⟩ := h
  by_cases hmd : m = mode ∧ d = db
  · rw [show (s.setCache mode db c).lruCache m d = some c from if_pos hmd] at hc'
    cases hc'
    exact .inr ⟨hmd.1, hmd.2, hfind⟩
  · rw [show (s.setCache mode db c).lruCache m d = s.lruCache m d from if_neg hmd] at hc'
    exact .inl ⟨c', hc', hfind⟩

/-- No entry of a database is left after it was cleared. -/
theorem Holds.of_clearCacheLocked {db m d sql info}
    (h : (s.clearCacheLocked db).Holds m d sql info) : d ≠ db ∧ s.Holds m d sql info := by
  obtain ⟨c, hc, hfind⟩ := h
  by_cases hd : d = db
  · rw [show (s.clearCacheLocked db).lruCache m d = none from if_pos hd] at hc
    cases hc
  · rw [show (s.clearCacheLocked db).lruCache m d = s.lruCache m d from if_neg hd] at hc
    exact ⟨hd, c, hc, hfind⟩

variable (hcache : cache.Lawful)

include hcache

/-- Entries after `SetCacheLocked`. -/
theorem Holds.of_enter {r info m d sql info'} (h : (s.enter r info).Holds m d sql info') :
    s.Holds m d sql info' ∨ m = r.engineMode ∧ d = r.db ∧ sql = r.sql ∧ info' = info := by
  -- what the cache held before, as seen after the look-up
  have hold : ∀ sql info', cache.find (cache.get
      ((s.lruCache r.engineMode r.db).getD cache.new) r.sql).2 sql = some info' →
      s.Holds r.engineMode r.db sql info' := by
    intro sql info' hfind
    rw [hcache.find_get] at hfind
    cases hc : s.lruCache r.engineMode r.db with
    | none =>
      rw [hc, getD_none, hcache.find_new] at hfind
      cases hfind
    | some c =>
      rw [hc, getD_some] at hfind
      exact ⟨c, hc, hfind⟩
  unfold enter at h
  dsimp only at h
  split at h
  · rcases h.of_setCache with h | ⟨rfl, rfl, hfind⟩
    · exact .inl h
    · rcases hcache.find_insert _ _ _ _ _ hfind with hfind | ⟨rfl, rfl⟩
      · exact .inl (hold _ _ hfind)
      · exact .inr ⟨rfl, rfl, rfl, rfl⟩
  · rcases h.of_setCache with h | ⟨rfl, rfl, hfind⟩
    · exact .inl h
    · exact .inl (hold _ _ hfind)

/-- A look-up finds what is there and changes no entry. -/
theorem lookup_spec (s : EngineState Catalog cache) (r : GetRequest) :
    (∀ m d sql info, (s.lookup r).2.Holds m d sql info → s.Holds m d sql info) ∧
      (∀ info, (s.lookup r).1 = some info ↔ s.Holds r.engineMode r.db r.sql info) ∧
      (s.lookup r).2.version = s.version ∧ (s.lookup r).2.inFlight = s.inFlight := by
  unfold lookup
  cases hc : s.lruCache r.engineMode r.db with
  | none =>
    refine ⟨fun m d sql info h => h, fun info => ⟨nofun, ?_⟩, rfl, rfl⟩
    rintro ⟨c, hc', -⟩
    rw [hc] at hc'
    cases hc'
  | some c =>
    refine ⟨fun m d sql info h => ?_, fun info => ⟨fun h => ⟨c, hc, h⟩, ?_⟩, rfl, rfl⟩
    · rcases h.of_setCache with h | ⟨rfl, rfl, hfind⟩
      · exact h
      · exact ⟨c, hc, by rwa [hcache.find_get] at hfind⟩
    · rintro ⟨c', hc', hfind⟩
      rw [hc] at hc'
      cases hc'
      exact hfind

/-- What `GetCacheLocked` does: it serves the request with a compatible entry, or starts a
compilation. -/
theorem getCacheLocked_cases (s : EngineState Catalog cache) (r : GetRequest) :
    (∀ m d sql info, (s.getCacheLocked r).Holds m d sql info → s.Holds m d sql info) ∧
      (s.getCacheLocked r).version = s.version ∧ (s.getCacheLocked r).nextCall = s.nextCall + 1 ∧
      ((∃ info, s.Holds r.engineMode r.db r.sql info ∧ isCompatibleCache r info = true ∧
          (s.getCacheLocked r).served = ⟨s.nextCall, r, info⟩ :: s.served ∧
          (s.getCacheLocked r).inFlight = s.inFlight) ∨
        (s.getCacheLocked r).served = s.served ∧
          (s.getCacheLocked r).inFlight = ⟨s.nextCall, r, none⟩ :: s.inFlight) := by
  obtain ⟨hsame, hfound, hversion, hflight⟩ := lookup_spec hcache s r
  have hserved : (s.lookup r).2.served = s.served := by
    unfold lookup
    split <;> rfl
  unfold getCacheLocked
  dsimp only
  cases hvalue : (s.lookup r).1.filter (isCompatibleCache r) with
  | none => exact ⟨hsame, hversion, rfl, .inr ⟨hserved, rfl⟩⟩
  | some info =>
    obtain ⟨hget, hcompatible⟩ := filter_eq_some_iff.mp hvalue
    exact ⟨hsame, hversion, rfl, .inl ⟨info, (hfound info).mp hget, hcompatible, rfl, hflight⟩⟩

omit hcache

variable {compile : SqlContext → Catalog → Option Plan}

/-- What the load of the catalog does. -/
theorem step_loadCatalog {call} (h : s.step compile (.loadCatalog call) = some s') :
    ∃ g ∈ s.inFlight, g.call = call ∧ s' = { s with
      inFlight := { g with loaded := some (s.version, s.catalog) } :: s.others call } := by
  obtain ⟨g, hg, h⟩ := bind_eq_some_iff.mp h
  have hcall := find?_some hg
  rw [Bool.and_eq_true, decide_eq_true_eq] at hcall
  exact ⟨g, mem_of_find?_eq_some hg, hcall.1, (Option.some.inj h).symm⟩

/-- What the end of a `Get` does. -/
theorem step_setCacheLocked {call} (h : s.step compile (.setCacheLocked call) = some s') :
    ∃ g ∈ s.inFlight, ∃ version c, g.call = call ∧ g.loaded = some (version, c) ∧
      ((compile g.request.context c = none ∧ s' = { s with inFlight := s.others call }) ∨
        ∃ plan, compile g.request.context c = some plan ∧
          s' = { ({ s with inFlight := s.others call } : EngineState Catalog cache).enter
                  g.request ⟨g.request.context, version, plan⟩ with
              served := ⟨call, g.request, ⟨g.request.context, version, plan⟩⟩ :: s.served }) := by
  obtain ⟨g, hg, h⟩ := bind_eq_some_iff.mp h
  obtain ⟨⟨version, c⟩, hloaded, h⟩ := bind_eq_some_iff.mp h
  have hcall : g.call = call := by simpa using find?_some hg
  refine ⟨g, mem_of_find?_eq_some hg, version, c, hcall, hloaded, ?_⟩
  cases hcompile : compile g.request.context c with
  | none =>
    rw [hcompile] at h
    exact .inl ⟨rfl, (Option.some.inj h).symm⟩
  | some plan =>
    rw [hcompile] at h
    exact .inr ⟨plan, rfl, (Option.some.inj h).symm⟩

/-- `SetCacheLocked` changes the cache only. -/
theorem enter_fields (s : EngineState Catalog cache) (r : GetRequest) (info : CompileInfo Plan) :
    (s.enter r info).version = s.version ∧ (s.enter r info).nextCall = s.nextCall ∧
      (s.enter r info).inFlight = s.inFlight := by
  unfold enter
  dsimp only
  split <;> exact ⟨rfl, rfl, rfl⟩

end EngineState

end Steps

/-! ### No foreign plans -/

section Own

variable {Catalog Plan : Type u} {cache : Cache String (CompileInfo Plan)}
  {compile : SqlContext → Catalog → Option Plan}

/-- What every step keeps: entries are entered under what they were compiled for, and a `Get`
that was served got a plan for its request. -/
structure EngineState.Own (s : EngineState Catalog cache) : Prop where
  entries : ∀ m d sql info, s.Holds m d sql info →
    info.context.sql = sql ∧ info.context.db = d ∧ info.context.engineMode = m
  served : ∀ e ∈ s.served, e.info.Serves e.request

theorem GetRequest.serves_context (r : GetRequest) (version : Nat) (plan : Plan) :
    (⟨r.context, version, plan⟩ : CompileInfo Plan).Serves r :=
  ⟨rfl, rfl, rfl, rfl, fun h => if_pos h⟩

theorem EngineState.Own.step (hcache : cache.Lawful) {s s' : EngineState Catalog cache}
    {a : EngineAction Catalog} (h : s.Own) (hstep : s.step compile a = some s') : s'.Own := by
  cases a with
  | updateCatalog c =>
    cases hstep
    exact ⟨h.entries, h.served⟩
  | clearCacheLocked db =>
    cases hstep
    exact ⟨fun m d sql info he => h.entries m d sql info he.of_clearCacheLocked.2, h.served⟩
  | getCacheLocked r =>
    cases hstep
    obtain ⟨hsame, -, -, ⟨info, hmem, hcompatible, hserved, -⟩ | ⟨hserved, -⟩⟩ :=
      getCacheLocked_cases hcache s r
    · refine ⟨fun m d sql info he => h.entries m d sql info (hsame m d sql info he), ?_⟩
      rw [hserved]
      refine forall_mem_cons.mpr ⟨?_, h.served⟩
      obtain ⟨hsql, hdb, -⟩ := h.entries _ _ _ _ hmem
      obtain ⟨hmode, hparameters, hcommon⟩ := isCompatibleCache_iff.mp hcompatible
      exact ⟨hsql, hdb, hmode, hparameters, hcommon⟩
    · exact ⟨fun m d sql info he => h.entries m d sql info (hsame m d sql info he),
        hserved ▸ h.served⟩
  | loadCatalog call =>
    obtain ⟨g, -, -, rfl⟩ := step_loadCatalog hstep
    exact ⟨h.entries, h.served⟩
  | setCacheLocked call =>
    obtain ⟨g, -, version, c, -, -, ⟨-, rfl⟩ | ⟨plan, -, rfl⟩⟩ := step_setCacheLocked hstep
    · exact ⟨h.entries, h.served⟩
    · refine ⟨fun m d sql info he => ?_, forall_mem_cons.mpr ⟨?_, h.served⟩⟩
      · rcases Holds.of_enter hcache he with he | ⟨rfl, rfl, rfl, rfl⟩
        · exact h.entries m d sql info he
        · exact ⟨rfl, rfl, rfl⟩
      · exact g.request.serves_context version plan

end Own

/-! ### Stale plans -/

section Stale

variable {Catalog Plan : Type u} {cache : Cache String (CompileInfo Plan)}
  {compile : SqlContext → Catalog → Option Plan}

/-- The numbers of the `Get` calls. -/
structure EngineState.Numbered (s : EngineState Catalog cache) : Prop where
  served : ∀ e ∈ s.served, e.call < s.nextCall
  inFlight : ∀ g ∈ s.inFlight, g.call < s.nextCall
  nodup : (s.inFlight.map InFlight.call).Nodup

namespace EngineState

variable {s s' : EngineState Catalog cache}

variable {g : InFlight Catalog}

theorem mem_others {call} : g ∈ s.others call ↔ g ∈ s.inFlight ∧ g.call ≠ call := by
  simp [others]

theorem Numbered.others (h : s.Numbered) (call : Nat) :
    (∀ g ∈ s.others call, g.call < s.nextCall) ∧ ((s.others call).map InFlight.call).Nodup :=
  ⟨fun g hg => h.inFlight g (mem_others.mp hg).1,
    h.nodup.sublist ((filter_sublist).map InFlight.call)⟩

theorem Numbered.step (hcache : cache.Lawful) {a} (h : s.Numbered)
    (hstep : s.step compile a = some s') : s'.Numbered := by
  cases a with
  | updateCatalog c =>
    cases hstep
    exact ⟨h.served, h.inFlight, h.nodup⟩
  | clearCacheLocked db =>
    cases hstep
    exact ⟨h.served, h.inFlight, h.nodup⟩
  | getCacheLocked r =>
    cases hstep
    obtain ⟨-, -, hnext, ⟨info, -, -, hserved, hflight⟩ | ⟨hserved, hflight⟩⟩ :=
      getCacheLocked_cases hcache s r
    · refine ⟨?_, ?_, hflight ▸ h.nodup⟩ <;> rw [hnext]
      · rw [hserved]
        exact forall_mem_cons.mpr ⟨Nat.lt_succ_self _, fun e he => Nat.lt_succ_of_lt (h.served e he)⟩
      · rw [hflight]
        exact fun g hg => Nat.lt_succ_of_lt (h.inFlight g hg)
    · refine ⟨?_, ?_, ?_⟩
      · rw [hserved, hnext]
        exact fun e he => Nat.lt_succ_of_lt (h.served e he)
      · rw [hflight, hnext]
        exact forall_mem_cons.mpr ⟨Nat.lt_succ_self _, fun g hg => Nat.lt_succ_of_lt (h.inFlight g hg)⟩
      · rw [hflight, map_cons, nodup_cons]
        refine ⟨fun hmem => ?_, h.nodup⟩
        obtain ⟨g, hg, hcall⟩ := List.mem_map.mp hmem
        exact absurd (h.inFlight g hg) (by rw [hcall]; exact Nat.lt_irrefl _)
  | loadCatalog call =>
    obtain ⟨g, hg, rfl, rfl⟩ := step_loadCatalog hstep
    obtain ⟨hothers, hnodup⟩ := h.others g.call
    refine ⟨h.served, forall_mem_cons.mpr ⟨h.inFlight g hg, hothers⟩, ?_⟩
    rw [map_cons, nodup_cons]
    refine ⟨fun hmem => ?_, hnodup⟩
    obtain ⟨g', hg', hcall⟩ := List.mem_map.mp hmem
    exact (mem_others.mp hg').2 hcall
  | setCacheLocked call =>
    obtain ⟨g, hg, version, c, rfl, -, ⟨-, rfl⟩ | ⟨plan, -, rfl⟩⟩ := step_setCacheLocked hstep
    · exact ⟨h.served, (h.others g.call).1, (h.others g.call).2⟩
    · obtain ⟨-, hnext, hflight⟩ := enter_fields
        ({ s with inFlight := s.others g.call } : EngineState Catalog cache) g.request
        ⟨g.request.context, version, plan⟩
      constructor
      · rw [hnext]
        exact forall_mem_cons.mpr ⟨h.inFlight g hg, h.served⟩
      · rw [hnext, hflight]
        exact (h.others g.call).1
      · rw [hflight]
        exact (h.others g.call).2

/-- The call has loaded a catalog older than the given one, and its compilation will succeed. -/
def LoadedBefore (compile : SqlContext → Catalog → Option Plan) (version : Nat)
    (g : InFlight Catalog) : Prop :=
  ∃ old c, g.loaded = some (old, c) ∧ old < version ∧ (compile g.request.context c).isSome

/-- After a catalog was installed and the cache of a database cleared: nothing that is older
than the catalog is in that cache or on the way to it, and no call that started since then was
served with it. -/
structure Fresh (compile : SqlContext → Catalog → Option Plan) (version : Nat) (db : String)
    (start : Nat) (s : EngineState Catalog cache) : Prop where
  version_le : version ≤ s.version
  entries : ∀ m sql info, s.Holds m db sql info → version ≤ info.version
  inFlight : ∀ g ∈ s.inFlight, g.request.db = db → ¬ LoadedBefore compile version g
  served : ∀ e ∈ s.served, start ≤ e.call → e.request.db = db → version ≤ e.info.version

variable {version start : Nat} {db : String}

theorem Fresh.step (hcache : cache.Lawful) {a} (h : s.Fresh compile version db start)
    (hstep : s.step compile a = some s') : s'.Fresh compile version db start := by
  cases a with
  | updateCatalog c =>
    cases hstep
    exact ⟨Nat.le_succ_of_le h.version_le, h.entries, h.inFlight, h.served⟩
  | clearCacheLocked db' =>
    cases hstep
    exact ⟨h.version_le, fun m sql info he => h.entries m sql info he.of_clearCacheLocked.2,
      h.inFlight, h.served⟩
  | getCacheLocked r =>
    cases hstep
    obtain ⟨hsame, hversion, -, ⟨info, hmem, -, hserved, hflight⟩ | ⟨hserved, hflight⟩⟩ :=
      getCacheLocked_cases hcache s r
    · refine ⟨hversion ▸ h.version_le,
        fun m sql info he => h.entries m sql info (hsame m db sql info he),
        hflight ▸ h.inFlight, ?_⟩
      rw [hserved]
      refine forall_mem_cons.mpr ⟨fun _ hdb => ?_, h.served⟩
      exact h.entries r.engineMode _ _ (hdb ▸ hmem)
    · refine ⟨hversion ▸ h.version_le,
        fun m sql info he => h.entries m sql info (hsame m db sql info he), ?_,
        hserved ▸ h.served⟩
      rw [hflight]
      refine forall_mem_cons.mpr ⟨fun _ hold => ?_, h.inFlight⟩
      obtain ⟨old, c, hloaded, -⟩ := hold
      cases hloaded
  | loadCatalog call =>
    obtain ⟨g, hg, rfl, rfl⟩ := step_loadCatalog hstep
    refine ⟨h.version_le, h.entries, forall_mem_cons.mpr ⟨fun _ hold => ?_, ?_⟩, h.served⟩
    · obtain ⟨old, c, hloaded, hlt, -⟩ := hold
      cases hloaded
      exact absurd h.version_le (Nat.not_le.mpr hlt)
    · exact fun g' hg' => h.inFlight g' (mem_others.mp hg').1
  | setCacheLocked call =>
    obtain ⟨g, hg, old, c, rfl, hloaded, ⟨-, rfl⟩ | ⟨plan, hplan, rfl⟩⟩ :=
      step_setCacheLocked hstep
    · exact ⟨h.version_le, h.entries, fun g' hg' => h.inFlight g' (mem_others.mp hg').1, h.served⟩
    · -- a result for the database comes from a catalog that is new enough
      have hold : g.request.db = db → version ≤ old := by
        intro hdb
        by_contra hlt
        exact h.inFlight g hg hdb ⟨old, c, hloaded, Nat.not_le.mp hlt, by rw [hplan]; rfl⟩
      obtain ⟨hversion, -, hflight⟩ := enter_fields
        ({ s with inFlight := s.others g.call } : EngineState Catalog cache) g.request
        ⟨g.request.context, old, plan⟩
      refine ⟨?_, fun m sql info he => ?_, ?_, forall_mem_cons.mpr ⟨fun _ => hold, h.served⟩⟩
      · rw [hversion]
        exact h.version_le
      · rcases Holds.of_enter hcache he with he | ⟨-, hdb, -, rfl⟩
        · exact h.entries m sql info he
        · exact hold hdb.symm
      · rw [hflight]
        exact fun g' hg' => h.inFlight g' (mem_others.mp hg').1

/-- A result that enters a cleared cache is found. -/
theorem holds_enter (hcache : cache.Lawful) {r info} (h : s.lruCache r.engineMode r.db = none) :
    (s.enter r info).Holds r.engineMode r.db r.sql info := by
  have hmiss : cache.find cache.new r.sql = none := hcache.find_new r.sql
  have hmiss' : cache.find (cache.get cache.new r.sql).2 r.sql = none := by
    rw [hcache.find_get, hmiss]
  unfold enter
  rw [h, getD_none]
  dsimp only
  rw [show (cache.get cache.new r.sql).1 = none from hmiss]
  exact ⟨_, if_pos ⟨rfl, rfl⟩, hcache.find_insert_self _ _ _ hmiss'⟩

/-- A compatible entry is served. -/
theorem served_getCacheLocked (hcache : cache.Lawful) {r info}
    (h : s.Holds r.engineMode r.db r.sql info) (hcompatible : isCompatibleCache r info) :
    (s.getCacheLocked r).served = ⟨s.nextCall, r, info⟩ :: s.served := by
  have hfound := ((lookup_spec hcache s r).2.1 info).mpr h
  unfold getCacheLocked
  simp only [hfound, filter_some, hcompatible, if_true]

theorem find?_call {calls : List (InFlight Catalog)} (hnodup : (calls.map InFlight.call).Nodup)
    (hg : g ∈ calls) : (calls.find? fun other => decide (other.call = g.call)) = some g := by
  induction calls with
  | nil => cases hg
  | cons first calls ih =>
    rw [map_cons, nodup_cons] at hnodup
    rcases mem_cons.mp hg with rfl | hg
    · exact find?_cons_of_pos (decide_eq_true rfl)
    · have hne : first.call ≠ g.call := fun heq =>
        hnodup.1 (heq ▸ List.mem_map.mpr ⟨g, hg, rfl⟩)
      rw [find?_cons_of_neg (by simpa using hne)]
      exact ih hnodup.2 hg

/-- A call that has loaded an old catalog can enter its result and serve the next one with it. -/
theorem exists_stale (hcache : cache.Lawful) (hnumbered : s.Numbered) (hg : g ∈ s.inFlight)
    (hdb : g.request.db = db) {old : Nat} {c : Catalog} (hloaded : g.loaded = some (old, c)) {plan}
    (hplan : compile g.request.context c = some plan) :
    ∃ s', runSteps (step compile) (s.clearCacheLocked db)
        [.setCacheLocked g.call, .getCacheLocked g.request] = some s' ∧
      ⟨s.nextCall, g.request, ⟨g.request.context, old, plan⟩⟩ ∈ s'.served := by
  let info : CompileInfo Plan := ⟨g.request.context, old, plan⟩
  let cleared : EngineState Catalog cache :=
    { s.clearCacheLocked db with inFlight := s.others g.call }
  let entered : EngineState Catalog cache :=
    { cleared.enter g.request info with
      served := ⟨g.call, g.request, info⟩ :: s.served }
  have hempty : cleared.lruCache g.request.engineMode g.request.db = none := if_pos hdb
  have hentry : entered.Holds g.request.engineMode g.request.db g.request.sql info :=
    holds_enter hcache hempty
  have hcompatible : isCompatibleCache g.request info = true :=
    isCompatibleCache_iff.mpr ⟨rfl, rfl, fun h => if_pos h⟩
  have hnext : entered.nextCall = s.nextCall := (enter_fields cleared g.request info).2.1
  have hstep : (s.clearCacheLocked db).step compile (.setCacheLocked g.call) =
      some entered := by
    have hfind : (s.clearCacheLocked db).inFlight.find? (fun other => decide (other.call = g.call)) =
        some g := find?_call hnumbered.nodup hg
    unfold EngineState.step
    simp only [hfind, hloaded, hplan, bind_eq_bind, bind_some]
    rfl
  refine ⟨entered.getCacheLocked g.request, ?_, ?_⟩
  · rw [runSteps_cons, hstep]
    rfl
  · rw [served_getCacheLocked hcache hentry hcompatible, hnext]
    exact mem_cons_self

end EngineState

end Stale

/-- After any run of an engine let the cache of a database be cleared. However the run goes
on, every `Get` is served with a plan for its own request, and those for the database that start
now never with one that is older than a catalog installed before, if and only if no `Get` for
the database has loaded an older catalog and is still compiling it with success. -/
theorem clear_serves_iff {Catalog Plan : Type u} {cache : Cache String (CompileInfo Plan)}
    (hcache : cache.Lawful) {compile : SqlContext → Catalog → Option Plan} {c₀ : Catalog}
    {before : List (EngineAction Catalog)} {s : EngineState Catalog cache}
    (hrun : runSteps (EngineState.step compile) (EngineState.new c₀) before = some s)
    {version : Nat} (hversion : version ≤ s.version) (db : String) :
    (∀ after s', runSteps (EngineState.step compile) (s.clearCacheLocked db) after =
        some s' → ∀ e ∈ s'.served, e.info.Serves e.request ∧
          (s.nextCall ≤ e.call → e.request.db = db → version ≤ e.info.version)) ↔
      ∀ g ∈ s.inFlight, g.request.db = db → ¬ EngineState.LoadedBefore compile version g := by
  have hown : s.Own := by
    refine runSteps_induction (fun s a s' h hstep => h.step hcache hstep) ⟨?_, ?_⟩ hrun
    · rintro m d sql info ⟨c, hc, -⟩
      cases hc
    · exact fun e he => absurd he not_mem_nil
  have hnumbered : s.Numbered := by
    refine runSteps_induction (fun s a s' h hstep => h.step hcache hstep) ⟨?_, ?_, ?_⟩ hrun
    · exact fun e he => absurd he not_mem_nil
    · exact fun g hg => absurd hg not_mem_nil
    · exact nodup_nil
  constructor
  · rintro h g hg hdb ⟨old, c, hloaded, hlt, hsome⟩
    obtain ⟨plan, hplan⟩ := isSome_iff_exists.mp hsome
    obtain ⟨s', hrun', hserved⟩ := EngineState.exists_stale hcache hnumbered hg hdb hloaded hplan
    exact absurd ((h _ s' hrun' _ hserved).2 (Nat.le_refl _) hdb) (Nat.not_le.mpr hlt)
  · intro h after s' hrun' e he
    have hcleared : (s.clearCacheLocked db).Own :=
      @EngineState.Own.step _ _ _ compile hcache _ _ (.clearCacheLocked db) hown rfl
    have hown' : s'.Own :=
      runSteps_induction (fun s a s' h hstep => h.step hcache hstep) hcleared hrun'
    have hfresh : (s.clearCacheLocked db).Fresh compile version db s.nextCall := by
      refine ⟨hversion, fun m sql info he => ?_, h, fun e he hle => ?_⟩
      · exact absurd rfl he.of_clearCacheLocked.1
      · exact absurd (hnumbered.served e he) (Nat.not_lt.mpr hle)
    have hfresh' : s'.Fresh compile version db s.nextCall :=
      runSteps_induction (fun s a s' h hstep => h.step hcache hstep) hfresh hrun'
    exact ⟨hown'.served e he, hfresh'.served e he⟩

/-! A query of the database `db`, compiled to the number of its catalog. -/

def exampleRequest : GetRequest := ⟨"SELECT a FROM t", "db", .kBatchMode, [], ∅⟩

def exampleCompile (_ : SqlContext) (c : Nat) : Option Nat := some c

/-- The engine with a query under way: it has missed the cache, and then a catalog was
installed and loaded. -/
def exampleState : EngineState Nat (mapCache String (CompileInfo Nat)) :=
  { ((EngineState.new 10).getCacheLocked exampleRequest).updateCatalog 11 with
    inFlight := [⟨0, exampleRequest, some (1, 11)⟩] }

theorem clear_serves_exampleState :
    exampleState.version = 1 ∧
      ∀ after s', runSteps (EngineState.step exampleCompile)
          (exampleState.clearCacheLocked "db") after = some s' →
        ∀ e ∈ s'.served, e.info.Serves e.request ∧
          (exampleState.nextCall ≤ e.call → e.request.db = "db" → 1 ≤ e.info.version) := by
  have hrun : runSteps (EngineState.step exampleCompile) (EngineState.new 10)
      [.getCacheLocked exampleRequest, .updateCatalog 11, .loadCatalog 0] = some exampleState :=
    rfl
  refine ⟨rfl, (clear_serves_iff (mapCache_lawful String _) hrun (Nat.le_refl 1) "db").mpr ?_⟩
  intro g hg _ hold
  rw [mem_singleton.mp hg] at hold
  obtain ⟨old, c, hloaded, hlt, -⟩ := hold
  cases hloaded
  exact absurd hlt (by decide)

/-- The first `Get` loads catalog 0 and compiles while catalog 1 is installed and the cache is
cleared. Then it enters its result, and a `Get` that starts after all this is served with it. -/
theorem clear_serves_stale :
    ((runSteps (EngineState.step exampleCompile)
      (EngineState.new 10 : EngineState Nat (mapCache String (CompileInfo Nat)))
      [.getCacheLocked exampleRequest, .loadCatalog 0, .updateCatalog 11, .clearCacheLocked "db",
        .setCacheLocked 0, .getCacheLocked exampleRequest]).map fun s =>
          (s.version, s.served.map fun e => (e.call, e.info.version, e.info.plan))) =
      some (1, [(1, 0, 10), (0, 0, 10)]) := by
  decide

end HybridSE.Vm
