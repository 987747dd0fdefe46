import HybridSE.Vm.BatchRequestValue
import HybridSE.Vm.ProxyBatch

/-!
# HybridSE.Vm.BatchRequestExact

When `BatchRequestRun` of a graph of runners gives what `RunWithCache` gives for the requests one
by one.

Sharing and caches are harmless (`HybridSE.Vm.BatchRequestValue`), so that only two kinds of
runners can differ. A proxy may treat the rows of a batch differently from a row on its own
(`ProxyFits`). A runner with window unions or joins reads their tables in a context without a
request, which shows if one of the tables depends on the request. `runBatch_iff` says that
there is nothing else.
-/

namespace HybridSE.Vm

open HybridSE.Lib List Option

variable {R : Type}

namespace RunnerDag

/-- The output of a runner for a request. -/
def output (dag : RunnerDag R) (request : R) (id : Nat) : Output R :=
  (dag.runOne request id).getD none

variable {dag : RunnerDag R} {id : Nat}

theorem runOne_eq_output {request} (h : (dag.runOne request id).isSome) :
    dag.runOne request id = some (dag.output request id) := by
  obtain ⟨v, hv⟩ := isSome_iff_exists.mp h
  rw [output, hv]
  rfl

theorem runOne_cons_of_lt (runner : DagRunner R) {rest : RunnerDag R} (h : id < rest.length)
    (request : R) : runOne (runner :: rest) request id = rest.runOne request id := by
  rw [runOne_eq_value, runOne_eq_value, value_cons_of_lt request runner h]

theorem runBatch_cons_of_lt (runner : DagRunner R) {rest : RunnerDag R} (h : id < rest.length)
    (empty : R) (requests : List R) :
    runBatch (runner :: rest) empty requests id = rest.runBatch empty requests id := by
  rw [runBatch_eq_batchValue, runBatch_eq_batchValue, batchValue_cons_of_lt empty requests runner h]

theorem runOne_length (runner : DagRunner R) (rest : RunnerDag R) (request : R) :
    runOne (runner :: rest) request rest.length = runner.run request (rest.runOne request) := by
  have hrest : rest.runOne request = rest.value request := funext (runOne_eq_value rest request)
  rw [runOne_eq_value, value_length, hrest]

theorem runBatch_length (runner : DagRunner R) (rest : RunnerDag R) (empty : R)
    (requests : List R) :
    runBatch (runner :: rest) empty requests rest.length =
      runner.batchRun empty requests rest.needBatchCache (rest.runOne empty)
        (rest.runBatch empty requests) := by
  have hrest : rest.runOne empty = rest.value empty := funext (runOne_eq_value rest empty)
  have hbatch : rest.runBatch empty requests = rest.batchValue empty requests :=
    funext (runBatch_eq_batchValue rest empty requests)
  rw [runBatch_eq_batchValue, batchValue_length, hrest, hbatch]

theorem lt_length_of_runOne {request} (h : (dag.runOne request id).isSome) : id < dag.length := by
  by_contra hle
  rw [runOne_eq_value, value_of_length_le request (by omega)] at h
  cases h

/-- A batch run gives what the single runs give. -/
def BatchAgrees (dag : RunnerDag R) (empty : R) (requests : List R) (id : Nat) : Prop :=
  ∃ outputs, dag.runBatch empty requests id = some (some outputs) ∧
    List.Forall₂ (fun q output => dag.runOne q id = some output) requests outputs

theorem batchAgrees_iff {empty requests} (h : ∀ q ∈ requests, (dag.runOne q id).isSome) :
    dag.BatchAgrees empty requests id ↔
      dag.runBatch empty requests id = some (some (requests.map fun q => dag.output q id)) := by
  have hforall : List.Forall₂ (fun q output => dag.runOne q id = some output) requests
      (requests.map fun q => dag.output q id) := by
    rw [forall₂_map_right_iff, forall₂_same]
    exact fun q hq => runOne_eq_output (h q hq)
  constructor
  · rintro ⟨outputs, hrun, houtputs⟩
    have heq : some outputs = some (requests.map fun q => dag.output q id) :=
      (mapM_eq_some_iff.mpr houtputs).symm.trans (mapM_eq_some_iff.mpr hforall)
    rw [hrun, heq]
  · intro hrun
    exact ⟨_, hrun, hforall⟩

end RunnerDag

/-- A runner agrees with itself request by request, given the runners that it reads. -/
def DagRunner.Fits (runner : DagRunner R) (empty : R) (requests : List R) (rest : RunnerDag R) :
    Prop :=
  match runner.kind with
  | .request => True
  | .data _ => True
  | .compute compute producers inputRunners =>
    ∀ q ∈ (if runner.needBatchCache then requests.take 1 else requests),
      ∃ more, inputRunners.mapM (rest.runOne empty) = some more ∧
        compute (producers.map (rest.output q)) more =
          compute (producers.map (rest.output q)) (inputRunners.map (rest.output q))
  | .proxy remote producer indexInput =>
    ProxyFits remote empty (rest.needBatchCache producer) runner.needBatchCache requests
      (fun q => rest.output q producer) (indexInput.map fun i q => rest.output q i)

/-- The runners that a runner reads. -/
def DagRunner.reads (runner : DagRunner R) : List Nat :=
  match runner.kind with
  | .request => []
  | .data _ => []
  | .compute _ producers inputRunners => producers ++ inputRunners
  | .proxy _ producer indexInput => producer :: indexInput.toList

section Runner

variable {empty : R} {requests : List R} {rest : RunnerDag R}

variable {q : R} {producers : List Nat} {c b : Bool} {o : R → Output R}

/-- The inputs of a runner that runs. -/
theorem mapM_runOne {ids : List Nat} {vs} (h : ids.mapM (rest.runOne q) = some vs) :
    vs = ids.map (rest.output q) ∧ ∀ id ∈ ids, (rest.runOne q id).isSome := by
  have hall : ∀ id ∈ ids, (rest.runOne q id).isSome :=
    isSome_mapM_iff.mp (by rw [h]; rfl)
  refine ⟨?_, hall⟩
  have := mapM_eq_some_map fun id hid => RunnerDag.runOne_eq_output (hall id hid)
  rw [h] at this
  injection this

/-- What `Run` gets from the producers and from the other runners. -/
theorem run_compute {compute : List (Output R) → List (Output R) → Output R}
    {inputRunners : List Nat} {v : Output R}
    (h : (DagRunner.mk (.compute compute producers inputRunners) c b).run q (rest.runOne q) = some
      v) :
    v = compute (producers.map (rest.output q)) (inputRunners.map (rest.output q)) ∧
      (∀ id ∈ producers, (rest.runOne q id).isSome) ∧
      ∀ id ∈ inputRunners, (rest.runOne q id).isSome := by
  obtain ⟨inputs, hinputs, h⟩ := bind_eq_some_iff.mp h
  obtain ⟨more, hmore, h⟩ := bind_eq_some_iff.mp h
  injection h with h
  obtain ⟨rfl, hproducers⟩ := mapM_runOne hinputs
  obtain ⟨rfl, hrunners⟩ := mapM_runOne hmore
  refine ⟨?_, fun id hid => hproducers id (mem_reverse.mpr hid), hrunners⟩
  rw [← h, map_reverse, reverse_reverse]

/-- The output for one request of a batch, from the outputs of the producers. -/
theorem rowOutput_eq (compute : List (Output R) → List (Output R) → Output R)
    (producers inputRunners : List Nat) {i} (hi : requests[i]? = some q) :
    rowOutput compute inputRunners (rest.runOne empty)
        (producers.map fun p => some (requests.map fun q => rest.output q p)) i =
      (inputRunners.mapM (rest.runOne empty)).map (compute (producers.map (rest.output q))) := by
  have hrow : ((producers.map fun p => (some (requests.map fun q => rest.output q p) :
      OutputList R)).mapM fun list => list.map fun handlers => handlers.getD i none) =
        some (producers.map (rest.output q)) := by
    rw [mapM_eq_some_iff]
    simp [hi]
  rw [rowOutput, hrow]
  cases inputRunners.mapM (rest.runOne empty) <;> rfl

/-- The lists that the producers give. -/
theorem mapM_runBatch
    (hbatch : ∀ id < rest.length, rest.runBatch empty requests id = some (some (requests.map fun q
      => rest.output q id))) (hlt : ∀ id ∈ producers, id < rest.length) :
    producers.reverse.mapM (rest.runBatch empty requests) =
      some (producers.map fun p => some (requests.map fun q => rest.output q p)).reverse := by
  rw [← map_reverse]
  exact mapM_eq_some_map fun id hid => hbatch id (hlt id (mem_reverse.mp hid))

/-- A runner that computes: only the runners that `RunInputs` runs can make a difference. -/
theorem batchRun_compute_iff {compute : List (Output R) → List (Output R) → Output R}
    {inputRunners : List Nat} (hne : requests ≠ [])
    (hrun : ∀ q ∈ requests, (DagRunner.mk (.compute compute producers inputRunners) c b).run q
      (rest.runOne q) = some (o q)) (honce : b = true → ∀ q ∈ requests, ∀ q' ∈ requests, o q = o q')
    (hbatch : ∀ id < rest.length, rest.runBatch empty requests id = some (some (requests.map fun q
      => rest.output q id))) :
    (DagRunner.mk (.compute compute producers inputRunners) c b).batchRun empty requests
        rest.needBatchCache (rest.runOne empty) (rest.runBatch empty requests) =
          some (some (requests.map o)) ↔
      (DagRunner.mk (.compute compute producers inputRunners) c b).Fits empty requests rest := by
  obtain ⟨q₁, others, rfl⟩ := exists_cons_of_ne_nil hne
  have hmem : q₁ ∈ q₁ :: others := mem_cons_self
  have hlt : ∀ id ∈ producers, id < rest.length := fun id hid =>
    RunnerDag.lt_length_of_runOne ((run_compute (hrun q₁ hmem)).2.1 id hid)
  have ho : ∀ q ∈ q₁ :: others,
      o q = compute (producers.map (rest.output q)) (inputRunners.map (rest.output q)) :=
    fun q hq => (run_compute (hrun q hq)).1
  have hout : ∀ i q, (q₁ :: others)[i]? = some q →
      rowOutput compute inputRunners (rest.runOne empty)
        (producers.map fun p => some ((q₁ :: others).map fun q => rest.output q p)).reverse.reverse i =
          (inputRunners.mapM (rest.runOne empty)).map
            (compute (producers.map (rest.output q))) := by
    intro i q hi
    rw [reverse_reverse]
    exact rowOutput_eq compute producers inputRunners hi
  have hinputs := mapM_runBatch hbatch hlt
  cases b with
  | true =>
    have hreplicate : (q₁ :: others).map o = List.replicate (q₁ :: others).length (o q₁) := by
      rw [eq_replicate_iff]
      refine ⟨by simp, fun x hx => ?_⟩
      obtain ⟨q, hq, rfl⟩ := List.mem_map.mp hx
      exact honce rfl q hq q₁ hmem
    have hrunBatch : (DagRunner.mk (.compute compute producers inputRunners) c true).batchRun
        empty (q₁ :: others) rest.needBatchCache (rest.runOne empty)
        (rest.runBatch empty (q₁ :: others)) =
          (inputRunners.mapM (rest.runOne empty)).map fun more =>
            some (List.replicate (q₁ :: others).length
              (compute (producers.map (rest.output q₁)) more)) := by
      simp only [DagRunner.batchRun, hinputs]
      show (rowOutput compute inputRunners (rest.runOne empty) _ 0).bind _ = _
      rw [hout 0 q₁ rfl]
      cases inputRunners.mapM (rest.runOne empty) <;> rfl
    rw [hrunBatch, hreplicate, map_eq_some_iff]
    simp only [DagRunner.Fits, if_true, take_succ_cons, take_zero, mem_singleton,
      forall_eq, ← ho q₁ hmem]
    refine exists_congr fun more => and_congr_right fun _ => ?_
    simp
  | false =>
    have hrunBatch : (DagRunner.mk (.compute compute producers inputRunners) c false).batchRun
        empty (q₁ :: others) rest.needBatchCache (rest.runOne empty)
        (rest.runBatch empty (q₁ :: others)) =
          ((q₁ :: others).mapM fun q => (inputRunners.mapM (rest.runOne empty)).map
            (compute (producers.map (rest.output q)))).map some := by
      simp only [DagRunner.batchRun, hinputs]
      rw [← mapM_range_eq hout, map_eq_bind]
      rfl
    rw [hrunBatch, map_eq_some_iff]
    constructor
    · rintro ⟨outputs, houtputs, heq⟩ q hq
      rw [heq, mapM_eq_some_iff, forall₂_map_right_iff, forall₂_same] at houtputs
      obtain ⟨more, hmore, hv⟩ := map_eq_some_iff.mp (houtputs q hq)
      exact ⟨more, hmore, hv.trans (ho q hq)⟩
    · intro h
      refine ⟨(q₁ :: others).map o, ?_, rfl⟩
      rw [mapM_eq_some_iff, forall₂_map_right_iff, forall₂_same]
      intro q hq
      obtain ⟨more, hmore, hv⟩ := h q hq
      rw [hmore, map_some, hv, ho q hq]

/-- A proxy. -/
theorem batchRun_proxy_iff {remote : R → R → R} {producer : Nat} {indexInput : Option Nat}
    (hne : requests ≠ []) (hdefined : ∀ id < rest.length, ∀ q ∈ requests, (rest.runOne q id).isSome)
    (hindex : ∀ i ∈ indexInput, i < rest.length)
    (hrun : ∀ q ∈ requests, (DagRunner.mk (.proxy remote producer indexInput) c b).run q
      (rest.runOne q) = some (o q))
    (hcommon : rest.needBatchCache producer = true → ∀ q ∈ requests, ∀ q' ∈ requests, rest.runOne q
      producer = rest.runOne q' producer)
    (honce : b = true → ∀ q ∈ requests, ∀ q' ∈ requests, o q = o q')
    (hbatch : ∀ id < rest.length, rest.runBatch empty requests id = some (some (requests.map fun q
      => rest.output q id))) :
    (DagRunner.mk (.proxy remote producer indexInput) c b).batchRun empty requests
        rest.needBatchCache (rest.runOne empty) (rest.runBatch empty requests) =
          some (some (requests.map o)) ↔
      (DagRunner.mk (.proxy remote producer indexInput) c b).Fits empty requests rest := by
  obtain ⟨q₁, hmem⟩ := exists_mem_of_ne_nil requests hne
  have hlt : producer < rest.length := by
    obtain ⟨v, hv, -⟩ := bind_eq_some_iff.mp (hrun q₁ hmem)
    exact RunnerDag.lt_length_of_runOne (by rw [hv]; rfl)
  have hproducer : ∀ q ∈ requests, rest.runOne q producer = some (rest.output q producer) :=
    fun q hq => RunnerDag.runOne_eq_output (hdefined producer hlt q hq)
  have hsingle : ∀ q ∈ requests, proxyOutput remote (rest.output q producer)
      (indexAt (indexInput.map fun i q => rest.output q i) q) = some (o q) := by
    intro q hq
    rw [← hrun q hq]
    simp only [DagRunner.run, hproducer q hq]
    cases hin : rest.output q producer with
    | none => rfl
    | some handler =>
      cases indexInput with
      | none => exact (ofOption_eq _).symm
      | some i =>
        have hi : rest.runOne q i = some (rest.output q i) :=
          RunnerDag.runOne_eq_output (hdefined i (hindex i rfl) q hq)
        show proxyRun remote handler (rest.output q i) =
          (rest.runOne q i).bind fun index => ofOption (proxyRun remote handler index)
        simp [hi]
  have hbatchRun : (DagRunner.mk (.proxy remote producer indexInput) c b).batchRun empty requests
      rest.needBatchCache (rest.runOne empty) (rest.runBatch empty requests) =
        proxyBatchRun remote empty (rest.needBatchCache producer) b
          (some (requests.map fun q => rest.output q producer))
          ((indexInput.map fun i q => rest.output q i).map fun f => requests.map f) := by
    simp only [DagRunner.batchRun, hbatch producer hlt]
    cases indexInput with
    | none => exact ofOption_eq _
    | some i =>
      simp [hbatch i (hindex i rfl)]
  rw [hbatchRun]
  refine proxyBatchRun_iff hne hsingle (fun hc q hq q' hq' => ?_) honce
  have := hcommon hc q hq q' hq'
  rw [hproducer q hq, hproducer q' hq'] at this
  injection this

/-- One runner of a graph. -/
theorem batchRun_iff (runner : DagRunner R) (hne : requests ≠ [])
    (hdefined : ∀ id < rest.length, ∀ q ∈ requests, (rest.runOne q id).isSome)
    (hreads : ∀ id ∈ runner.reads, id < rest.length)
    (hrun : ∀ q ∈ requests, runner.run q (rest.runOne q) = some (o q))
    (hcommon : ∀ id, rest.needBatchCache id = true → ∀ q ∈ requests, ∀ q' ∈ requests, rest.runOne q
      id = rest.runOne q' id)
    (honce : runner.needBatchCache = true → ∀ q ∈ requests, ∀ q' ∈ requests, o q = o q')
    (hbatch : ∀ id < rest.length, rest.runBatch empty requests id = some (some (requests.map fun q
      => rest.output q id))) :
    runner.batchRun empty requests rest.needBatchCache (rest.runOne empty)
        (rest.runBatch empty requests) = some (some (requests.map o)) ↔
      runner.Fits empty requests rest := by
  obtain ⟨kind, c, b⟩ := runner
  cases kind with
  | request =>
    refine iff_of_true (congrArg (fun l => some (some l)) (map_congr_left fun q hq => ?_)) trivial
    exact some_inj.mp (hrun q hq)
  | data handler =>
    refine iff_of_true (congrArg (fun l => some (some l)) ?_) trivial
    rw [eq_comm, eq_replicate_iff]
    refine ⟨length_map _, fun x hx => ?_⟩
    obtain ⟨q, hq, rfl⟩ := List.mem_map.mp hx
    exact (some_inj.mp (hrun q hq)).symm
  | compute compute producers inputRunners => exact batchRun_compute_iff hne hrun honce hbatch
  | proxy remote producer indexInput =>
    refine batchRun_proxy_iff hne hdefined (fun i hi => ?_) hrun (hcommon producer) honce hbatch
    exact hreads i (mem_cons_of_mem _ (mem_toList.mpr hi))

end Runner

namespace RunnerDag

/-- The graph runs on all requests: its pointers lead to runners of the graph, and every runner has
an output, which may be null. -/
structure Runs (dag : RunnerDag R) (requests : List R) : Prop where
  reads : ∀ runner rest, runner :: rest <:+ dag → ∀ id ∈ runner.reads, id < rest.length
  runs : ∀ id < dag.length, ∀ q ∈ requests, (dag.runOne q id).isSome

/-- The runners with `need_batch_cache_` have the same output for all requests. -/
def CommonRunners (dag : RunnerDag R) (requests : List R) : Prop :=
  ∀ id, dag.needBatchCache id = true → ∀ q ∈ requests, ∀ q' ∈ requests,
    dag.runOne q id = dag.runOne q' id

variable {id : Nat} {rest : RunnerDag R} {runner : DagRunner R} {requests : List R}

theorem lt_length_of_needBatchCache {dag : RunnerDag R} (h : dag.needBatchCache id = true) :
    id < dag.length := by
  induction dag with
  | nil => cases h
  | cons runner rest ih =>
    rw [needBatchCache] at h
    split at h
    case isTrue hid => exact hid ▸ Nat.lt_succ_self _
    case isFalse => exact Nat.lt_succ_of_lt (ih h)

theorem needBatchCache_cons_of_lt (runner : DagRunner R) (h : id < rest.length) :
    needBatchCache (runner :: rest) id = rest.needBatchCache id := by
  rw [needBatchCache, if_neg (Nat.ne_of_lt h)]

theorem needBatchCache_length (runner : DagRunner R) (rest : RunnerDag R) :
    needBatchCache (runner :: rest) rest.length = runner.needBatchCache := by
  rw [needBatchCache, if_pos rfl]

theorem Runs.tail (h : Runs (runner :: rest) requests) : Runs rest requests where
  reads := fun runner' rest' hsuffix => h.reads runner' rest' (hsuffix.trans (suffix_cons _ _))
  runs := fun id hid q hq => by
    rw [← runOne_cons_of_lt runner hid]
    exact h.runs id (Nat.lt_succ_of_lt hid) q hq

theorem CommonRunners.tail (h : CommonRunners (runner :: rest) requests) :
    CommonRunners rest requests := by
  intro id hflag q hq q' hq'
  have hid := lt_length_of_needBatchCache hflag
  rw [← runOne_cons_of_lt runner hid, ← runOne_cons_of_lt runner hid]
  exact h id ((needBatchCache_cons_of_lt runner hid).trans hflag) q hq q' hq'

theorem batchAgrees_cons_of_lt (runner : DagRunner R) {empty : R} (h : id < rest.length) :
    BatchAgrees (runner :: rest) empty requests id ↔ rest.BatchAgrees empty requests id := by
  simp only [BatchAgrees, runBatch_cons_of_lt runner h, runOne_cons_of_lt runner h]

/-- The first runner of a graph whose other runners agree. -/
theorem batchAgrees_length_iff {empty} (hne : requests ≠ [])
    (hruns : Runs (runner :: rest) requests) (hcommon : CommonRunners (runner :: rest) requests)
    (hrest : ∀ id < rest.length, rest.BatchAgrees empty requests id) :
    BatchAgrees (runner :: rest) empty requests rest.length ↔ runner.Fits empty requests rest := by
  have hself : ∀ q ∈ requests, (runOne (runner :: rest) q rest.length).isSome :=
    hruns.runs _ (Nat.lt_succ_self _)
  rw [batchAgrees_iff hself, runBatch_length]
  refine batchRun_iff runner hne hruns.tail.runs (hruns.reads runner rest (suffix_refl _))
    (fun q hq => ?_) hcommon.tail (fun hflag q hq q' hq' => ?_) fun id hid => ?_
  · rw [← runOne_length]
    exact runOne_eq_output (hself q hq)
  · have hout := hcommon rest.length ((needBatchCache_length runner rest).trans hflag) q hq q' hq'
    rw [output, output, hout]
  · exact (batchAgrees_iff (hruns.tail.runs id hid)).mp (hrest id hid)

/-- **Batch requests.** For a graph that runs on all requests of a batch, and in which the runners
with `need_batch_cache_` do not tell the requests apart, every runner gives for the batch
what it gives for the requests one by one if and only if every runner fits. -/
theorem runBatch_iff {dag : RunnerDag R} {requests : List R} (empty : R) (hne : requests ≠ [])
    (hruns : dag.Runs requests) (hcommon : dag.CommonRunners requests) :
    (∀ id < dag.length, dag.BatchAgrees empty requests id) ↔
      ∀ runner rest, runner :: rest <:+ dag → runner.Fits empty requests rest := by
  induction dag with
  | nil =>
    refine iff_of_true (fun id hid => (Nat.not_lt_zero id hid).elim) ?_
    intro runner rest hsuffix
    cases suffix_nil.mp hsuffix
  | cons runner rest ih =>
    have ih := ih hruns.tail hcommon.tail
    constructor
    · intro h runner' rest' hsuffix
      have hrest : ∀ id < rest.length, BatchAgrees rest empty requests id := fun id hid =>
        (batchAgrees_cons_of_lt runner hid).mp (h id (Nat.lt_succ_of_lt hid))
      rcases suffix_cons_iff.mp hsuffix with heq | hsuffix
      · cases heq
        exact (batchAgrees_length_iff hne hruns hcommon hrest).mp (h _ (Nat.lt_succ_self _))
      · exact ih.mp hrest runner' rest' hsuffix
    · intro h id hid
      have hrest : ∀ id < rest.length, BatchAgrees rest empty requests id :=
        ih.mpr fun runner' rest' hsuffix =>
          h runner' rest' (hsuffix.trans (suffix_cons _ _))
      rcases Nat.lt_succ_iff_lt_or_eq.mp hid with hlt | rfl
      · exact (batchAgrees_cons_of_lt runner hlt).mpr (hrest id hlt)
      · exact (batchAgrees_length_iff hne hruns hcommon hrest).mpr
          (h runner rest (suffix_refl _))

/-! ### A proxy with an index input -/

/-- A runner without caches. -/
def plain (kind : RunnerKind R) : DagRunner R where
  kind := kind
  needCache := false
  needBatchCache := false

/-- A proxy that is sent the request, with the request as index row. -/
def requestProxy : RunnerDag Nat :=
  [plain (.proxy (fun _ index => index) 0 (some 0)), plain .request]

theorem forall_suffix_requestProxy {p : DagRunner Nat → RunnerDag Nat → Prop}
    (h₁ : p (plain (.proxy (fun _ index => index) 0 (some 0))) [plain .request])
    (h₀ : p (plain .request) []) :
    ∀ runner rest, runner :: rest <:+ requestProxy → p runner rest := by
  intro runner rest hsuffix
  rcases suffix_cons_iff.mp hsuffix with heq | hsuffix
  · cases heq
    exact h₁
  · rcases suffix_cons_iff.mp hsuffix with heq | hsuffix
    · cases heq
      exact h₀
    · cases suffix_nil.mp hsuffix

theorem requestProxy_runs : requestProxy.Runs [1, 2] where
  reads := forall_suffix_requestProxy (by decide) (by decide)
  runs := by
    intro id hid q _
    have hid : id = 0 ∨ id = 1 := by
      simp only [requestProxy, length_cons, length_nil] at hid
      omega
    rcases hid with rfl | rfl <;> rfl

theorem requestProxy_common : requestProxy.CommonRunners [1, 2] := by
  intro id hflag
  have hid := lt_length_of_needBatchCache hflag
  have hid : id = 0 ∨ id = 1 := by
    simp only [requestProxy, length_cons, length_nil] at hid
    omega
  rcases hid with rfl | rfl <;> cases hflag

theorem runBatch_requestProxy : ([1, 2] : List Nat) ≠ [] ∧
    ∀ id < requestProxy.length, requestProxy.BatchAgrees 0 [1, 2] id := by
  refine ⟨by decide, (runBatch_iff 0 (by decide) requestProxy_runs requestProxy_common).mpr ?_⟩
  refine forall_suffix_requestProxy (Or.inl ⟨?_, ?_⟩) trivial
  · intro q _
    exact ⟨q, rfl⟩
  · intro f hf
    cases hf
    intro q _ row _ hnull
    cases hnull

/-- A proxy that is run once for the batch is sent the first row without its index row, and a proxy
whose producer is run once for the batch is sent the first index row for all requests. -/
theorem not_batchAgrees_indexInput :
    ¬BatchAgrees
        [⟨.proxy (fun _ index => index) 1 (some 0), false, true⟩,
          plain (.data (some (.row 4))), plain (.data (some (.row 5)))] 0 [1] 2 ∧
      ¬BatchAgrees
        [plain (.proxy (fun _ index => index) 1 (some 0)),
          ⟨.data (some (.row 4)), false, true⟩, plain .request] 0 [1, 2] 2 := by
  constructor
  · rintro ⟨outputs, hbatch, hone⟩
    cases hbatch
    cases hone with
    | cons h _ => cases h
  · rintro ⟨outputs, hbatch, hone⟩
    cases hbatch
    cases hone with
    | cons _ hrest =>
      cases hrest with
      | cons h _ => cases h

end RunnerDag

end HybridSE.Vm
