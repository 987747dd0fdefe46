import HybridSE.Vm.BatchRequest

/-!
# HybridSE.Vm.BatchRequestValue

The caches of a context do not show. A graph of runners is run without caches in
`RunnerDag.value` and `RunnerDag.batchValue`; as long as every entry of a cache is the value of its
runner, a run with caches follows the one without (`runWithCache_follows`,
`batchRequestRun_follows`), however the runners are shared and flagged.
-/

namespace HybridSE.Vm

open HybridSE.Lib

variable {R : Type}

namespace RunnerDag

/-- The output of a runner without caches. -/
def value (request : R) : RunnerDag R → Nat → Option (Output R)
  | [], _ => none
  | runner :: rest, id =>
    if id = rest.length then runner.run request (value request rest) else value request rest id

/-- The outputs of a runner for a batch, without caches. -/
def batchValue (empty : R) (requests : List R) : RunnerDag R → Nat → Option (OutputList R)
  | [], _ => none
  | runner :: rest, id =>
    if id = rest.length then
      runner.batchRun empty requests (needBatchCache rest) (value empty rest)
        (batchValue empty requests rest)
    else batchValue empty requests rest id

@[simp] theorem value_length (request : R) (runner : DagRunner R) (rest : RunnerDag R) :
    value request (runner :: rest) rest.length = runner.run request (value request rest) := by
  simp [value]

@[simp] theorem batchValue_length (empty : R) (requests : List R) (runner : DagRunner R)
    (rest : RunnerDag R) : batchValue empty requests (runner :: rest) rest.length =
      runner.batchRun empty requests (needBatchCache rest) (value empty rest)
        (batchValue empty requests rest) := by
  simp [batchValue]

variable {id : Nat}

theorem value_cons_of_lt (request : R) (runner : DagRunner R) {rest : RunnerDag R}
    (h : id < rest.length) : value request (runner :: rest) id = value request rest id := by
  rw [value, if_neg (Nat.ne_of_lt h)]

theorem batchValue_cons_of_lt (empty : R) (requests : List R) (runner : DagRunner R)
    {rest : RunnerDag R} (h : id < rest.length) :
    batchValue empty requests (runner :: rest) id = batchValue empty requests rest id := by
  rw [batchValue, if_neg (Nat.ne_of_lt h)]

theorem value_of_length_le (request : R) {dag} (h : dag.length ≤ id) :
    value request dag id = none := by
  induction dag with
  | nil => rfl
  | cons runner rest ih =>
    rw [List.length_cons] at h
    rw [value, if_neg (by omega), ih (by omega)]

end RunnerDag

/-! ### Runs that follow each other -/

section Follows

variable {σ : Type} {I : σ → Prop} {run₁ : Nat → StateT σ Option (Output R)}
  {run₂ : Nat → Option (Output R)} {batchRun₁ : Nat → StateT σ Option (OutputList R)}
  {batchRun₂ : Nat → Option (OutputList R)}

theorem DagRunner.run_follows (runner : DagRunner R) (request : R)
    (h : ∀ id, Follows I (run₁ id) (run₂ id)) :
    Follows I (runner.run request run₁) (runner.run request run₂) := by
  obtain ⟨kind, needCache, needBatchCache⟩ := runner
  cases kind with
  | request => exact follows_pure _
  | data handler => exact follows_pure _
  | compute compute producers inputRunners =>
    refine (follows_mapM fun id _ => h id).bind fun inputs _ => ?_
    exact (follows_mapM fun id _ => h id).bind fun more _ => follows_pure _
  | proxy remote producer indexInput =>
    refine (h producer).bind fun input _ => ?_
    cases input with
    | none => exact follows_pure none
    | some input =>
      cases indexInput with
      | none => exact (follows_pure none).bind fun index _ => follows_ofOption _
      | some id => exact (h id).bind fun index _ => follows_ofOption _

theorem rowOutput_follows (compute : List (Output R) → List (Output R) → Output R)
    (inputRunners : List Nat) (h : ∀ id, Follows I (run₁ id) (run₂ id))
    (inputs : List (OutputList R)) (i : Nat) :
    Follows I (rowOutput compute inputRunners run₁ inputs i)
      (rowOutput compute inputRunners run₂ inputs i) := by
  refine (follows_ofOption _).bind fun row _ => ?_
  exact (follows_mapM fun id _ => h id).bind fun more _ => follows_pure _

theorem DagRunner.batchRun_follows (runner : DagRunner R) (empty : R) (requests : List R)
    (common : Nat → Bool) (h : ∀ id, Follows I (run₁ id) (run₂ id))
    (hb : ∀ id, Follows I (batchRun₁ id) (batchRun₂ id)) :
    Follows I (runner.batchRun empty requests common run₁ batchRun₁)
      (runner.batchRun empty requests common run₂ batchRun₂) := by
  obtain ⟨kind, needCache, needBatchCache⟩ := runner
  cases kind with
  | request => exact follows_pure _
  | data handler => exact follows_pure _
  | compute compute producers inputRunners =>
    refine (follows_mapM fun id _ => hb id).bind fun inputs _ => ?_
    by_cases hflag : (needBatchCache && !requests.isEmpty) = true
    · simp only [hflag]
      exact (rowOutput_follows compute inputRunners h _ _).bind fun first _ => follows_pure _
    · simp only [hflag]
      exact (follows_mapM fun i _ => rowOutput_follows compute inputRunners h _ i).bind
        fun outputs _ => follows_pure _
  | proxy remote producer indexInput =>
    refine (hb producer).bind fun input _ => ?_
    cases indexInput with
    | none => exact (follows_pure none).bind fun index _ => follows_ofOption _
    | some id => exact (hb id).bind fun index _ => follows_ofOption _

end Follows

/-! ### Caches that hold values -/

/-- Every entry is the value of its runner. -/
structure RunnerContext.Holds (val : Nat → Option (Output R)) (bval : Nat → Option (OutputList R))
    (ctx : RunnerContext R) : Prop where
  cache : ∀ id handler, ctx.cache id = some handler → val id = some (some handler)
  batchCache : ∀ id handlers, ctx.batchCache id = some handlers → bval id = some (some handlers)

namespace RunnerContext

variable {val : Nat → Option (Output R)} {bval : Nat → Option (OutputList R)}
  {ctx : RunnerContext R}

theorem holds_new : (new : RunnerContext R).Holds val bval where
  cache := fun _ _ h => by cases h
  batchCache := fun _ _ h => by cases h

theorem Holds.setCache (h : ctx.Holds val bval) {id output} (hv : val id = some output) :
    (ctx.setCache id output).Holds val bval := by
  refine ⟨fun i handler hi => ?_, h.batchCache⟩
  by_cases hid : i = id
  · subst hid
    have hout : output = some handler := by simpa [RunnerContext.setCache] using hi
    rw [hv, hout]
  · exact h.cache i handler (by simpa [RunnerContext.setCache, hid] using hi)

theorem Holds.setBatchCache (h : ctx.Holds val bval) {id outputs} (hv : bval id = some outputs) :
    (ctx.setBatchCache id outputs).Holds val bval := by
  refine ⟨h.cache, fun i handlers hi => ?_⟩
  by_cases hid : i = id
  · subst hid
    have hout : outputs = some handlers := by simpa [RunnerContext.setBatchCache] using hi
    rw [hv, hout]
  · exact h.batchCache i handlers (by simpa [RunnerContext.setBatchCache, hid] using hi)

end RunnerContext

namespace RunnerDag

variable {val : Nat → Option (Output R)} {bval : Nat → Option (OutputList R)}

/-- The caches do not show in a run for one request. -/
theorem runWithCache_follows (request : R) (dag : RunnerDag R)
    (hval : ∀ id < dag.length, val id = dag.value request id) (id : Nat) :
    Follows (RunnerContext.Holds val bval) (dag.runWithCache request id)
      (dag.value request id) := by
  induction dag generalizing id with
  | nil => exact follows_fail
  | cons runner rest ih =>
    have hrest : ∀ i < rest.length, val i = value request rest i := by
      intro i hi
      rw [hval i (Nat.lt_succ_of_lt hi), value_cons_of_lt request runner hi]
    rw [runWithCache, value]
    by_cases hid : id = rest.length
    · simp only [hid]
      have hrun : Follows (RunnerContext.Holds val bval)
          (runner.run request (runWithCache request rest))
          (runner.run request (value request rest)) :=
        runner.run_follows request fun i => ih hrest i
      have hvalue : val rest.length = runner.run request (value request rest) := by
        rw [hval _ (Nat.lt_succ_self _), value_length]
      cases runner.needCache with
      | false => exact hrun
      | true =>
        refine follows_memo hrun (fun ctx handler hctx h => ?_) fun ctx v hctx h => ?_
        · rw [← hvalue]
          exact hctx.cache _ _ h
        · exact hctx.setCache (hvalue.trans h)
    · simp only [hid]
      exact ih hrest id

/-- Nor do they in a run for a batch. -/
theorem batchRequestRun_follows (empty : R) (requests : List R) (dag : RunnerDag R)
    (hval : ∀ id < dag.length, val id = dag.value empty id)
    (hbval : ∀ id < dag.length, bval id = dag.batchValue empty requests id) (id : Nat) :
    Follows (RunnerContext.Holds val bval) (dag.batchRequestRun empty requests id)
      (dag.batchValue empty requests id) := by
  induction dag generalizing id with
  | nil => exact follows_fail
  | cons runner rest ih =>
    have hrest : ∀ i < rest.length, val i = value empty rest i := by
      intro i hi
      rw [hval i (Nat.lt_succ_of_lt hi), value_cons_of_lt empty runner hi]
    have hbrest : ∀ i < rest.length, bval i = batchValue empty requests rest i := by
      intro i hi
      rw [hbval i (Nat.lt_succ_of_lt hi), batchValue_cons_of_lt empty requests runner hi]
    rw [batchRequestRun, batchValue]
    by_cases hid : id = rest.length
    · simp only [hid]
      have hrun : Follows (RunnerContext.Holds val bval)
          (runner.batchRun empty requests (needBatchCache rest) (runWithCache empty rest)
            (batchRequestRun empty requests rest))
          (runner.batchRun empty requests (needBatchCache rest) (value empty rest)
            (batchValue empty requests rest)) :=
        runner.batchRun_follows empty requests _
          (fun i => runWithCache_follows empty rest hrest i) fun i => ih hrest hbrest i
      have hvalue : bval rest.length = runner.batchRun empty requests (needBatchCache rest)
          (value empty rest) (batchValue empty requests rest) := by
        rw [hbval _ (Nat.lt_succ_self _), batchValue_length]
      cases runner.needCache with
      | false => exact hrun
      | true =>
        refine follows_memo hrun (fun ctx handlers hctx h => ?_) fun ctx v hctx h => ?_
        · rw [← hvalue]
          exact hctx.batchCache _ _ h
        · exact hctx.setBatchCache (hvalue.trans h)
    · simp only [hid]
      exact ih hrest hbrest id

/-- A run for one request gives the value. -/
theorem runOne_eq_value (dag : RunnerDag R) (request : R) (id : Nat) :
    dag.runOne request id = dag.value request id := by
  have hfollows : Follows (RunnerContext.Holds (dag.value request) fun _ => none)
      (dag.runWithCache request id) (dag.value request id) :=
    runWithCache_follows request dag (fun _ _ => rfl) id
  exact hfollows.eq_map RunnerContext.holds_new

/-- A run for a batch gives the batch value. -/
theorem runBatch_eq_batchValue (dag : RunnerDag R) (empty : R) (requests : List R) (id : Nat) :
    dag.runBatch empty requests id = dag.batchValue empty requests id := by
  have hfollows : Follows
      (RunnerContext.Holds (dag.value empty) (dag.batchValue empty requests))
      (dag.batchRequestRun empty requests id) (dag.batchValue empty requests id) :=
    batchRequestRun_follows empty requests dag (fun _ _ => rfl) (fun _ _ => rfl) id
  exact hfollows.eq_map RunnerContext.holds_new

end RunnerDag

end HybridSE.Vm
