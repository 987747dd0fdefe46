import HybridSE.Lib.MapOption
import HybridSE.Lib.Memo
import HybridSE.Vm.DataHandler

/-!
# HybridSE.Vm.BatchRequest

Running a graph of runners for one request (`Runner::RunWithCache`) and for a batch of requests
(`Runner::BatchRequestRun`), with `ProxyRequestRunner` (`src/vm/runner.cc`).

The runners of a graph are listed so that a runner stands before all those that it reads, and
its number, under which the caches know it, counts those after it. What a runner does is
written for any monad with failure, so that it can be run with the caches of a context as well as
without. A failure is a null pointer that is followed.

`DataRunner`, `RequestRunner` and `ProxyRequestRunner` have their own `BatchRequestRun`. All others
compute an output from those of their producers, and some read further runners, the tables of
window unions and window joins, which `RunInputs` runs in the context at hand: for a batch that is a
context without a request.

A remote task answers row by row, with a function of the input row and the index row.
-/

namespace HybridSE.Vm

open HybridSE.Lib

/-- A `DataHandlerList`; `none` is a null list. -/
abbrev OutputList (R : Type) := Option (List (Output R))

/-- What a runner computes, and the runners that it reads. -/
inductive RunnerKind (R : Type)
  /-- `RequestRunner`. -/
  | request
  /-- `DataRunner`. -/
  | data (handler : Output R)
  /-- `Run` of the outputs of the producers and of the runners that `RunInputs` runs. -/
  | compute (run : List (Output R) → List (Output R) → Output R) (producers inputRunners : List Nat)
  /-- `ProxyRequestRunner`. -/
  | proxy (remote : R → R → R) (producer : Nat) (indexInput : Option Nat)

/-- A runner of a graph. -/
structure DagRunner (R : Type) where
  kind : RunnerKind R
  needCache : Bool
  needBatchCache : Bool

/-- A graph of runners, each one before those that it reads. -/
abbrev RunnerDag (R : Type) := List (DagRunner R)

/-- The caches of a `RunnerContext`. -/
structure RunnerContext (R : Type) where
  cache : Nat → Output R
  batchCache : Nat → OutputList R

namespace RunnerContext

variable {R : Type}

/-- The caches of a new context. -/
def new : RunnerContext R where
  cache := fun _ => none
  batchCache := fun _ => none

/-- `SetCache`. -/
def setCache (id : Nat) (data : Output R) (ctx : RunnerContext R) : RunnerContext R :=
  { ctx with cache := fun i => if i = id then data else ctx.cache i }

/-- `SetBatchCache`. -/
def setBatchCache (id : Nat) (data : OutputList R) (ctx : RunnerContext R) : RunnerContext R :=
  { ctx with batchCache := fun i => if i = id then data else ctx.batchCache i }

end RunnerContext

section Rows

variable {R : Type} (remote : R → R → R) (empty : R)

/-- `ExtractRows` of a handler. -/
def extractRows : DataHandler R → Option (List R)
  | .table t => t.iterator.map (List.map Prod.snd)
  | .row row => some [row]
  | .partition _ => none

/-- The rows of one handler of a list: a null handler has one empty row. -/
def extractListRows : Output R → Option (List R)
  | none => some [empty]
  | some handler => extractRows handler

/-- `ExtractRows` of a list of handlers. -/
def extractBatchRows (handlers : List (Output R)) : Option (List R) :=
  (handlers.mapM (extractListRows empty)).map List.flatten

/-- `ExtractRow`, which follows its argument. -/
def extractRow : Output R → Option (Option R)
  | none => none
  | some (.row row) => some (some row)
  | some (.table t) => some ((t.iterator.getD []).head?.map Prod.snd)
  | some (.partition _) => some none

/-- The table that is the answer to a batch of rows. -/
def remoteTable (rows indexRows : List R) : DataHandler R :=
  .table { iterator := some ((List.zipWith remote rows indexRows).map fun row => (0, row))
           orderType := .kNoneOrder }

/-- `ProxyRequestRunner::Run` on an input that is not null. -/
def proxyRun : DataHandler R → Output R → Option (Output R)
  | .row row, none => some (some (.row (remote row row)))
  | .row row, some (.row indexRow) => some (some (.row (remote row indexRow)))
  | .row _, some _ => none
  | .table t, indexInput =>
    match extractRows (.table t) with
    | none => some none
    | some rows =>
      match indexInput with
      | none => some (some (remoteTable remote rows rows))
      | some handler => some ((extractRows handler).map (remoteTable remote rows))
  | .partition _, _ => some none

/-- The outputs for a batch of rows: the rows of the answer, one by one. -/
def remoteRows (rows indexRows : List R) : List (Output R) :=
  (List.range rows.length).map fun i =>
    some (.row ((List.zipWith remote rows indexRows).getD i empty))

/-- The outputs for rows that differ. -/
def runBatchRows (input : List (Output R)) (index : OutputList R) : Option (List (Output R)) := do
  let rows ← extractBatchRows empty input
  let indexRows ← index.elim (some rows) (extractBatchRows empty)
  some (remoteRows remote empty rows indexRows)

/-- The output for one of several tables. -/
def remoteTableAt (input : Output R) (index : Option (Output R)) : Option (Output R) := do
  let rows ← input.bind extractRows
  let indexRows ← index.elim (some rows) fun handler => handler.bind extractRows
  some (some (remoteTable remote rows indexRows))

/-- `ProxyRequestRunner::RunBatchInput`; `common` says that the producer is run once for the
batch. -/
def runBatchInput (common : Bool) (input : List (Output R)) (index : OutputList R) :
    Option (OutputList R) :=
  match input with
  | [] => some none
  | none :: _ => none
  | some (.row row) :: rest =>
    if common || rest.isEmpty then
      match index with
      | none => some (some (List.replicate input.length (some (.row (remote row row)))))
      | some handlers => (extractRow (handlers.getD 0 none)).map fun indexRow =>
        indexRow.map fun x => List.replicate input.length (some (.row (remote row x)))
    else some (runBatchRows remote empty input index)
  | some (.table _) :: _ =>
    some ((List.range input.length).mapM fun i =>
      remoteTableAt remote (input.getD i none) (index.map fun handlers => handlers.getD i none))
  | some (.partition _) :: _ => some none

/-- `ProxyRequestRunner::BatchRequestRun` once the inputs are there. A runner with
`need_batch_cache_` sends the row of the first request only; the index input of that request is put
into a list that shadows the one that is passed on. -/
def proxyBatchRun (common needBatchCache : Bool) (input index : OutputList R) :
    Option (OutputList R) :=
  match input with
  | none => some none
  | some [] => some none
  | some (first :: rest) =>
    if needBatchCache then
      match runBatchInput remote empty common [first] none with
      | some (some outputs) =>
        some (some (List.replicate (rest.length + 1) (outputs.getD 0 none)))
      | _ => none
    else runBatchInput remote empty common (first :: rest) index

end Rows

section Run

variable {R : Type} {m : Type → Type} [FailMonad m]

/-- The inputs of a runner without `RunWithCache` itself, and its `Run`. -/
def DagRunner.run (runner : DagRunner R) (request : R) (run : Nat → m (Output R)) :
    m (Output R) :=
  match runner.kind with
  | .request => pure (some (.row request))
  | .data handler => pure handler
  | .compute compute producers inputRunners => do
      -- the last producer is run first
      let inputs ← producers.reverse.mapM run
      let more ← inputRunners.mapM run
      pure (compute inputs.reverse more)
  | .proxy remote producer indexInput => do
      match ← run producer with
      | none => pure none
      | some input => do
          let index ← indexInput.elim (pure none) run
          ofOption (proxyRun remote input index)

/-- The output of `Run` for one request of a batch. -/
def rowOutput (compute : List (Output R) → List (Output R) → Output R) (inputRunners : List Nat)
    (run : Nat → m (Output R)) (inputs : List (OutputList R)) (i : Nat) : m (Output R) := do
  let row ← ofOption (inputs.mapM fun list => list.map fun handlers => handlers.getD i none)
  let more ← inputRunners.mapM run
  pure (compute row more)

/-- `BatchRequestRun` without the look-up in the cache. `run` is `RunWithCache` in the context of
the batch, and `common` says which runners are run once for the batch. -/
def DagRunner.batchRun (runner : DagRunner R) (empty : R) (requests : List R) (common : Nat → Bool)
    (run : Nat → m (Output R)) (batchRun : Nat → m (OutputList R)) : m (OutputList R) :=
  match runner.kind with
  | .request => pure (some (requests.map fun request => some (.row request)))
  | .data handler => pure (some (List.replicate requests.length handler))
  | .compute compute producers inputRunners => do
      let inputs ← producers.reverse.mapM batchRun
      let output := rowOutput compute inputRunners run inputs.reverse
      if runner.needBatchCache && !requests.isEmpty then do
        let first ← output 0
        pure (some (List.replicate requests.length first))
      else do
        let outputs ← (List.range requests.length).mapM output
        pure (some outputs)
  | .proxy remote producer indexInput => do
      let input ← batchRun producer
      let index ← indexInput.elim (pure none) batchRun
      ofOption (proxyBatchRun remote empty (common producer) runner.needBatchCache input index)

end Run

namespace RunnerDag

variable {R : Type}

/-- `need_batch_cache` of a runner. -/
def needBatchCache : RunnerDag R → Nat → Bool
  | [], _ => false
  | runner :: rest, id => if id = rest.length then runner.needBatchCache else needBatchCache rest id

/-- `RunWithCache` of the runner with the given number. -/
def runWithCache (request : R) : RunnerDag R → Nat → StateT (RunnerContext R) Option (Output R)
  | [], _ => FailMonad.fail
  | runner :: rest, id =>
    if id = rest.length then
      let run := runner.run request (runWithCache request rest)
      if runner.needCache then
        memo (fun ctx => ctx.cache id) (RunnerContext.setCache id) run
      else run
    else runWithCache request rest id

/-- `BatchRequestRun` of the runner with the given number; `empty` is the request of the
context. -/
def batchRequestRun (empty : R) (requests : List R) :
    RunnerDag R → Nat → StateT (RunnerContext R) Option (OutputList R)
  | [], _ => FailMonad.fail
  | runner :: rest, id =>
    if id = rest.length then
      let run := runner.batchRun empty requests (needBatchCache rest) (runWithCache empty rest)
        (batchRequestRun empty requests rest)
      if runner.needCache then
        memo (fun ctx => ctx.batchCache id) (RunnerContext.setBatchCache id) run
      else run
    else batchRequestRun empty requests rest id

/-- The output for one request, in a new context. -/
def runOne (dag : RunnerDag R) (request : R) (id : Nat) : Option (Output R) :=
  (dag.runWithCache request id .new).map Prod.fst

/-- The outputs for a batch, in a new context. -/
def runBatch (dag : RunnerDag R) (empty : R) (requests : List R) (id : Nat) :
    Option (OutputList R) :=
  (dag.batchRequestRun empty requests id .new).map Prod.fst

end RunnerDag

end HybridSE.Vm
