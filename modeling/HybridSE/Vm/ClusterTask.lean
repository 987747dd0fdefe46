import HybridSE.Vm.DataHandler

/-!
# HybridSE.Vm.ClusterTask

Cluster tasks and the part of `RunnerBuilder` that joins two of them under a binary runner
(`src/vm/runner.h`, `src/vm/runner.cc`).

A task is a runner with the place where it runs. A local task runs where the request arrives. A
completed cluster task runs on the tablet that its index key is routed to, and it runs there on the
row of its input task, or on the request if it has none. A proxy runner stands for a task in
another one: it sends the row of its producer to the task.

The runners form a graph of pointers. Here a runner is the tree below it, and its number `id_` is
its identity: a proxy is looked up by the number of the root that it stands for, and `SetProducer`
on a runner changes every occurrence of it, in the tasks at hand as well as in those that the
builder holds (`Runner.setInputs`). Which tablet a proxy asks, and the caches, change nothing in
what a runner gives, and are left out.
-/

namespace HybridSE.Vm

/-- A `Runner` with its producers. -/
inductive Runner (R : Type)
  /-- `RequestRunner`: the request of the context it runs in. -/
  | request (id : Nat)
  /-- A runner without producers, such as `DataRunner`. -/
  | data (id : Nat) (handler : Output R)
  | unary (id : Nat) (compute : Output R → Output R) (producer : Runner R)
  | binary (id : Nat) (compute : Output R → Output R → Output R) (left right : Runner R)
  /-- `ProxyRequestRunner`: `remote` is the root of the task `taskId` of the cluster job. Of the
  producers only the first one is read. -/
  | proxy (id taskId : Nat) (indexInput : Option Nat) (remote input : Runner R)

/-- A runner that takes two producers, before it has them. -/
structure BinaryRunner (R : Type) where
  id : Nat
  compute : Output R → Output R → Output R

namespace Runner

variable {R : Type}

/-- `id_`. -/
def id : Runner R → Nat
  | .request id => id
  | .data id _ => id
  | .unary id _ _ => id
  | .binary id _ _ _ => id
  | .proxy id _ _ _ _ => id

/-- `ProxyRequestRunner::Run`: a row is sent to the remote task, a table as a batch of rows. -/
def ask (batch : (R → Output R) → List R → Output R) (remote : R → Output R) : Output R → Output R
  | some (.row y) => remote y
  | some (.table t) => t.iterator.bind fun rows => batch remote (rows.map Prod.snd)
  | some (.partition _) => none
  | none => none

/-- `RunWithCache` in a context with the request `x`. `batch` is the answer of the tablets to a
batch of rows. -/
def run (batch : (R → Output R) → List R → Output R) : Runner R → R → Output R
  | .request _, x => some (.row x)
  | .data _ handler, _ => handler
  | .unary _ compute producer, x => compute (producer.run batch x)
  | .binary _ compute left right, x => compute (left.run batch x) (right.run batch x)
  | .proxy _ _ _ remote input, x => ask batch (remote.run batch) (input.run batch x)

/-- `SetProducer(0, p)` on the runners `ids`, wherever they occur. -/
def setInputs (ids : List Nat) (p : Runner R) : Runner R → Runner R
  | .request id => .request id
  | .data id handler => .data id handler
  | .unary id compute producer =>
    .unary id compute (if id ∈ ids then p else setInputs ids p producer)
  | .binary id compute left right =>
    .binary id compute (if id ∈ ids then p else setInputs ids p left) (setInputs ids p right)
  | .proxy id taskId indexInput remote input =>
    .proxy id taskId indexInput (setInputs ids p remote)
      (if id ∈ ids then p else setInputs ids p input)

end Runner

/-- `RouteInfo` without `input_`. Tables are told apart by their pointers, and a key that is not
valid is `none`. -/
structure RouteInfo (Key : Type) where
  index : String := ""
  indexKey : Option Key := none
  indexKeyInputRunner : Option Nat := none
  tableHandler : Option Nat := none
  deriving DecidableEq

namespace RouteInfo

variable {Key : Type}

/-- `RouteInfo::IsCluster`. -/
def isCluster (r : RouteInfo Key) : Bool := r.tableHandler.isSome && r.index != ""

/-- `RouteInfo::IsCompleted`. -/
def isCompleted (r : RouteInfo Key) : Bool :=
  r.tableHandler.isSome && r.index != "" && r.indexKey.isSome

end RouteInfo

/-- A `ClusterTask`. The input task is held by a shared pointer, whose address is `ptr`. The
runners of `input_runners_` are given by their numbers. -/
inductive ClusterTask (R Key : Type)
  | noInput (root : Option (Runner R)) (inputRunners : List Nat) (routeInfo : RouteInfo Key)
  | withInput (root : Option (Runner R)) (inputRunners : List Nat) (routeInfo : RouteInfo Key)
      (ptr : Nat) (input : ClusterTask R Key)

namespace ClusterTask

variable {R Key : Type}

/-- `ClusterTask()`. -/
def invalid : ClusterTask R Key := .noInput none [] {}

/-- A local task. -/
def ofRunner (runner : Runner R) : ClusterTask R Key := .noInput (some runner) [] {}

/-- `GetRoot`. -/
def root : ClusterTask R Key → Option (Runner R)
  | .noInput root _ _ => root
  | .withInput root _ _ _ _ => root

/-- `input_runners_`. -/
def inputRunners : ClusterTask R Key → List Nat
  | .noInput _ ids _ => ids
  | .withInput _ ids _ _ _ => ids

/-- `GetRouteInfo`. -/
def routeInfo : ClusterTask R Key → RouteInfo Key
  | .noInput _ _ route => route
  | .withInput _ _ route _ _ => route

/-- The pointer `input_`. -/
def inputPtr : ClusterTask R Key → Option Nat
  | .noInput .. => none
  | .withInput _ _ _ ptr _ => some ptr

/-- `SetRoot`. -/
def setRoot (runner : Runner R) : ClusterTask R Key → ClusterTask R Key
  | .noInput _ ids route => .noInput (some runner) ids route
  | .withInput _ ids route ptr input => .withInput (some runner) ids route ptr input

/-- `IsValid`. -/
def isValid (t : ClusterTask R Key) : Bool := t.root.isSome

/-- `IsClusterTask`. -/
def isClusterTask (t : ClusterTask R Key) : Bool := t.routeInfo.isCluster

/-- `IsCompletedClusterTask`. -/
def isCompletedClusterTask (t : ClusterTask R Key) : Bool := t.isValid && t.routeInfo.isCompleted

/-- `IsUnCompletedClusterTask`. -/
def isUnCompletedClusterTask (t : ClusterTask R Key) : Bool :=
  t.isClusterTask && !t.routeInfo.isCompleted

/-- `GetRequestInput`, by the number of the runner. -/
def getRequestInput : ClusterTask R Key → Option Nat
  | .withInput (some _) _ _ _ input => input.root.map Runner.id
  | _ => none

/-- `TaskCanBeMerge`, which is `RouteInfo::EqualWith`: input tasks are compared by address. -/
def taskCanBeMerge [DecidableEq Key] (t₁ t₂ : ClusterTask R Key) : Bool :=
  decide (t₁.inputPtr = t₂.inputPtr) &&
    decide (t₁.routeInfo.tableHandler = t₂.routeInfo.tableHandler) &&
      decide (t₁.routeInfo.index = t₂.routeInfo.index) &&
        decide (t₁.routeInfo.indexKey = t₂.routeInfo.indexKey)

/-- The route of a task, with another root and other input runners. -/
def withRoot (root : Runner R) (ids : List Nat) : ClusterTask R Key → ClusterTask R Key
  | .noInput _ _ route => .noInput (some root) ids route
  | .withInput _ _ route ptr input => .withInput (some root) ids route ptr input

/-- `TaskMergeToLeft`. -/
def taskMergeToLeft (root : Runner R) (t₁ t₂ : ClusterTask R Key) : ClusterTask R Key :=
  t₁.withRoot root (t₁.inputRunners ++ t₂.inputRunners)

/-- `TaskMergeToRight`. -/
def taskMergeToRight (root : Runner R) (t₁ t₂ : ClusterTask R Key) : ClusterTask R Key :=
  t₂.withRoot root (t₁.inputRunners ++ t₂.inputRunners)

/-- `SetProducer(0, p)` on the runners `ids` in all runners of a task and its inputs. -/
def setInputs (ids : List Nat) (p : Runner R) : ClusterTask R Key → ClusterTask R Key
  | .noInput root inputRunners route => .noInput (root.map (Runner.setInputs ids p)) inputRunners route
  | .withInput root inputRunners route ptr input =>
    .withInput (root.map (Runner.setInputs ids p)) inputRunners route ptr (input.setInputs ids p)

/-- What `ResetInputs` passes to `SetProducer`: the input runners and the root of the input. -/
def resetArgs : ClusterTask R Key → Option (List Nat × Runner R)
  | .noInput .. => none
  | .withInput _ ids _ _ input => input.root.map (ids, ·)

/-- `ResetInputs(nullptr)` as far as the route is concerned. -/
def dropInput : ClusterTask R Key → ClusterTask R Key
  | .noInput root ids route => .noInput root ids route
  | .withInput root ids route _ input =>
    .noInput root ids { route with indexKeyInputRunner := input.root.map Runner.id }

/-- What the root gives in a context with the request `x`. -/
def runRoot (batch : (R → Output R) → List R → Output R) (t : ClusterTask R Key) (x : R) :
    Output R :=
  t.root.bind fun runner => runner.run batch x

/-- The meaning of a task: its root is run on the row of its input, or on the request. There is no
value if the input does not give a row. -/
def eval (batch : (R → Output R) → List R → Output R) (q : R) :
    ClusterTask R Key → Option (Output R)
  | .noInput none _ _ => none
  | .noInput (some root) _ _ => some (root.run batch q)
  | .withInput none _ _ _ _ => none
  | .withInput (some root) _ _ _ input =>
    match input.eval batch q with
    | some (some (.row y)) => some (root.run batch y)
    | _ => none

/-- The row that the root of a task is run on. -/
def row (batch : (R → Output R) → List R → Output R) (q : R) : ClusterTask R Key → Option R
  | .noInput .. => some q
  | .withInput _ _ _ _ input =>
    match input.eval batch q with
    | some (some (.row y)) => some y
    | _ => none

/-- The tasks that `eval` is about: a local task, which has no input, or a completed one whose
input is again such a task. -/
def Runnable : ClusterTask R Key → Prop
  | .noInput root _ route => root.isSome ∧ (route.isCluster → route.isCompleted)
  | .withInput root _ route _ input => root.isSome ∧ route.isCompleted ∧ input.Runnable

end ClusterTask

/-- `TaskBiasType`. -/
inductive TaskBiasType
  | kLeftBias
  | kRightBias
  | kNoBias
  deriving DecidableEq

/-- `RunnerBuilder`: the next number of a runner, the tasks of the cluster job, the request runner
of the request task, the proxies by the root that they stand for, and the next address of a shared
task. -/
structure RunnerBuilder (R Key : Type) where
  id : Nat
  clusterJob : List (ClusterTask R Key)
  requestTask : Option Nat
  proxyRunnerMap : List (Nat × Runner R)
  nextPtr : Nat

namespace RunnerBuilder

variable {R Key : Type}

/-- The task that the proxy of a completed task inherits: its input, or the request task. -/
def inputTask (b : RunnerBuilder R Key) : ClusterTask R Key → Option (ClusterTask R Key)
  | .noInput .. => b.requestTask.map fun id => .ofRunner (.request id)
  | .withInput _ _ _ _ input => some input

/-- `proxy_runner_map_.find`. -/
def findProxy (b : RunnerBuilder R Key) (id : Nat) : Option (Runner R) :=
  (b.proxyRunnerMap.find? fun e => e.1 == id).map Prod.snd

/-- A new proxy for the task, which becomes a task of the cluster job. -/
def addProxy (b : RunnerBuilder R Key) (t : ClusterTask R Key) (root input : Runner R) :
    Runner R × RunnerBuilder R Key :=
  let proxy := .proxy b.id b.clusterJob.length t.routeInfo.indexKeyInputRunner root input
  (proxy,
    { b with
      id := b.id + 1
      clusterJob := b.clusterJob ++ [t]
      proxyRunnerMap := (root.id, proxy) :: b.proxyRunnerMap })

/-- `RunnerBuilder::BuildProxyRunnerForClusterTask`. There is no result where the source follows a
null pointer. -/
def buildProxyRunnerForClusterTask (b : RunnerBuilder R Key) (t : ClusterTask R Key) :
    Option (ClusterTask R Key × RunnerBuilder R Key) :=
  if t.isCompletedClusterTask then do
    let root ← t.root
    let input ← b.inputTask t
    match b.findProxy root.id with
    | some proxy => some (input.setRoot proxy, b)
    | none =>
      let inputRoot ← input.root
      let added := b.addProxy t root inputRoot
      some (input.setRoot added.1, added.2)
  else some (.invalid, b)

/-- `SetProducer` seen from the builder: it holds the same runners. -/
def setInputs (b : RunnerBuilder R Key) (ids : List Nat) (p : Runner R) : RunnerBuilder R Key :=
  { b with
    clusterJob := b.clusterJob.map (·.setInputs ids p)
    proxyRunnerMap := b.proxyRunnerMap.map fun e => (e.1, Runner.setInputs ids p e.2) }

/-- One turn of the loop over two completed tasks: proxies for both, or for the side that the bias
is not on. -/
def proxyTurn (b : RunnerBuilder R Key) (left right : ClusterTask R Key) (bias : TaskBiasType) :
    Option (ClusterTask R Key × ClusterTask R Key × RunnerBuilder R Key) :=
  match bias with
  | .kNoBias => do
      let (left, b) ← b.buildProxyRunnerForClusterTask left
      let (right, b) ← b.buildProxyRunnerForClusterTask right
      some (left, right, b)
  | .kLeftBias => do
      let (right, b) ← b.buildProxyRunnerForClusterTask right
      some (left, right, b)
  | .kRightBias => do
      let (left, b) ← b.buildProxyRunnerForClusterTask left
      some (left, right, b)

/-- The loop, which two completed tasks leave only if they can be merged. -/
def proxyLoop [DecidableEq Key] (bias : TaskBiasType) :
    Nat → RunnerBuilder R Key → ClusterTask R Key → ClusterTask R Key →
      Option (ClusterTask R Key × ClusterTask R Key × RunnerBuilder R Key)
  | 0, b, left, right => some (left, right, b)
  | fuel + 1, b, left, right =>
    if left.isCompletedClusterTask && right.isCompletedClusterTask &&
        !left.taskCanBeMerge right then do
      let (left, right, b) ← b.proxyTurn left right bias
      proxyLoop bias fuel b left right
    else some (left, right, b)

/-- Two tasks that are ready to become the producers, and the one whose route is kept. -/
inductive Prepared (R Key : Type)
  | toLeft (left right : ClusterTask R Key)
  | toRight (left right : ClusterTask R Key)
  | fail

/-- The part after the loop, up to the runner itself. -/
def prepareInputs (b : RunnerBuilder R Key) (left right : ClusterTask R Key) (bias : TaskBiasType) :
    Option (Prepared R Key × RunnerBuilder R Key) :=
  if left.isCompletedClusterTask && right.isCompletedClusterTask then some (.toLeft left right, b)
  else if left.isUnCompletedClusterTask || right.isUnCompletedClusterTask then some (.fail, b)
  else if right.isCompletedClusterTask then
    match bias with
    | .kNoBias | .kLeftBias => do
        let (right, b) ← b.buildProxyRunnerForClusterTask right
        some (.toLeft left right, b)
    | .kRightBias =>
      if right.getRequestInput = left.getRequestInput then some (.toRight left right, b)
      else if left.getRequestInput = none then do
        let (ids, p) ← right.resetArgs
        some (.toRight (left.setInputs ids p) (right.dropInput.setInputs ids p),
          b.setInputs ids p)
      else some (.fail, b)
  else if left.isCompletedClusterTask then
    match bias with
    | .kNoBias | .kRightBias => do
        let (left, b) ← b.buildProxyRunnerForClusterTask left
        some (.toRight left right, b)
    | .kLeftBias =>
      -- the source takes the request input of the right task here
      let newLeftRootInput := right.getRequestInput
      let newRightRootInput := right.getRequestInput
      if newRightRootInput = newLeftRootInput then some (.toLeft left right, b)
      else if newRightRootInput = none then do
        let (ids, p) ← left.resetArgs
        some (.toLeft (left.dropInput.setInputs ids p) (right.setInputs ids p), b.setInputs ids p)
      else some (.fail, b)
  else some (.toLeft left right, b)

end RunnerBuilder

namespace BinaryRunner

variable {R Key : Type}

/-- The runner with two producers. -/
def withProducers (runner : BinaryRunner R) (left right : ClusterTask R Key) : Option (Runner R) :=
  match left.root, right.root with
  | some l, some r => some (.binary runner.id runner.compute l r)
  | _, _ => none

/-- The task of the runner over the prepared inputs. -/
def task (runner : BinaryRunner R) : RunnerBuilder.Prepared R Key → ClusterTask R Key
  | .toLeft left right =>
    match runner.withProducers left right with
    | some root => left.taskMergeToLeft root right
    | none => .invalid
  | .toRight left right =>
    match runner.withProducers left right with
    | some root => left.taskMergeToRight root right
    | none => .invalid
  | .fail => .invalid

end BinaryRunner

namespace RunnerBuilder

variable {R Key : Type}

/-- The branch for an index key: the right task is completed, with the left one as its input, and
the runner reads the row of the left task from a new request runner. -/
def buildIndexedTask (b : RunnerBuilder R Key) (left right : ClusterTask R Key)
    (runner : BinaryRunner R) (indexKey : Key) : Option (ClusterTask R Key × RunnerBuilder R Key) :=
  if !right.isClusterTask || right.isCompletedClusterTask then some (.invalid, b)
  else do
    let _ ← left.root
    let r ← right.root
    let task : ClusterTask R Key :=
      .withInput (some (.binary runner.id runner.compute (.request b.id) r)) [runner.id]
        { index := right.routeInfo.index
          indexKey := some indexKey
          tableHandler := right.routeInfo.tableHandler }
        b.nextPtr left
    let b := { b with id := b.id + 1, nextPtr := b.nextPtr + 1 }
    if left.isCompletedClusterTask then b.buildProxyRunnerForClusterTask task else some (task, b)

end RunnerBuilder

/-- How many proxies a task takes to become a local one. -/
def ClusterTask.hops {R Key : Type} : ClusterTask R Key → Nat
  | .noInput root _ route => if root.isSome && route.isCompleted then 1 else 0
  | .withInput _ _ _ _ input => input.hops + 1

namespace RunnerBuilder

variable {R Key : Type} [DecidableEq Key]

/-- `RunnerBuilder::BuildClusterTaskForBinaryRunner`. A turn of the loop takes a side one input
further, so that there are at most as many turns as there are inputs. -/
def buildClusterTaskForBinaryRunner (b : RunnerBuilder R Key) (left right : ClusterTask R Key)
    (runner : BinaryRunner R) (indexKey : Option Key) (bias : TaskBiasType) :
    Option (ClusterTask R Key × RunnerBuilder R Key) :=
  match indexKey with
  | some key => b.buildIndexedTask left right runner key
  | none => do
      let (left, right, b) ← proxyLoop bias (left.hops + right.hops) b left right
      let (prepared, b) ← b.prepareInputs left right bias
      some (runner.task prepared, b)

end RunnerBuilder

end HybridSE.Vm
