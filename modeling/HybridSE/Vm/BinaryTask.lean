import HybridSE.Vm.TaskInputs

/-!
# HybridSE.Vm.BinaryTask

When `BuildClusterTaskForBinaryRunner` keeps the meaning of its two tasks.

Two tasks with the same route are merged as they are, and so are two tasks that proxies lead to the
same route. Otherwise one side, or both, is moved. A proxy can always be moved one input further,
but the tasks may end in a place that is not the one of the next input: after the loop one proxy is
made, and it is run on the request, whether or not its input is a local task. With a left bias and
a completed left task there is no proxy and no check at all, because the source compares the
request input of the right task with itself: the right task is run on the row of the left one.

`preservesMeaning_iff` has the exact condition for every bias.
-/

namespace HybridSE.Vm

open List Option

variable {R Key : Type} (batch : (R → Output R) → List R → Output R)

namespace RunnerBuilder

/-- Runners that exist and are not proxies of the builder. -/
structure Avoids (b : RunnerBuilder R Key) (ids : List Nat) : Prop where
  lt_id : ∀ id ∈ ids, id < b.id
  not_proxy : ∀ e ∈ b.proxyRunnerMap, e.2.id ∉ ids

/-- The proxy of a task. -/
def IsProxyOf (b : RunnerBuilder R Key) (p : Runner R) (t : ClusterTask R Key) : Prop :=
  ∃ input, b.inputTask t = some input ∧ ∃ root, t.root = some root ∧ ∃ i, input.root = some i ∧
    ∃ id taskId indexInput, p = .proxy id taskId indexInput root i

/-- A builder that has kept its books: `tasks` says of which task a runner is the root, and the
proxy that is looked up for a root is one of that task. -/
structure Consistent (b : RunnerBuilder R Key) (tasks : Nat → Option (ClusterTask R Key)) :
    Prop where
  request : b.requestTask.isSome
  lt_id : ∀ id t, tasks id = some t → id < b.id
  proxy : ∀ id p, b.findProxy id = some p → ∃ t, tasks id = some t ∧ b.IsProxyOf p t ∧
    tasks p.id = some ((t.level 1).setRoot p)

/-- A task of the builder. -/
structure Holds (tasks : Nat → Option (ClusterTask R Key)) (t : ClusterTask R Key) : Prop where
  runnable : t.Runnable
  root : ∃ root, t.root = some root ∧ tasks root.id = some t

variable {b : RunnerBuilder R Key} {tasks : Nat → Option (ClusterTask R Key)}
  {t t' : ClusterTask R Key} {k : Nat}

theorem inputTask_isSome (hb : b.Consistent tasks) (ht : t.Runnable) :
    ∃ input i, b.inputTask t = some input ∧ input.root = some i := by
  cases t with
  | noInput root ids route =>
    obtain ⟨id, hid⟩ := isSome_iff_exists.mp hb.request
    exact ⟨.ofRunner (.request id), .request id, by rw [inputTask, hid]; rfl, rfl⟩
  | withInput root ids route ptr input =>
    obtain ⟨i, hi⟩ : ∃ i, input.root = some i := by
      cases input with
      | noInput r is rt => exact isSome_iff_exists.mp ht.2.2.1
      | withInput r is rt p inp => exact isSome_iff_exists.mp ht.2.2.1
    exact ⟨input, i, rfl, hi⟩

/-- What a proxy inherits is the next level of its task. -/
theorem setRoot_inputTask {input} (h : b.inputTask t = some input) (p : Runner R) :
    input.setRoot p = (t.level 1).setRoot p := by
  cases t with
  | noInput root ids route =>
    obtain ⟨id, -, rfl⟩ := map_eq_some_iff.mp h
    rfl
  | withInput root ids route ptr inp =>
    cases h
    rfl

theorem findProxy_addProxy (b : RunnerBuilder R Key) (t : ClusterTask R Key) (root i : Runner R)
    (id : Nat) : (b.addProxy t root i).2.findProxy id =
      if root.id = id then some (b.addProxy t root i).1 else b.findProxy id := by
  simp only [findProxy, addProxy]
  by_cases h : root.id = id
  · simp [h]
  · simp [h]

theorem isProxyOf_addProxy {p} (h : b.IsProxyOf p t) (s : ClusterTask R Key) (root i : Runner R) :
    (b.addProxy s root i).2.IsProxyOf p t := by
  obtain ⟨input, hinput, hp⟩ := h
  refine ⟨input, ?_, hp⟩
  cases t <;> exact hinput

/-- A proxy for a completed task: the one of the map, or a new one that the map gets. -/
theorem buildProxy_spec (hb : b.Consistent tasks) (ht : Holds tasks t)
    (hc : t.isCompletedClusterTask = true) :
    ∃ p b' tasks', b.buildProxyRunnerForClusterTask t = some ((t.level 1).setRoot p, b') ∧
      b.IsProxyOf p t ∧ b'.Consistent tasks' ∧ b'.requestTask = b.requestTask ∧
      (∀ id s, tasks id = some s → tasks' id = some s) ∧
      tasks' p.id = some ((t.level 1).setRoot p) ∧
      ∀ ids, b.Avoids ids → b'.Avoids ids ∧ p.id ∉ ids := by
  obtain ⟨root, hroot, htask⟩ := ht.root
  obtain ⟨input, i, hinput, hi⟩ := inputTask_isSome hb ht.runnable
  cases hfind : b.findProxy root.id with
  | some p =>
    obtain ⟨t', ht', hproxy, hp⟩ := hb.proxy _ _ hfind
    obtain rfl : t = t' := by
      rw [htask] at ht'
      injection ht'
    refine ⟨p, b, tasks, ?_, hproxy, hb, rfl, fun _ _ h => h, hp, fun ids h => ⟨h, ?_⟩⟩
    · simp [buildProxyRunnerForClusterTask, hc, hroot, hinput, hfind,
        setRoot_inputTask hinput p]
    · obtain ⟨e, he, rfl⟩ := map_eq_some_iff.mp hfind
      exact h.not_proxy e (mem_of_find?_eq_some he)
  | none =>
    let added := b.addProxy t root i
    have hfresh : ∀ id s, tasks id = some s → id ≠ b.id := fun id s h =>
      Nat.ne_of_lt (hb.lt_id id s h)
    have hproxy : b.IsProxyOf added.1 t :=
      ⟨input, hinput, root, hroot, i, hi, _, _, _, rfl⟩
    let tasks' := Function.update tasks b.id (some ((t.level 1).setRoot added.1))
    have hold : ∀ id s, tasks id = some s → tasks' id = some s := fun id s h =>
      (Function.update_of_ne (hfresh id s h) _ _).trans h
    have hnew : tasks' added.1.id = some ((t.level 1).setRoot added.1) :=
      Function.update_self _ _ _
    refine ⟨added.1, added.2, tasks', ?_, hproxy, ?_, rfl, hold, hnew, ?_⟩
    · simp [buildProxyRunnerForClusterTask, hc, hroot, hinput, hfind, hi, added,
        setRoot_inputTask hinput]
    · refine ⟨hb.request, ?_, ?_⟩
      · intro id s h
        by_cases hid : id = b.id
        · exact hid ▸ Nat.lt_succ_self _
        · exact Nat.lt_succ_of_lt (hb.lt_id id s ((Function.update_of_ne hid _ _).symm.trans h))
      · intro id p hp
        rw [findProxy_addProxy] at hp
        split at hp
        case isTrue hid =>
          cases hp
          exact ⟨t, hid ▸ hold _ _ htask, isProxyOf_addProxy hproxy _ _ _, hnew⟩
        case isFalse hid =>
          obtain ⟨t', ht', hproxy', hp'⟩ := hb.proxy _ _ hp
          exact ⟨t', hold _ _ ht', isProxyOf_addProxy hproxy' _ _ _, hold _ _ hp'⟩
    · intro ids h
      have hid : b.id ∉ ids := fun hid => Nat.lt_irrefl _ (h.lt_id _ hid)
      refine ⟨⟨fun id hm => Nat.lt_succ_of_lt (h.lt_id id hm), ?_⟩, hid⟩
      intro e he
      rcases mem_cons.mp he with rfl | he
      · exact hid
      · exact h.not_proxy e he

/-! ### The loop -/

/-- `t'` is the task `t` after `k` proxies. The last part says what its root gives, also when
runners are given another producer afterwards. -/
def After (b : RunnerBuilder R Key) (k : Nat) (t t' : ClusterTask R Key) : Prop :=
  ∃ p, t' = (t.level k).setRoot p ∧ ∀ ids new, b.Avoids ids → ∀ x,
    (Runner.setInputs ids new p).run batch x = (t.setInputs ids new).runInPlace batch k x

variable {batch}

theorem After.zero {root} (h : t.root = some root) : After batch b 0 t t :=
  ⟨root, (ClusterTask.setRoot_self h).symm, fun ids new _ x =>
    (ClusterTask.runRoot_setInputs batch ids new h x).symm⟩

theorem After.runRoot (h : After batch b k t t') (x : R) :
    t'.runRoot batch x = t.runInPlace batch k x := by
  obtain ⟨p, rfl, hp⟩ := h
  have := hp [] (.request 0) ⟨fun _ h => (not_mem_nil h).elim, fun _ _ => not_mem_nil⟩ x
  rw [Runner.setInputs_nil, ClusterTask.setInputs_nil] at this
  rw [ClusterTask.runRoot, ClusterTask.root_setRoot]
  exact this

theorem After.row (h : After batch b k t t') (q : R) :
    t'.row batch q = (t.level k).row batch q := by
  obtain ⟨p, rfl, -⟩ := h
  exact ClusterTask.row_setRoot batch q p _

theorem After.isCompleted (h : After batch b k t t') (ht : t.Runnable) :
    t'.isCompletedClusterTask = true ↔ k < t.hops := by
  obtain ⟨p, rfl, -⟩ := h
  exact ClusterTask.isCompleted_level ht k p

/-- One proxy more. -/
theorem After.succ {b₀ p'} (h : After batch b₀ k t t') (hp : b.IsProxyOf p' t')
    (hids : ∀ ids, b₀.Avoids ids → p'.id ∉ ids) :
    After batch b₀ (k + 1) t ((t'.level 1).setRoot p') := by
  obtain ⟨p, rfl, hrun⟩ := h
  obtain ⟨input, hinput, root, hroot, i, hi, id, taskId, indexInput, rfl⟩ := hp
  rw [ClusterTask.root_setRoot] at hroot
  injection hroot with hroot
  subst hroot
  refine ⟨.proxy id taskId indexInput p i, ?_, fun ids new h x => ?_⟩
  · rw [ClusterTask.level_setRoot, ← ClusterTask.level_succ]
  · have hnot : id ∉ ids := hids ids h
    have hask : (Runner.setInputs ids new (.proxy id taskId indexInput p i)).run batch x =
        Runner.ask batch ((t.setInputs ids new).runInPlace batch k)
          ((Runner.setInputs ids new i).run batch x) := by
      rw [Runner.setInputs, if_neg hnot, Runner.run]
      congr 1
      funext y
      exact hrun ids new h y
    rw [hask]
    have hlevel := ClusterTask.level_setInputs ids new k t
    cases hl : t.level k with
    | noInput r is route =>
      -- the proxy passes the request on
      rw [hl] at hlevel hinput
      obtain ⟨req, -, rfl⟩ := map_eq_some_iff.mp hinput
      injection hi with hi
      subst hi
      exact (congrFun (ClusterTask.inPlace_of_level_noInput batch _ hlevel (Nat.le_succ k)) x).symm
    | withInput r is route ptr inp =>
      rw [hl] at hlevel hinput
      obtain rfl : inp = input := by injection hinput
      rw [← ClusterTask.runRoot_setInputs batch ids new hi]
      exact (ClusterTask.inPlace_succ batch k _ hlevel x).symm

theorem Holds.mono {tasks'} (h : Holds tasks t)
    (hsub : ∀ id s, tasks id = some s → tasks' id = some s) : Holds tasks' t := by
  obtain ⟨root, hroot, ht⟩ := h.root
  exact ⟨h.runnable, root, hroot, hsub _ _ ht⟩

/-- The state of the two sides while proxies are made: `kl` for the left one and `kr` for the right
one so far. -/
structure Sides (batch : (R → Output R) → List R → Output R) (b₀ : RunnerBuilder R Key)
    (left right : ClusterTask R Key) (kl kr : Nat) (b : RunnerBuilder R Key)
    (tasks : Nat → Option (ClusterTask R Key)) (l r : ClusterTask R Key) : Prop where
  consistent : b.Consistent tasks
  avoids : ∀ ids, b₀.Avoids ids → b.Avoids ids
  left : After batch b₀ kl left l
  right : After batch b₀ kr right r
  leftHeld : Holds tasks l
  rightHeld : Holds tasks r

variable {b₀ b : RunnerBuilder R Key} {left right l r : ClusterTask R Key} {kl kr : Nat}
  {tasks : Nat → Option (ClusterTask R Key)}

theorem Sides.swap (h : Sides batch b₀ left right kl kr b tasks l r) :
    Sides batch b₀ right left kr kl b tasks r l :=
  ⟨h.consistent, h.avoids, h.right, h.left, h.rightHeld, h.leftHeld⟩

theorem Sides.proxyLeft (h : Sides batch b₀ left right kl kr b tasks l r)
    (hc : l.isCompletedClusterTask = true) :
    ∃ l' b' tasks', b.buildProxyRunnerForClusterTask l = some (l', b') ∧
      Sides batch b₀ left right (kl + 1) kr b' tasks' l' r := by
  obtain ⟨p, b', tasks', hbuild, hproxy, hcons, -, hsub, hp, hids⟩ :=
    buildProxy_spec h.consistent h.leftHeld hc
  refine ⟨_, b', tasks', hbuild, hcons, fun ids hi => (hids ids (h.avoids ids hi)).1,
    h.left.succ hproxy fun ids hi => (hids ids (h.avoids ids hi)).2, h.right, ?_,
    h.rightHeld.mono hsub⟩
  exact ⟨ClusterTask.runnable_level h.leftHeld.runnable 1 p, p, ClusterTask.root_setRoot p _, hp⟩

theorem Sides.proxyRight (h : Sides batch b₀ left right kl kr b tasks l r)
    (hc : r.isCompletedClusterTask = true) :
    ∃ r' b' tasks', b.buildProxyRunnerForClusterTask r = some (r', b') ∧
      Sides batch b₀ left right kl (kr + 1) b' tasks' l r' := by
  obtain ⟨r', b', tasks', hbuild, hs⟩ := h.swap.proxyLeft hc
  exact ⟨r', b', tasks', hbuild, hs.swap⟩

end RunnerBuilder

namespace TaskBiasType

/-- The proxies that a turn of the loop makes for the left task. -/
def leftProxies : TaskBiasType → Nat
  | .kLeftBias => 0
  | .kRightBias => 1
  | .kNoBias => 1

/-- The proxies that a turn of the loop makes for the right task. -/
def rightProxies : TaskBiasType → Nat
  | .kLeftBias => 1
  | .kRightBias => 0
  | .kNoBias => 1

theorem one_le_proxies (bias : TaskBiasType) : 1 ≤ bias.leftProxies + bias.rightProxies := by
  cases bias <;> decide

end TaskBiasType

namespace RunnerBuilder

variable {batch : (R → Output R) → List R → Output R}
variable {b₀ b : RunnerBuilder R Key} {left right l r : ClusterTask R Key} {kl kr : Nat}
  {tasks : Nat → Option (ClusterTask R Key)}

theorem Sides.proxyTurn (h : Sides batch b₀ left right kl kr b tasks l r) (bias : TaskBiasType)
    (hl : l.isCompletedClusterTask = true) (hr : r.isCompletedClusterTask = true) :
    ∃ l' r' b' tasks', b.proxyTurn l r bias = some (l', r', b') ∧
      Sides batch b₀ left right (kl + bias.leftProxies) (kr + bias.rightProxies) b' tasks' l' r' := by
  cases bias with
  | kLeftBias =>
    obtain ⟨r', b', tasks', hbuild, hs⟩ := h.proxyRight hr
    exact ⟨l, r', b', tasks', by simp [RunnerBuilder.proxyTurn, hbuild], hs⟩
  | kRightBias =>
    obtain ⟨l', b', tasks', hbuild, hs⟩ := h.proxyLeft hl
    exact ⟨l', r, b', tasks', by simp [RunnerBuilder.proxyTurn, hbuild], hs⟩
  | kNoBias =>
    obtain ⟨l', b₁, tasks₁, hbuild, hs⟩ := h.proxyLeft hl
    obtain ⟨r', b', tasks', hbuild', hs'⟩ := hs.proxyRight hr
    exact ⟨l', r', b', tasks', by simp [RunnerBuilder.proxyTurn, hbuild, hbuild'], hs'⟩

variable [DecidableEq Key]

/-- Two levels that are completed cluster tasks with the same route. -/
def SameRoute (left right : ClusterTask R Key) (kl kr : Nat) : Prop :=
  kl < left.hops ∧ kr < right.hops ∧ (left.level kl).taskCanBeMerge (right.level kr) = true

/-- The loop goes on while both tasks are completed and cannot be merged. -/
def GoesOn (left right : ClusterTask R Key) (kl kr : Nat) : Prop :=
  kl < left.hops ∧ kr < right.hops ∧ (left.level kl).taskCanBeMerge (right.level kr) = false

theorem Sides.goesOn_iff (h : Sides batch b₀ left right kl kr b tasks l r) (hl : left.Runnable)
    (hr : right.Runnable) :
    (l.isCompletedClusterTask && r.isCompletedClusterTask && !l.taskCanBeMerge r) = true ↔
      GoesOn left right kl kr := by
  have hmerge : l.taskCanBeMerge r = (left.level kl).taskCanBeMerge (right.level kr) := by
    obtain ⟨p, rfl, -⟩ := h.left
    obtain ⟨p', rfl, -⟩ := h.right
    exact ClusterTask.taskCanBeMerge_setRoot p p' _ _
  rw [Bool.and_eq_true, Bool.and_eq_true, h.left.isCompleted hl, h.right.isCompleted hr, hmerge,
    Bool.not_eq_true', and_assoc]
  rfl

/-- The turns of the loop, and where it stops. -/
theorem proxyLoop_spec (bias : TaskBiasType) (hl : left.Runnable) (hr : right.Runnable) (fuel : Nat)
    {n} (h : Sides batch b₀ left right (n * bias.leftProxies) (n * bias.rightProxies) b tasks l r)
    (hfuel : (left.hops - n * bias.leftProxies) + (right.hops - n * bias.rightProxies) ≤ fuel) :
    ∃ m l' r' b' tasks', proxyLoop bias fuel b l r = some (l', r', b') ∧
      Sides batch b₀ left right (m * bias.leftProxies) (m * bias.rightProxies) b' tasks' l' r' ∧
      n ≤ m ∧
      (∀ j, n ≤ j → j < m → GoesOn left right (j * bias.leftProxies) (j * bias.rightProxies)) ∧
      ¬GoesOn left right (m * bias.leftProxies) (m * bias.rightProxies) := by
  induction fuel generalizing n b l r tasks with
  | zero =>
    refine ⟨n, l, r, b, tasks, rfl, h, Nat.le_refl n, fun j hj hj' => by omega, ?_⟩
    rintro ⟨hcl, hcr, -⟩
    omega
  | succ fuel ih =>
    by_cases hgo : GoesOn left right (n * bias.leftProxies) (n * bias.rightProxies)
    · have hcond := (h.goesOn_iff hl hr).mpr hgo
      obtain ⟨l', r', b', tasks', hturn, hs⟩ := h.proxyTurn bias
        ((h.left.isCompleted hl).mpr hgo.1) ((h.right.isCompleted hr).mpr hgo.2.1)
      rw [← Nat.succ_mul, ← Nat.succ_mul] at hs
      have hmeasure : (left.hops - (n + 1) * bias.leftProxies) +
          (right.hops - (n + 1) * bias.rightProxies) ≤ fuel := by
        have hone := bias.one_le_proxies
        obtain ⟨hcl, hcr, -⟩ := hgo
        rw [Nat.succ_mul, Nat.succ_mul]
        omega
      obtain ⟨m, l'', r'', b'', tasks'', hloop, hs', hm, hgoes, hstop⟩ := ih hs hmeasure
      refine ⟨m, l'', r'', b'', tasks'', ?_, hs', by omega, fun j hj hjm => ?_, hstop⟩
      · simp [proxyLoop, hturn, hloop, hcond]
      · rcases Nat.eq_or_lt_of_le hj with rfl | hlt
        · exact hgo
        · exact hgoes j hlt hjm
    · refine ⟨n, l, r, b, tasks, ?_, h, Nat.le_refl n, fun j hj hj' => by omega, hgo⟩
      rw [proxyLoop, if_neg (mt (h.goesOn_iff hl hr).mp hgo)]

/-! ### The two producers -/

/-- What the prepared tasks give when they run together on the row of the one whose route is
kept. -/
def Prepared.Gives (batch : (R → Output R) → List R → Output R) (q : R) (vl vr : Output R) :
    Prepared R Key → Prop
  | .toLeft l r => ∃ x, l.row batch q = some x ∧ l.runRoot batch x = vl ∧ r.runRoot batch x = vr
  | .toRight l r => ∃ x, r.row batch q = some x ∧ l.runRoot batch x = vl ∧ r.runRoot batch x = vr
  | .fail => True

/-- Both producers are there. -/
def Prepared.HasRoots : Prepared R Key → Prop
  | .toLeft l r => l.root.isSome ∧ r.root.isSome
  | .toRight l r => l.root.isSome ∧ r.root.isSome
  | .fail => False

variable {prepared : Prepared R Key}

omit [DecidableEq Key] in
/-- The value of the task over the prepared inputs. -/
theorem eval_task (runner : BinaryRunner R) (h : prepared.HasRoots) (q : R) (v : Output R) :
    (runner.task prepared).eval batch q = some v ↔
      ∃ vl vr, prepared.Gives batch q vl vr ∧ runner.compute vl vr = v := by
  have key : ∀ (l r kept : ClusterTask R Key) (lr rr : Runner R) (ids : List Nat),
      l.root = some lr → r.root = some rr →
      ((kept.withRoot (.binary runner.id runner.compute lr rr) ids).eval batch q = some v ↔
        ∃ vl vr, (∃ x, kept.row batch q = some x ∧ l.runRoot batch x = vl ∧
          r.runRoot batch x = vr) ∧ runner.compute vl vr = v) := by
    intro l r kept lr rr ids hl hr
    have hroot : (kept.withRoot (.binary runner.id runner.compute lr rr) ids).root =
        some (.binary runner.id runner.compute lr rr) := by cases kept <;> rfl
    have hrow : (kept.withRoot (.binary runner.id runner.compute lr rr) ids).row batch q =
        kept.row batch q := by cases kept <;> rfl
    rw [ClusterTask.eval_eq_row batch q hroot, hrow, map_eq_some_iff]
    simp only [ClusterTask.runRoot, hl, hr]
    constructor
    · rintro ⟨x, hx, hv⟩
      exact ⟨_, _, ⟨x, hx, rfl, rfl⟩, hv⟩
    · rintro ⟨vl, vr, ⟨x, hx, rfl, rfl⟩, hv⟩
      exact ⟨x, hx, hv⟩
  cases prepared with
  | fail => exact h.elim
  | toLeft l r =>
    obtain ⟨lr, hl⟩ := isSome_iff_exists.mp h.1
    obtain ⟨rr, hr⟩ := isSome_iff_exists.mp h.2
    simp only [BinaryRunner.task, BinaryRunner.withProducers, hl, hr]
    exact key l r l lr rr _ hl hr
  | toRight l r =>
    obtain ⟨lr, hl⟩ := isSome_iff_exists.mp h.1
    obtain ⟨rr, hr⟩ := isSome_iff_exists.mp h.2
    simp only [BinaryRunner.task, BinaryRunner.withProducers, hl, hr]
    exact key l r r lr rr _ hl hr

omit [DecidableEq Key] in
theorem isValid_task (runner : BinaryRunner R) (h : prepared.HasRoots) :
    (runner.task prepared).isValid = true := by
  cases prepared with
  | fail => exact h.elim
  | toLeft l r =>
    obtain ⟨lr, hl⟩ := isSome_iff_exists.mp h.1
    obtain ⟨rr, hr⟩ := isSome_iff_exists.mp h.2
    simp only [BinaryRunner.task, BinaryRunner.withProducers, hl, hr]
    cases l <;> rfl
  | toRight l r =>
    obtain ⟨lr, hl⟩ := isSome_iff_exists.mp h.1
    obtain ⟨rr, hr⟩ := isSome_iff_exists.mp h.2
    simp only [BinaryRunner.task, BinaryRunner.withProducers, hl, hr]
    cases r <;> rfl

omit [DecidableEq Key] in
/-- A runner that tells all its inputs apart shows what its producers give. -/
theorem gives_of_forall_eval (h : prepared.HasRoots) {q : R} {vl vr : Output R}
    (hall : ∀ runner : BinaryRunner R, (runner.task prepared).eval batch q = some (runner.compute vl
      vr)) :
    prepared.Gives batch q vl vr := by
  classical
  let runner : BinaryRunner R :=
    { id := 0
      compute := fun a b => if a = vl ∧ b = vr then none else some (.row q) }
  obtain ⟨vl', vr', hg, hv⟩ := (eval_task runner h q _).mp (hall runner)
  have hsame : vl' = vl ∧ vr' = vr := by
    by_contra hne
    simp [runner, hne] at hv
  obtain ⟨rfl, rfl⟩ := hsame
  exact hg

end RunnerBuilder

/-- The built task means what the runner computes from the two tasks: whatever binary runner is
given, and whatever the request. -/
def RunnerBuilder.PreservesMeaning [DecidableEq Key]
    (batch : (R → Output R) → List R → Output R) (b : RunnerBuilder R Key)
    (left right : ClusterTask R Key) (bias : TaskBiasType) : Prop :=
  ∀ (runner : BinaryRunner R) (t : ClusterTask R Key) (b' : RunnerBuilder R Key),
    b.buildClusterTaskForBinaryRunner left right runner none bias = some (t, b') →
      t.isValid = true → ∀ q vl vr, left.eval batch q = some vl → right.eval batch q = some vr →
        t.eval batch q = some (runner.compute vl vr)

/-- The two tasks, or the inputs of one or both that proxies lead to, are merged as they are. -/
def Mergeable [DecidableEq Key] (bias : TaskBiasType) (left right : ClusterTask R Key) : Prop :=
  ∃ n, RunnerBuilder.SameRoute left right (n * bias.leftProxies) (n * bias.rightProxies)

/-- Tasks that are not merged as they are give `vl` and `vr` also where they are put.

Without a bias both sides get a proxy for every input of the other one and one more, and run on the
request. With a bias a local task of that side pulls the other one over with one proxy. A completed
task is kept in its place: on the left the other side then runs on the row of the left task,
on the right the input runners of the right task are given its input as producer. -/
def RunsInPlace (batch : (R → Output R) → List R → Output R) (left right : ClusterTask R Key)
    (q : R) (vl vr : Output R) : TaskBiasType → Prop
  | .kNoBias => left.runInPlace batch (right.hops + 1) q = vl ∧
      right.runInPlace batch (left.hops + 1) q = vr
  | .kLeftBias =>
    if left.isCompletedClusterTask then
      ∃ x, left.row batch q = some x ∧ right.runInPlace batch right.hops x = vr
    else right.runInPlace batch 1 q = vr
  | .kRightBias =>
    if right.isCompletedClusterTask then
      ∀ ids p, right.resetArgs = some (ids, p) →
        (left.setInputs ids p).runInPlace batch left.hops q = vl ∧
          (right.setInputs ids p).runRoot batch q = vr
    else left.runInPlace batch 1 q = vl

namespace RunnerBuilder

variable {batch : (R → Output R) → List R → Output R}
variable {b₀ b : RunnerBuilder R Key} {left right l r : ClusterTask R Key} {kl kr : Nat}
  {tasks : Nat → Option (ClusterTask R Key)}

theorem Holds.root_isSome {t} (h : Holds tasks t) : t.root.isSome := by
  obtain ⟨root, hroot, -⟩ := h.root
  rw [hroot]
  rfl

theorem Sides.hasRoots_toLeft (h : Sides batch b₀ left right kl kr b tasks l r) :
    (Prepared.toLeft l r).HasRoots :=
  ⟨h.leftHeld.root_isSome, h.rightHeld.root_isSome⟩

theorem Sides.hasRoots_toRight (h : Sides batch b₀ left right kl kr b tasks l r) :
    (Prepared.toRight l r).HasRoots :=
  ⟨h.leftHeld.root_isSome, h.rightHeld.root_isSome⟩

/-- The two sides with the route of the left one, after it has become local. -/
theorem Sides.gives_toLeft (h : Sides batch b₀ left right kl kr b tasks l r) (hl : left.Runnable)
    (hk : left.hops ≤ kl) (q : R) (vl vr : Output R) :
    (Prepared.toLeft l r).Gives batch q vl vr ↔
      left.runInPlace batch kl q = vl ∧ right.runInPlace batch kr q = vr := by
  simp [Prepared.Gives, h.left.row, h.left.runRoot, h.right.runRoot,
    ClusterTask.row_level_of_hops_le batch hl hk]

theorem Sides.gives_toRight (h : Sides batch b₀ left right kl kr b tasks l r) (hr : right.Runnable)
    (hk : right.hops ≤ kr) (q : R) (vl vr : Output R) :
    (Prepared.toRight l r).Gives batch q vl vr ↔
      left.runInPlace batch kl q = vl ∧ right.runInPlace batch kr q = vr := by
  simp [Prepared.Gives, h.right.row, h.left.runRoot, h.right.runRoot,
    ClusterTask.row_level_of_hops_le batch hr hk]

theorem Sides.isCompleted_left (h : Sides batch b₀ left right kl kr b tasks l r)
    (hl : left.Runnable) : l.isCompletedClusterTask = decide (kl < left.hops) :=
  Bool.eq_iff_iff.mpr ((h.left.isCompleted hl).trans decide_eq_true_iff.symm)

theorem Sides.isCompleted_right (h : Sides batch b₀ left right kl kr b tasks l r)
    (hr : right.Runnable) : r.isCompletedClusterTask = decide (kr < right.hops) :=
  Bool.eq_iff_iff.mpr ((h.right.isCompleted hr).trans decide_eq_true_iff.symm)

/-- The part after the loop, for two tasks that can be run. -/
theorem Sides.prepareInputs_eq (h : Sides batch b₀ left right kl kr b tasks l r)
    (hl : left.Runnable) (hr : right.Runnable) (bias : TaskBiasType) :
    b.prepareInputs l r bias =
      if kl < left.hops then
        if kr < right.hops then some (.toLeft l r, b)
        else
          match bias with
          | .kNoBias | .kRightBias =>
            (b.buildProxyRunnerForClusterTask l).map fun p => (.toRight p.1 r, p.2)
          | .kLeftBias => some (.toLeft l r, b)
      else if kr < right.hops then
        match bias with
        | .kNoBias | .kLeftBias =>
          (b.buildProxyRunnerForClusterTask r).map fun p => (.toLeft l p.1, p.2)
        | .kRightBias =>
          if r.getRequestInput = l.getRequestInput then some (.toRight l r, b)
          else if l.getRequestInput = none then
            r.resetArgs.map fun a => (.toRight (l.setInputs a.1 a.2)
              (r.dropInput.setInputs a.1 a.2), b.setInputs a.1 a.2)
          else some (.fail, b)
      else some (.toLeft l r, b) := by
  have hul := ClusterTask.not_isUnCompleted h.leftHeld.runnable
  have hur := ClusterTask.not_isUnCompleted h.rightHeld.runnable
  by_cases hkl : kl < left.hops <;> by_cases hkr : kr < right.hops <;> cases bias <;>
    simp [prepareInputs, h.isCompleted_left hl, h.isCompleted_right hr, hul, hur, hkr,
      map_eq_bind]

/-- The prepared inputs of a bias are right exactly where `RunsInPlace` says so. -/
def PreparesInPlace (batch : (R → Output R) → List R → Output R) (b : RunnerBuilder R Key)
    (left right l r : ClusterTask R Key) (bias : TaskBiasType) : Prop :=
  ∃ prepared b', b.prepareInputs l r bias = some (prepared, b') ∧ prepared.HasRoots ∧
    ∀ q vl vr, left.eval batch q = some vl → right.eval batch q = some vr →
      (prepared.Gives batch q vl vr ↔ RunsInPlace batch left right q vl vr bias)

variable {m : Nat}

theorem Sides.prepare_kNoBias (h : Sides batch b₀ left right m m b tasks l r) (hl : left.Runnable)
    (hr : right.Runnable) (hml : m ≤ left.hops) (hmr : m ≤ right.hops)
    (hstop : ¬(m < left.hops ∧ m < right.hops)) :
    PreparesInPlace batch b left right l r .kNoBias := by
  by_cases hrc : m < right.hops
  · have hlc : ¬m < left.hops := fun hlc => hstop ⟨hlc, hrc⟩
    obtain ⟨r', b', tasks', hbuild, hs⟩ := h.proxyRight ((h.right.isCompleted hr).mpr hrc)
    refine ⟨.toLeft l r', b', ?_, hs.hasRoots_toLeft, fun q vl vr hvl hvr => ?_⟩
    · simp [h.prepareInputs_eq hl hr, hlc, hrc, hbuild]
    · have hm : m = left.hops := by omega
      rw [hs.gives_toLeft hl (by omega), RunsInPlace, hm,
        ClusterTask.runInPlace_request batch hl (Nat.le_refl _) hvl,
        ClusterTask.runInPlace_request batch hl (by omega) hvl]
  · by_cases hlc : m < left.hops
    · obtain ⟨l', b', tasks', hbuild, hs⟩ := h.proxyLeft ((h.left.isCompleted hl).mpr hlc)
      refine ⟨.toRight l' r, b', ?_, hs.hasRoots_toRight, fun q vl vr hvl hvr => ?_⟩
      · simp [h.prepareInputs_eq hl hr, hlc, hrc, hbuild]
      · have hm : m = right.hops := by omega
        rw [hs.gives_toRight hr (by omega), RunsInPlace, hm,
          ClusterTask.runInPlace_request batch hr (Nat.le_refl _) hvr,
          ClusterTask.runInPlace_request batch hr (by omega) hvr]
    · refine ⟨.toLeft l r, b, ?_, h.hasRoots_toLeft, fun q vl vr hvl hvr => ?_⟩
      · simp [h.prepareInputs_eq hl hr, hlc, hrc]
      · rw [h.gives_toLeft hl (by omega), RunsInPlace,
          ClusterTask.runInPlace_request batch hl (by omega) hvl,
          ClusterTask.runInPlace_request batch hl (by omega) hvl,
          ClusterTask.runInPlace_request batch hr (by omega) hvr,
          ClusterTask.runInPlace_request batch hr (by omega) hvr]

/-- A left task that is local from the start. -/
theorem Sides.prepare_kLeftBias_local (h : Sides batch b₀ left right 0 0 b tasks l r)
    (hl : left.Runnable) (hr : right.Runnable) (h0 : left.hops = 0) :
    PreparesInPlace batch b left right l r .kLeftBias := by
  have hleft := ClusterTask.isCompleted_eq hl
  by_cases hrc : 0 < right.hops
  · obtain ⟨r', b', tasks', hbuild, hs⟩ := h.proxyRight ((h.right.isCompleted hr).mpr hrc)
    refine ⟨.toLeft l r', b', ?_, hs.hasRoots_toLeft, fun q vl vr hvl hvr => ?_⟩
    · simp [h.prepareInputs_eq hl hr, h0, hrc, hbuild]
    · rw [hs.gives_toLeft hl (by omega), ClusterTask.runInPlace_request batch hl (by omega) hvl]
      simp [RunsInPlace, hleft, h0]
  · refine ⟨.toLeft l r, b, ?_, h.hasRoots_toLeft, fun q vl vr hvl hvr => ?_⟩
    · simp [h.prepareInputs_eq hl hr, hrc]
    · rw [h.gives_toLeft hl (by omega), ClusterTask.runInPlace_request batch hl (by omega) hvl,
        ClusterTask.runInPlace_request batch hr (by omega) hvr]
      simp [RunsInPlace, hleft, h0, ClusterTask.runInPlace_request batch hr
        (show right.hops ≤ 1 by omega) hvr]

/-- A completed left task stays where it is, and the right one, which has become local, moves to
its row. -/
theorem Sides.prepare_kLeftBias_completed (h : Sides batch b₀ left right 0 m b tasks l r)
    (hl : left.Runnable) (hr : right.Runnable) (h0 : 0 < left.hops) (hm : m = right.hops) :
    PreparesInPlace batch b left right l r .kLeftBias := by
  have hleft := ClusterTask.isCompleted_eq hl
  refine ⟨.toLeft l r, b, ?_, h.hasRoots_toLeft, fun q vl vr hvl hvr => ?_⟩
  · simp [h.prepareInputs_eq hl hr, hm]
  · simp only [Prepared.Gives, h.left.row, h.left.runRoot, h.right.runRoot, RunsInPlace, hleft, h0, hm]
    constructor
    · rintro ⟨x, hx, -, hv⟩
      exact ⟨x, hx, hv⟩
    · rintro ⟨x, hx, hv⟩
      obtain ⟨y, hy, hvl'⟩ := ClusterTask.runInPlace_of_eval batch 0 hvl
      rw [ClusterTask.level_zero, hx] at hy
      cases hy
      exact ⟨x, hx, hvl', hv⟩

/-- A right task that is local from the start. -/
theorem Sides.prepare_kRightBias_local (h : Sides batch b₀ left right 0 0 b tasks l r)
    (hl : left.Runnable) (hr : right.Runnable) (h0 : right.hops = 0) :
    PreparesInPlace batch b left right l r .kRightBias := by
  have hright := ClusterTask.isCompleted_eq hr
  by_cases hlc : 0 < left.hops
  · obtain ⟨l', b', tasks', hbuild, hs⟩ := h.proxyLeft ((h.left.isCompleted hl).mpr hlc)
    refine ⟨.toRight l' r, b', ?_, hs.hasRoots_toRight, fun q vl vr hvl hvr => ?_⟩
    · simp [h.prepareInputs_eq hl hr, h0, hlc, hbuild]
    · rw [hs.gives_toRight hr (by omega), ClusterTask.runInPlace_request batch hr (by omega) hvr]
      simp [RunsInPlace, hright, h0]
  · refine ⟨.toLeft l r, b, ?_, h.hasRoots_toLeft, fun q vl vr hvl hvr => ?_⟩
    · simp [h.prepareInputs_eq hl hr, h0, hlc]
    · rw [h.gives_toLeft hl (by omega), ClusterTask.runInPlace_request batch hl (by omega) hvl,
        ClusterTask.runInPlace_request batch hr (by omega) hvr]
      simp [RunsInPlace, hright, h0, ClusterTask.runInPlace_request batch hl
        (show left.hops ≤ 1 by omega) hvl]

/-- A completed right task stays where it is. If it has an input, its input runners read the input
from now on, wherever they are used. -/
theorem Sides.prepare_kRightBias_completed (h : Sides batch b₀ left right m 0 b tasks l r)
    (hl : left.Runnable) (hr : right.Runnable) (h0 : 0 < right.hops) (hm : m = left.hops)
    (havoids : b₀.Avoids right.inputRunners) :
    PreparesInPlace batch b left right l r .kRightBias := by
  have hright : right.isCompletedClusterTask = true := by
    rw [ClusterTask.isCompleted_eq hr]
    exact decide_eq_true h0
  have hprepare := h.prepareInputs_eq hl hr .kRightBias
  rw [if_neg (by omega), if_pos h0] at hprepare
  obtain ⟨pl, hpl, hrunl⟩ := h.left
  obtain ⟨pr, hpr, hrunr⟩ := h.right
  rw [ClusterTask.level_zero] at hpr
  have hlocal : l.getRequestInput = none := by
    obtain ⟨root, ids, route, hlevel⟩ := ClusterTask.level_hops hl
    rw [hpl, hm, hlevel]
    rfl
  cases hargs : right.resetArgs with
  | none =>
    refine ⟨.toRight l r, b, ?_, h.hasRoots_toRight, fun q vl vr hvl hvr => ?_⟩
    · rw [hprepare]
      simp [hpr, hlocal, hargs]
    · refine iff_of_true ?_ ?_
      · obtain ⟨x, hx, hv⟩ := ClusterTask.runInPlace_of_eval batch 0 hvr
        rw [ClusterTask.level_zero, ClusterTask.row_of_resetArgs_eq_none batch hr hargs] at hx
        cases hx
        refine ⟨q, ?_, ?_, ?_⟩
        · rw [hpr, ClusterTask.row_setRoot, ClusterTask.row_of_resetArgs_eq_none batch hr hargs]
        · rw [h.left.runRoot]
          exact ClusterTask.runInPlace_request batch hl (by omega) hvl
        · simp [h.right.runRoot, hv]
      · simp [RunsInPlace, hright, hargs]
  | some args =>
    obtain ⟨ids, p⟩ := args
    have hids : b₀.Avoids ids := ClusterTask.inputRunners_of_resetArgs hargs ▸ havoids
    refine ⟨.toRight (l.setInputs ids p) (r.dropInput.setInputs ids p), b.setInputs ids p, ?_,
      ?_, fun q vl vr hvl hvr => ?_⟩
    · rw [hprepare]
      simp [hpr, hlocal, hargs]
    · rw [hpl, hpr]
      exact ⟨ClusterTask.root_isSome_setInputs (by simp),
        ClusterTask.root_isSome_setInputs (by simp)⟩
    · have hl' : (l.setInputs ids p).runRoot batch q =
          (left.setInputs ids p).runInPlace batch left.hops q := by
        rw [ClusterTask.runRoot_setInputs batch ids p (by rw [hpl, ClusterTask.root_setRoot]),
          hrunl ids p hids q, hm]
      have hr' : (r.dropInput.setInputs ids p).runRoot batch q =
          (right.setInputs ids p).runRoot batch q := by
        rw [ClusterTask.runRoot_setInputs batch ids p (by rw [hpr, ClusterTask.root_dropInput,
          ClusterTask.root_setRoot]), hrunr ids p hids q]
        rfl
      simp [Prepared.Gives, hl', hr', RunsInPlace, hright, hargs]

variable [DecidableEq Key]

/-- The meaning is preserved if and only if the producers give the values of the two tasks. -/
theorem preservesMeaning_iff_gives {bias prepared b₁ b₂}
    (hloop : proxyLoop bias (left.hops + right.hops) b left right = some (l, r, b₁))
    (hprepare : b₁.prepareInputs l r bias = some (prepared, b₂)) (hroots : prepared.HasRoots) :
    b.PreservesMeaning batch left right bias ↔ ∀ q vl vr, left.eval batch q = some vl →
      right.eval batch q = some vr → prepared.Gives batch q vl vr := by
  have hbuild : ∀ runner : BinaryRunner R,
      b.buildClusterTaskForBinaryRunner left right runner none bias =
        some (runner.task prepared, b₂) := by
    simp [buildClusterTaskForBinaryRunner, hloop, hprepare]
  constructor
  · intro h q vl vr hvl hvr
    refine gives_of_forall_eval hroots fun runner => ?_
    exact h runner _ _ (hbuild runner) (isValid_task runner hroots) q vl vr hvl hvr
  · intro h runner t b' ht _ q vl vr hvl hvr
    rw [hbuild runner] at ht
    cases ht
    exact (eval_task runner hroots q _).mpr ⟨vl, vr, h q vl vr hvl hvr, rfl⟩

/-- Tasks that are merged as they are run on one and the same row. -/
theorem Sides.gives_of_merge {shared} (h : Sides batch b₀ left right kl kr b tasks l r)
    (hl : left.InputsIn shared) (hr : right.InputsIn shared)
    (hmerge : (left.level kl).taskCanBeMerge (right.level kr) = true) {q vl vr}
    (hvl : left.eval batch q = some vl) (hvr : right.eval batch q = some vr) :
    (Prepared.toLeft l r).Gives batch q vl vr := by
  obtain ⟨x, hx, hxl⟩ := ClusterTask.runInPlace_of_eval batch kl hvl
  obtain ⟨y, hy, hyr⟩ := ClusterTask.runInPlace_of_eval batch kr hvr
  have hrow := ClusterTask.row_eq_of_inputPtr_eq batch (hl.level kl) (hr.level kr)
    (ClusterTask.inputPtr_of_taskCanBeMerge hmerge) q
  rw [hx, hy] at hrow
  cases hrow
  refine ⟨x, ?_, ?_, ?_⟩
  · rw [h.left.row, hx]
  · rw [h.left.runRoot, hxl]
  · rw [h.right.runRoot, hyr]

/-- The end of the loop, if the tasks are not merged as they are. -/
theorem Sides.preparesInPlace {bias}
    (h : Sides batch b₀ left right (m * bias.leftProxies) (m * bias.rightProxies) b tasks l r)
    (hl : left.Runnable) (hr : right.Runnable) (havoids : b₀.Avoids right.inputRunners)
    (hgoes : ∀ j < m, GoesOn left right (j * bias.leftProxies) (j * bias.rightProxies))
    (hstop : ¬(m * bias.leftProxies < left.hops ∧ m * bias.rightProxies < right.hops)) :
    PreparesInPlace batch b left right l r bias := by
  -- the last turn, if there was one, had two completed tasks before it
  have hlast : m = 0 ∨ GoesOn left right ((m - 1) * bias.leftProxies)
      ((m - 1) * bias.rightProxies) := by
    rcases Nat.eq_zero_or_pos m with h0 | h0
    · exact Or.inl h0
    · exact Or.inr (hgoes (m - 1) (by omega))
  cases bias with
  | kNoBias =>
    simp only [TaskBiasType.leftProxies, TaskBiasType.rightProxies, Nat.mul_one] at h hlast hstop
    have hle : m ≤ left.hops ∧ m ≤ right.hops := by
      rcases hlast with h0 | ⟨h1, h2, -⟩ <;> omega
    exact h.prepare_kNoBias hl hr hle.1 hle.2 hstop
  | kLeftBias =>
    simp only [TaskBiasType.leftProxies, TaskBiasType.rightProxies]
      at h hlast hstop
    rcases Nat.eq_zero_or_pos left.hops with h0 | h0
    · obtain rfl : m = 0 := by
        rcases hlast with hm | ⟨h1, -, -⟩ <;> omega
      exact h.prepare_kLeftBias_local hl hr h0
    · refine h.prepare_kLeftBias_completed hl hr h0 ?_
      rcases hlast with hm | ⟨-, h2, -⟩ <;> omega
  | kRightBias =>
    simp only [TaskBiasType.leftProxies, TaskBiasType.rightProxies]
      at h hlast hstop
    rcases Nat.eq_zero_or_pos right.hops with h0 | h0
    · obtain rfl : m = 0 := by
        rcases hlast with hm | ⟨-, h2, -⟩ <;> omega
      exact h.prepare_kRightBias_local hl hr h0
    · refine h.prepare_kRightBias_completed hl hr h0 ?_ havoids
      rcases hlast with hm | ⟨h1, -, -⟩ <;> omega

/-- A task that the builder holds: it can be run, a runner is the root of one task only, an address
holds one task, and the input runners are neither proxies nor part of the input. -/
structure TaskOf (b : RunnerBuilder R Key) (tasks shared : Nat → Option (ClusterTask R Key))
    (t : ClusterTask R Key) : Prop extends Holds tasks t where
  inputsIn : t.InputsIn shared
  avoids : b.Avoids t.inputRunners
  acyclic : ∀ ids p, t.resetArgs = some (ids, p) → ∀ id ∈ ids, id ∉ p.ids

/-- **When a binary cluster task keeps the meaning of its inputs.** Either the two tasks are merged
as they are, or each of them gives its value also where it is put. -/
theorem preservesMeaning_iff {shared : Nat → Option (ClusterTask R Key)} (hb : b.Consistent tasks)
    (hl : b.TaskOf tasks shared left) (hr : b.TaskOf tasks shared right) (bias : TaskBiasType) :
    b.PreservesMeaning batch left right bias ↔
      Mergeable bias left right ∨
        ∀ q vl vr, left.eval batch q = some vl → right.eval batch q = some vr →
          RunsInPlace batch left right q vl vr bias := by
  obtain ⟨lr, hlr, -⟩ := hl.root
  obtain ⟨rr, hrr, -⟩ := hr.root
  have hstart : Sides batch b left right (0 * bias.leftProxies) (0 * bias.rightProxies) b tasks
      left right := by
    rw [Nat.zero_mul, Nat.zero_mul]
    exact ⟨hb, fun _ h => h, After.zero hlr, After.zero hrr, hl.toHolds, hr.toHolds⟩
  obtain ⟨m, l', r', b', tasks', hloop, hs, -, hgoes, hstop⟩ :=
    proxyLoop_spec bias hl.runnable hr.runnable (left.hops + right.hops) hstart (by simp)
  by_cases hboth : m * bias.leftProxies < left.hops ∧ m * bias.rightProxies < right.hops
  · -- the loop has stopped at two tasks that can be merged
    have hmerge : (left.level (m * bias.leftProxies)).taskCanBeMerge
        (right.level (m * bias.rightProxies)) = true := by
      by_contra hne
      exact hstop ⟨hboth.1, hboth.2, Bool.eq_false_iff.mpr hne⟩
    have hprepare : b'.prepareInputs l' r' bias = some (.toLeft l' r', b') := by
      rw [hs.prepareInputs_eq hl.runnable hr.runnable, if_pos hboth.1, if_pos hboth.2]
    rw [preservesMeaning_iff_gives hloop hprepare hs.hasRoots_toLeft]
    refine iff_of_true ?_ (Or.inl ⟨m, hboth.1, hboth.2, hmerge⟩)
    intro q vl vr hvl hvr
    exact hs.gives_of_merge hl.inputsIn hr.inputsIn hmerge hvl hvr
  · obtain ⟨prepared, b'', hprepare, hroots, hgives⟩ := hs.preparesInPlace hl.runnable hr.runnable
      hr.avoids (fun j hj => hgoes j (Nat.zero_le j) hj) hboth
    have hnot : ¬Mergeable bias left right := by
      rintro ⟨n, hnl, hnr, hmerge⟩
      rcases Nat.lt_or_ge n m with hnm | hnm
      · have hgo := (hgoes n (Nat.zero_le n) hnm).2.2
        rw [hmerge] at hgo
        cases hgo
      · exact hboth ⟨Nat.lt_of_le_of_lt (Nat.mul_le_mul_right _ hnm) hnl,
          Nat.lt_of_le_of_lt (Nat.mul_le_mul_right _ hnm) hnr⟩
    rw [preservesMeaning_iff_gives hloop hprepare hroots, or_iff_right hnot]
    exact forall_congr' fun q => forall_congr' fun vl => forall_congr' fun vr =>
      forall_congr' fun hvl => forall_congr' fun hvr => hgives q vl vr hvl hvr

omit [DecidableEq Key] in
/-- The tasks that right bias is made for: a local task on the left, and on the right a task that
reads the row of a local input through its input runners, none of which the left task uses. -/
theorem runsInPlace_kRightBias {lroot rroot i : Runner R} {ids is ls : List Nat}
    {lroute route iroute : RouteInfo Key} {ptr : Nat} (hlocal : lroute.isCompleted = false)
    (hcompleted : route.isCompleted = true) (hreads : rroot.ReadsThrough ids)
    (hapart : ∀ id ∈ ids, id ∉ lroot.ids) {q : R} {vl vr : Output R}
    (hvl : (ClusterTask.noInput (some lroot) ls lroute).eval batch q = some vl)
    (hvr : (ClusterTask.withInput (some rroot) ids route ptr
      (.noInput (some i) is iroute)).eval batch q = some vr) :
    RunsInPlace batch (.noInput (some lroot) ls lroute)
      (.withInput (some rroot) ids route ptr (.noInput (some i) is iroute)) q vl vr .kRightBias := by
  obtain ⟨y, hy, hv⟩ : ∃ y, i.run batch q = some (.row y) ∧ rroot.run batch y = vr := by
    obtain ⟨y, hy, hv⟩ := ClusterTask.eval_eq_some batch hvr
    rw [ClusterTask.row] at hy
    split at hy
    case h_1 z hz =>
      injection hz with hz
      injection hy with hy
      exact ⟨y, hy ▸ hz, hv⟩
    case h_2 => cases hy
  have hc : (ClusterTask.withInput (some rroot) ids route ptr
      (.noInput (some i) is iroute)).isCompletedClusterTask = true := hcompleted
  simp only [RunsInPlace, hc]
  intro readers p hargs
  injection hargs with hargs
  injection hargs with h₁ h₂
  subst h₁ h₂
  constructor
  · have hops : (ClusterTask.noInput (some lroot) ls lroute).hops = 0 := by
      simp [ClusterTask.hops, hlocal]
    rw [hops]
    show (Runner.setInputs ids i lroot).run batch q = vl
    rw [Runner.setInputs_of_disjoint i hapart]
    injection hvl
  · exact (Runner.run_setInputs_of_readsThrough batch hy hreads).trans hv

/-! ### A task with an input, and the request -/

/-- A route that is completed. -/
def exampleRoute : RouteInfo Unit where
  index := "index"
  indexKey := some ()
  tableHandler := some 0

/-- A projection of the request to its successor, as an input task. -/
def exampleInput : ClusterTask Nat Unit :=
  .ofRunner (.unary 1
    (fun v => match v with
      | some (.row q) => some (.row (q + 1))
      | other => other)
    (.request 0))

/-- What the branch for an index key builds over the input, for a runner that hands its left row
on. -/
def exampleJoin : ClusterTask Nat Unit :=
  .withInput (some (.binary 3 (fun v _ => v) (.request 4) (.data 2 none))) [3] exampleRoute 0
    exampleInput

/-- The request task. -/
def exampleRequest : ClusterTask Nat Unit := .ofRunner (.request 0)

/-- The builder at that point. -/
def exampleBuilder : RunnerBuilder Nat Unit where
  id := 6
  clusterJob := []
  requestTask := some 0
  proxyRunnerMap := []
  nextPtr := 1

/-- The tasks by their roots. -/
def exampleTasks : Nat → Option (ClusterTask Nat Unit)
  | 0 => some exampleRequest
  | 3 => some exampleJoin
  | _ => none

theorem exampleBuilder_consistent : exampleBuilder.Consistent exampleTasks where
  request := rfl
  lt_id := by
    intro id t h
    unfold exampleTasks at h
    split at h
    · decide
    · decide
    · cases h
  proxy := fun id p h => by cases h

theorem exampleRequest_taskOf :
    exampleBuilder.TaskOf exampleTasks (fun _ => some exampleInput) exampleRequest where
  runnable := ⟨rfl, fun h => by cases h⟩
  root := ⟨_, rfl, rfl⟩
  inputsIn := trivial
  avoids := ⟨fun _ h => (not_mem_nil h).elim, fun _ h => (not_mem_nil h).elim⟩
  acyclic := fun _ _ h => by cases h

theorem exampleJoin_taskOf :
    exampleBuilder.TaskOf exampleTasks (fun _ => some exampleInput) exampleJoin where
  runnable := ⟨rfl, rfl, rfl, fun h => by cases h⟩
  root := ⟨_, rfl, rfl⟩
  inputsIn := ⟨rfl, trivial⟩
  avoids := ⟨by decide, fun _ h => (not_mem_nil h).elim⟩
  acyclic := by
    intro ids p h
    cases h
    decide

theorem preservesMeaning_exampleJoin :
    exampleBuilder.PreservesMeaning (fun _ _ => none) exampleRequest exampleJoin .kRightBias := by
  refine (preservesMeaning_iff exampleBuilder_consistent exampleRequest_taskOf
    exampleJoin_taskOf .kRightBias).mpr (Or.inr fun q vl vr hvl hvr => ?_)
  refine runsInPlace_kRightBias rfl rfl ?_ ?_ hvl hvr
  · exact ⟨⟨4, rfl⟩, trivial⟩
  · decide

/-- With a left bias the request runner of the right task is moved to the row of the left one. -/
theorem not_preservesMeaning_kLeftBias :
    ¬exampleBuilder.PreservesMeaning (fun _ _ => none) exampleJoin exampleRequest .kLeftBias := by
  intro h
  have heval := h ⟨5, fun _ v => v⟩ _ _ rfl rfl 0 _ _ rfl rfl
  have hmoved : some (some (DataHandler.row 1)) = some (some (DataHandler.row 0)) := heval
  injection hmoved with hmoved
  injection hmoved with hmoved
  injection hmoved with hmoved
  exact absurd hmoved (by decide)

end RunnerBuilder

end HybridSE.Vm
