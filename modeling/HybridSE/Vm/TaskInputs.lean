import HybridSE.Vm.ClusterTask

/-!
# HybridSE.Vm.TaskInputs

What a cluster task gives when its inputs are computed in another place than their own.

A proxy computes the row of the input where the input runs, and sends it to the task. With `k`
proxies in front of each other the first `k` inputs are computed one after the other, all of them
where the last one runs (`ClusterTask.runInPlace`). There is a row on which that gives the value of
the task (`runInPlace_of_eval`): it is the row of the `k`-th input, which is the request once the
task has become local.

`ResetInputs` goes another way: it gives the input runners the root of the input as producer. That
is the same only for runners that read the request nowhere else
(`Runner.run_setInputs_of_readsThrough`).
-/

namespace HybridSE.Vm

open List Option

variable {R Key : Type} (batch : (R → Output R) → List R → Output R)

namespace Runner

/-- The runners of the graph below a runner. -/
def ids : Runner R → List Nat
  | .request id => [id]
  | .data id _ => [id]
  | .unary id _ producer => id :: producer.ids
  | .binary id _ left right => id :: (left.ids ++ right.ids)
  | .proxy id _ _ remote input => id :: (remote.ids ++ input.ids)

/-- The request is read by the runners `readers` alone, as their first producer. -/
def ReadsThrough (readers : List Nat) : Runner R → Prop
  | .request _ => False
  | .data _ _ => True
  | .unary id _ producer =>
    if id ∈ readers then ∃ i, producer = .request i else producer.ReadsThrough readers
  | .binary id _ left right =>
    (if id ∈ readers then ∃ i, left = .request i else left.ReadsThrough readers) ∧
      right.ReadsThrough readers
  | .proxy id _ _ remote input =>
    (if id ∈ readers then ∃ i, input = .request i else input.ReadsThrough readers) ∧
      ∀ i ∈ readers, i ∉ remote.ids

theorem setInputs_of_disjoint {readers} (p : Runner R) {r} (h : ∀ id ∈ readers, id ∉ r.ids) :
    setInputs readers p r = r := by
  induction r with
  | request id => rfl
  | data id handler => rfl
  | unary id compute producer ih =>
    simp only [ids, mem_cons, not_or] at h
    have hid : id ∉ readers := fun hid => (h id hid).1 rfl
    rw [setInputs, if_neg hid, ih fun i hi => (h i hi).2]
  | binary id compute left right ihl ihr =>
    simp only [ids, mem_cons, mem_append, not_or] at h
    have hid : id ∉ readers := fun hid => (h id hid).1 rfl
    rw [setInputs, if_neg hid, ihl fun i hi => (h i hi).2.1, ihr fun i hi => (h i hi).2.2]
  | proxy id taskId indexInput remote input ihr ihi =>
    simp only [ids, mem_cons, mem_append, not_or] at h
    have hid : id ∉ readers := fun hid => (h id hid).1 rfl
    rw [setInputs, if_neg hid, ihr fun i hi => (h i hi).2.1, ihi fun i hi => (h i hi).2.2]

/-- To give the readers `p` as producer is to run on the row of `p`. -/
theorem run_setInputs_of_readsThrough {readers} {p r : Runner R} {q y}
    (hp : p.run batch q = some (.row y)) (h : r.ReadsThrough readers) :
    (setInputs readers p r).run batch q = r.run batch y := by
  -- a reader takes `p` instead of the request; the others go on below
  have hfirst : ∀ (id : Nat) (first : Runner R),
      (first.ReadsThrough readers → (setInputs readers p first).run batch q = first.run batch y) →
      (if id ∈ readers then ∃ i, first = .request i else first.ReadsThrough readers) →
      (if id ∈ readers then p else setInputs readers p first).run batch q = first.run batch y := by
    intro id first ih hr
    by_cases hid : id ∈ readers
    · rw [if_pos hid] at hr ⊢
      obtain ⟨i, rfl⟩ := hr
      exact hp
    · rw [if_neg hid] at hr ⊢
      exact ih hr
  induction r with
  | request id => exact h.elim
  | data id handler => rfl
  | unary id compute producer ih =>
    show compute _ = compute _
    rw [hfirst id producer ih h]
  | binary id compute left right ihl ihr =>
    show compute _ _ = compute _ _
    rw [hfirst id left ihl h.1, ihr h.2]
  | proxy id taskId indexInput remote input ihr ihi =>
    show ask batch _ _ = ask batch _ _
    rw [hfirst id input ihi h.1, setInputs_of_disjoint p h.2]

@[simp] theorem setInputs_nil (p r : Runner R) : setInputs [] p r = r := by
  induction r with
  | request id => rfl
  | data id handler => rfl
  | unary id compute producer ih => simp [setInputs, ih]
  | binary id compute left right ihl ihr => simp [setInputs, ihl, ihr]
  | proxy id taskId indexInput remote input ihr ihi => simp [setInputs, ihr, ihi]

end Runner

namespace ClusterTask

/-! ### Inputs taken in place -/

/-- The task after `k` proxies, but for its root: its `k`-th input. After the last input a task is
local. -/
def level : Nat → ClusterTask R Key → ClusterTask R Key
  | 0, t => t
  | k + 1, .withInput _ _ _ _ input => level k input
  | _ + 1, .noInput .. => .invalid

/-- `g` after the first `k` inputs of a task, all of them computed where the last one runs. -/
def inPlace : Nat → (R → Output R) → ClusterTask R Key → R → Output R
  | 0, g, _ => g
  | k + 1, g, .withInput _ _ _ _ input =>
    inPlace k (fun x => Runner.ask batch g (input.runRoot batch x)) input
  | _ + 1, g, .noInput .. => g

/-- A task run on the row `x` with its first `k` inputs in place. -/
def runInPlace (k : Nat) (t : ClusterTask R Key) (x : R) : Output R :=
  t.inPlace batch k (t.runRoot batch) x

@[simp] theorem level_zero (t : ClusterTask R Key) : t.level 0 = t := rfl

theorem level_succ (k : Nat) (t : ClusterTask R Key) : t.level (k + 1) = (t.level k).level 1 := by
  induction k generalizing t with
  | zero => rfl
  | succ k ih =>
    cases t with
    | noInput root ids route => rfl
    | withInput root ids route ptr input => exact ih input

@[simp] theorem inputPtr_setRoot (p : Runner R) (t : ClusterTask R Key) :
    (t.setRoot p).inputPtr = t.inputPtr := by
  cases t <;> rfl

@[simp] theorem routeInfo_setRoot (p : Runner R) (t : ClusterTask R Key) :
    (t.setRoot p).routeInfo = t.routeInfo := by
  cases t <;> rfl

@[simp] theorem root_setRoot (p : Runner R) (t : ClusterTask R Key) :
    (t.setRoot p).root = some p := by
  cases t <;> rfl

variable {t : ClusterTask R Key} {p : Runner R} {q : R} {v : Output R} {ids : List Nat} {k : Nat}

theorem setRoot_self (h : t.root = some p) : t.setRoot p = t := by
  cases t with
  | noInput root ids route => exact congrArg (noInput · ids route) h.symm
  | withInput root ids route ptr input => exact congrArg (withInput · ids route ptr input) h.symm

@[simp] theorem row_setRoot (q : R) (p : Runner R) (t : ClusterTask R Key) :
    (t.setRoot p).row batch q = t.row batch q := by
  cases t <;> rfl

theorem eval_eq_row (q : R) {root} (h : t.root = some root) :
    t.eval batch q = (t.row batch q).map (root.run batch) := by
  cases t with
  | noInput r ids route =>
    obtain rfl : r = some root := h
    rfl
  | withInput r ids route ptr input =>
    obtain rfl : r = some root := h
    rw [eval, row]
    split <;> rfl

/-- A task has a value only if its root runs. -/
theorem eval_eq_some (h : t.eval batch q = some v) :
    ∃ x, t.row batch q = some x ∧ t.runRoot batch x = v := by
  cases hroot : t.root with
  | none =>
    cases t with
    | noInput r ids route =>
      obtain rfl : r = none := hroot
      cases h
    | withInput r ids route ptr input =>
      obtain rfl : r = none := hroot
      cases h
  | some root =>
    rw [eval_eq_row batch q hroot] at h
    obtain ⟨x, hx, hv⟩ := map_eq_some_iff.mp h
    refine ⟨x, hx, ?_⟩
    rw [runRoot, hroot]
    exact hv

/-- A value can be had at every level: the inputs that are not in place yet give the row. -/
theorem inPlace_of_eval (h : Output R → Output R) (k : Nat) (t : ClusterTask R Key)
    (ht : t.eval batch q = some v) :
    ∃ x, (t.level k).row batch q = some x ∧
      t.inPlace batch k (fun x => h (t.runRoot batch x)) x = h v := by
  induction k generalizing t v h with
  | zero =>
    obtain ⟨x, hx, rfl⟩ := eval_eq_some batch ht
    exact ⟨x, hx, rfl⟩
  | succ k ih =>
    obtain ⟨x, hx, hv⟩ := eval_eq_some batch ht
    cases t with
    | noInput root ids route =>
      cases hx
      exact ⟨q, rfl, congrArg h hv⟩
    | withInput root ids route ptr input =>
      rw [row] at hx
      split at hx
      case h_2 => cases hx
      case h_1 y hy =>
        cases hx
        subst hv
        exact ih (Runner.ask batch fun x => h ((withInput root ids route ptr input).runRoot batch x))
          input hy

theorem runInPlace_of_eval (k : Nat) (ht : t.eval batch q = some v) :
    ∃ x, (t.level k).row batch q = some x ∧ t.runInPlace batch k x = v :=
  inPlace_of_eval batch (fun v => v) k t ht

/-- The last proxy is the outermost one. -/
theorem inPlace_succ (k : Nat) (g : R → Output R) {root route ptr input}
    (h : t.level k = .withInput root ids route ptr input) (x : R) :
    t.inPlace batch (k + 1) g x = Runner.ask batch (t.inPlace batch k g) (input.runRoot batch x) := by
  induction k generalizing t g with
  | zero =>
    subst h
    rfl
  | succ k ih =>
    cases t with
    | noInput r i rt => cases h
    | withInput r i rt p inp => exact ih _ h

/-- There is nothing to compute in place after the last input. -/
theorem inPlace_of_level_noInput {j} (g : R → Output R) {root route}
    (h : t.level k = .noInput root ids route) (hj : k ≤ j) :
    t.inPlace batch j g = t.inPlace batch k g := by
  induction k generalizing t g j with
  | zero =>
    subst h
    cases j with
    | zero => rfl
    | succ j => rfl
  | succ k ih =>
    obtain ⟨j, rfl⟩ : ∃ i, j = i + 1 := ⟨j - 1, by omega⟩
    cases t with
    | noInput r i rt => rfl
    | withInput r i rt p inp => exact ih _ h (by omega)

/-! ### Proxies until a task is local -/

theorem runnable_level (h : t.Runnable) (k : Nat) (p : Runner R) :
    ((t.level k).setRoot p).Runnable := by
  induction k generalizing t with
  | zero =>
    cases t with
    | noInput root ids route => exact ⟨rfl, h.2⟩
    | withInput root ids route ptr input => exact ⟨rfl, h.2⟩
  | succ k ih =>
    cases t with
    | noInput root ids route => exact ⟨rfl, fun hc => by cases hc⟩
    | withInput root ids route ptr input => exact ih h.2.2

/-- Whether a task is completed after `k` proxies. -/
theorem isCompleted_level (h : t.Runnable) (k : Nat) (p : Runner R) :
    ((t.level k).setRoot p).isCompletedClusterTask = true ↔ k < t.hops := by
  induction k generalizing t with
  | zero =>
    cases t with
    | noInput root ids route =>
      simp only [level, setRoot, isCompletedClusterTask, isValid, ClusterTask.root,
        ClusterTask.routeInfo, hops, h.1]
      cases route.isCompleted <;> simp
    | withInput root ids route ptr input =>
      simp [setRoot, isCompletedClusterTask, isValid, ClusterTask.root,
        ClusterTask.routeInfo, hops, h.2.1]
  | succ k ih =>
    cases t with
    | noInput root ids route =>
      have hle : (noInput root ids route : ClusterTask R Key).hops ≤ 1 := by
        rw [hops]
        split <;> omega
      refine iff_of_false ?_ (by omega)
      intro hc
      cases hc
    | withInput root ids route ptr input =>
      rw [level, ih h.2.2, hops]
      omega

theorem root_isSome (h : t.Runnable) : t.root.isSome := by
  cases t with
  | noInput root ids route => exact h.1
  | withInput root ids route ptr input => exact h.1

theorem isCompleted_eq (h : t.Runnable) : t.isCompletedClusterTask = decide (0 < t.hops) := by
  obtain ⟨root, hroot⟩ := isSome_iff_exists.mp (root_isSome h)
  have hlevel := isCompleted_level h 0 root
  rw [level_zero, setRoot_self hroot] at hlevel
  exact Bool.eq_iff_iff.mpr (hlevel.trans decide_eq_true_iff.symm)

theorem not_isUnCompleted (h : t.Runnable) : t.isUnCompletedClusterTask = false := by
  cases t with
  | noInput root ids route =>
    have hc := h.2
    simp only [isUnCompletedClusterTask, isClusterTask, ClusterTask.routeInfo]
    cases hcl : route.isCluster with
    | false => rfl
    | true => rw [hc hcl]; rfl
  | withInput root ids route ptr input =>
    simp [isUnCompletedClusterTask, ClusterTask.routeInfo, h.2.1]

theorem level_hops (h : t.Runnable) :
    ∃ root ids route, t.level t.hops = .noInput root ids route := by
  induction t with
  | noInput root ids route =>
    rw [hops]
    split
    · exact ⟨none, [], {}, rfl⟩
    · exact ⟨root, ids, route, rfl⟩
  | withInput root ids route ptr input ih => exact ih h.2.2

/-- A local task runs on the request. -/
theorem row_level_of_hops_le (h : t.Runnable) (hk : t.hops ≤ k) (q : R) :
    (t.level k).row batch q = some q := by
  induction k, hk using Nat.le_induction with
  | base =>
    obtain ⟨root, ids, route, hl⟩ := level_hops h
    rw [hl]
    rfl
  | succ k hk ih =>
    rw [level_succ]
    cases hl : t.level k with
    | noInput root ids route => rfl
    | withInput root ids route ptr input =>
      have hc := mt (isCompleted_level h k (.request 0)).mp (by omega)
      have hr := runnable_level h k (.request 0)
      rw [hl] at hc hr
      exact absurd (by simp [setRoot, isCompletedClusterTask, isValid, ClusterTask.root,
        ClusterTask.routeInfo, hr.2.1]) hc

/-- With all inputs in place a task can be run on the request. -/
theorem runInPlace_request (h : t.Runnable) (hk : t.hops ≤ k) (ht : t.eval batch q = some v) :
    t.runInPlace batch k q = v := by
  obtain ⟨x, hx, hv⟩ := runInPlace_of_eval batch k ht
  rw [row_level_of_hops_le batch h hk] at hx
  cases hx
  exact hv

/-! ### Shared input tasks -/

/-- Every input pointer of a task holds the task that `shared` gives for its address. -/
def InputsIn (shared : Nat → Option (ClusterTask R Key)) : ClusterTask R Key → Prop
  | .noInput .. => True
  | .withInput _ _ _ ptr input => shared ptr = some input ∧ input.InputsIn shared

theorem InputsIn.level {shared} (h : t.InputsIn shared) (k : Nat) :
    (t.level k).InputsIn shared := by
  induction k generalizing t with
  | zero => exact h
  | succ k ih =>
    cases t with
    | noInput root ids route => exact trivial
    | withInput root ids route ptr input => exact ih h.2

/-- Tasks that can be merged run on the same row. -/
theorem row_eq_of_inputPtr_eq {shared} {t₁ t₂ : ClusterTask R Key} (h₁ : t₁.InputsIn shared)
    (h₂ : t₂.InputsIn shared) (h : t₁.inputPtr = t₂.inputPtr) (q : R) :
    t₁.row batch q = t₂.row batch q := by
  cases t₁ with
  | noInput root ids route =>
    cases t₂ with
    | noInput root' ids' route' => rfl
    | withInput root' ids' route' ptr' input' => cases h
  | withInput root ids route ptr input =>
    cases t₂ with
    | noInput root' ids' route' => cases h
    | withInput root' ids' route' ptr' input' =>
      obtain rfl : ptr = ptr' := by injection h
      have hi : some input = some input' := h₁.1.symm.trans h₂.1
      injection hi with hi
      subst hi
      rfl

@[simp] theorem taskCanBeMerge_setRoot [DecidableEq Key] (p p' : Runner R)
    (t t' : ClusterTask R Key) :
    (t.setRoot p).taskCanBeMerge (t'.setRoot p') = t.taskCanBeMerge t' := by
  simp [taskCanBeMerge]

theorem inputPtr_of_taskCanBeMerge [DecidableEq Key] {t'} (h : t.taskCanBeMerge t' = true) :
    t.inputPtr = t'.inputPtr := by
  simp only [taskCanBeMerge, Bool.and_eq_true, decide_eq_true_eq] at h
  exact h.1.1.1

/-! ### Runners given another producer -/

theorem level_setInputs (ids : List Nat) (p : Runner R) (k : Nat) (t : ClusterTask R Key) :
    (t.setInputs ids p).level k = (t.level k).setInputs ids p := by
  induction k generalizing t with
  | zero => rfl
  | succ k ih =>
    cases t with
    | noInput root is route => rfl
    | withInput root is route ptr input => exact ih input

@[simp] theorem setInputs_nil (p : Runner R) (t : ClusterTask R Key) : t.setInputs [] p = t := by
  have hid : Runner.setInputs [] p = fun r : Runner R => r := funext (Runner.setInputs_nil p)
  induction t with
  | noInput root is route => simp [setInputs, hid]
  | withInput root is route ptr input ih => simp [setInputs, hid, ih]

@[simp] theorem level_setRoot (p : Runner R) (t : ClusterTask R Key) :
    (t.setRoot p).level 1 = t.level 1 := by
  cases t <;> rfl

@[simp] theorem getRequestInput_setRoot (p : Runner R) (t : ClusterTask R Key) :
    (t.setRoot p).getRequestInput = t.resetArgs.map fun a => a.2.id := by
  cases t with
  | noInput root ids route => rfl
  | withInput root ids route ptr input =>
    simp [setRoot, getRequestInput, resetArgs, Function.comp_def]

@[simp] theorem resetArgs_setRoot (p : Runner R) (t : ClusterTask R Key) :
    (t.setRoot p).resetArgs = t.resetArgs := by
  cases t <;> rfl

theorem inputRunners_of_resetArgs (h : t.resetArgs = some (ids, p)) : t.inputRunners = ids := by
  cases t with
  | noInput root is route => cases h
  | withInput root is route ptr input =>
    obtain ⟨r, -, hr⟩ := map_eq_some_iff.mp h
    cases hr
    rfl

theorem row_of_resetArgs_eq_none (ht : t.Runnable) (h : t.resetArgs = none) (q : R) :
    t.row batch q = some q := by
  cases t with
  | noInput root ids route => rfl
  | withInput root ids route ptr input =>
    obtain ⟨r, hr⟩ := isSome_iff_exists.mp (root_isSome ht.2.2)
    rw [resetArgs, hr] at h
    cases h

@[simp] theorem root_dropInput (t : ClusterTask R Key) : t.dropInput.root = t.root := by
  cases t <;> rfl

@[simp] theorem row_setInputs_dropInput (ids : List Nat) (p : Runner R) (t : ClusterTask R Key)
    (q : R) : (t.dropInput.setInputs ids p).row batch q = some q := by
  cases t <;> rfl

theorem root_isSome_setInputs (h : t.root.isSome) : (t.setInputs ids p).root.isSome := by
  cases t with
  | noInput root is route => exact (isSome_map ..).trans h
  | withInput root is route ptr input => exact (isSome_map ..).trans h

theorem runRoot_setInputs (ids : List Nat) (p : Runner R) {root} (h : t.root = some root) (x : R) :
    (t.setInputs ids p).runRoot batch x = (Runner.setInputs ids p root).run batch x := by
  cases t with
  | noInput r is route =>
    obtain rfl : r = some root := h
    rfl
  | withInput r is route ptr input =>
    obtain rfl : r = some root := h
    rfl

end ClusterTask

end HybridSE.Vm
