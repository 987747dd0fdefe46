import Mathlib.Data.List.Forall2

/-!
# HybridSE.Lib.Memo

Memoised computations that may fail.

A computation over a state with a cache is compared with one that has no state. `Follows I x y`
says that, from a state with the invariant `I`, the computation `x` gives the result of `y` and
fails with it, and leaves a state with the invariant. If `I` says that the entries of the cache are
results of the stateless computations, a look-up follows what it replaces (`follows_memo`), and a
computation that is written for any monad with failure follows itself step by step.
-/

namespace HybridSE.Lib

universe u

variable {σ α β : Type u}

/-- A monad with failure. -/
class FailMonad (m : Type u → Type u) extends Monad m where
  fail : {α : Type u} → m α

instance : FailMonad Option where
  fail := none

instance {σ : Type u} : FailMonad (StateT σ (Option : Type u → Type u)) where
  fail := fun _ => none

/-- The value, or failure. -/
def ofOption {m : Type u → Type u} [FailMonad m] : Option α → m α
  | some a => pure a
  | none => FailMonad.fail

@[simp] theorem ofOption_eq (a : Option α) : (ofOption a : Option α) = a := by
  cases a <;> rfl

/-- From a state with the invariant, `x` does what `y` does, and the invariant holds again. -/
def Follows (I : σ → Prop) (x : StateT σ Option α) (y : Option α) : Prop :=
  ∀ s, I s → match y with
    | none => x s = none
    | some a => ∃ s', I s' ∧ x s = some (a, s')

/-- Takes the value of the cache if there is one, and enters the result otherwise. -/
def memo (lookup : σ → Option β) (enter : Option β → σ → σ) (x : StateT σ Option (Option β)) :
    StateT σ Option (Option β) := do
  let s ← get
  match lookup s with
  | some b => pure (some b)
  | none => do
      let v ← x
      modify (enter v)
      pure v

variable {I : σ → Prop}

theorem Follows.eq_map {x} {y : Option α} (h : Follows I x y) {s} (hs : I s) :
    (x s).map Prod.fst = y := by
  have hx := h s hs
  cases y with
  | none =>
    rw [hx]
    rfl
  | some a =>
    obtain ⟨s', -, hx⟩ : ∃ s', I s' ∧ x s = some (a, s') := hx
    rw [hx]
    rfl

theorem follows_pure (a : α) : Follows I (pure a) (some a) := fun s hs => ⟨s, hs, rfl⟩

theorem follows_fail : Follows I (FailMonad.fail : StateT σ Option α) none := fun _ _ => rfl

theorem follows_ofOption (a : Option α) : Follows I (ofOption a) (ofOption a) := by
  cases a with
  | none => exact follows_fail
  | some a => exact follows_pure a

theorem Follows.bind {x y f} {g : α → Option β} (hx : Follows I x y)
    (hf : ∀ a, y = some a → Follows I (f a) (g a)) : Follows I (x >>= f) (y >>= g) := by
  intro s hs
  have h := hx s hs
  cases y with
  | none =>
    show (x s >>= fun p => f p.1 p.2) = none
    rw [h]
    rfl
  | some a =>
    obtain ⟨s', hs', h⟩ : ∃ s', I s' ∧ x s = some (a, s') := h
    have hbind : (x >>= f) s = f a s' := by
      show (x s >>= fun p => f p.1 p.2) = f a s'
      rw [h]
      rfl
    rw [hbind]
    exact hf a rfl s' hs'

/-- A look-up follows the computation that it replaces. -/
theorem follows_memo {lookup enter x} {y : Option (Option β)} (hx : Follows I x y)
    (hhit : ∀ s b, I s → lookup s = some b → y = some (some b))
    (henter : ∀ s v, I s → y = some v → I (enter v s)) : Follows I (memo lookup enter x) y := by
  intro s hs
  cases hl : lookup s with
  | some b =>
    have hmemo : memo lookup enter x s = some (some b, s) := by
      show (match lookup s with
        | some b => (pure (some b) : StateT σ Option (Option β))
        | none => x >>= fun v => modify (enter v) >>= fun _ => pure v) s = _
      rw [hl]
      rfl
    rw [hhit s b hs hl]
    exact ⟨s, hs, hmemo⟩
  | none =>
    have hmemo : memo lookup enter x s =
        (x >>= fun v => modify (enter v) >>= fun _ => pure v) s := by
      show (match lookup s with
        | some b => (pure (some b) : StateT σ Option (Option β))
        | none => x >>= fun v => modify (enter v) >>= fun _ => pure v) s = _
      rw [hl]
    rw [hmemo]
    have henter' : ∀ v, y = some v →
        Follows I (modify (enter v) >>= fun _ => pure v) (some v) :=
      fun v hv s' hs' => ⟨enter v s', henter s' v hs' hv, rfl⟩
    have hall := hx.bind henter'
    have hy : (y >>= some) = y := by cases y <;> rfl
    rw [hy] at hall
    exact hall s hs

theorem follows_mapM {ι : Type*} {f} {g : ι → Option β} {is : List ι}
    (h : ∀ i ∈ is, Follows I (f i) (g i)) : Follows I (is.mapM f) (is.mapM g) := by
  induction is with
  | nil => exact follows_pure []
  | cons i is ih =>
    rw [List.mapM_cons, List.mapM_cons]
    refine (h i List.mem_cons_self).bind fun b _ => ?_
    exact (ih fun j hj => h j (List.mem_cons_of_mem _ hj)).bind fun bs _ => follows_pure _

end HybridSE.Lib
