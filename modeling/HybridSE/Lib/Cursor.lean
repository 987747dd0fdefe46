import Mathlib.Data.List.Basic

/-!
# HybridSE.Lib.Cursor

Cursors over keyed lists: a position that shows an entry or none, moves on, seeks a key,
and can be put back to the start. A new cursor stands at its `fresh` position, which need
not be the one `seekToFirst` leads to; `shown` is what a reader sees from a position on.
-/

namespace HybridSE.Lib

variable {σ V : Type*}

/-- A cursor with positions in `σ`. `current` is the entry a valid position stands at;
`left` bounds the moves that are left from a position. -/
structure Cursor (σ V : Type*) where
  fresh : σ
  current : σ → Option (Nat × V)
  next : σ → σ
  seek : Nat → σ → σ
  seekToFirst : σ → σ
  left : σ → Nat
  left_next : ∀ s, (current s).isSome = true → left (next s) < left s

namespace Cursor

variable {c : Cursor σ V} {s : σ} {e : Nat × V}

theorem left_next_lt (h : c.current s = some e) : c.left (c.next s) < c.left s :=
  c.left_next s (by rw [h]; rfl)

/-- Induction along the moves of a cursor. -/
theorem induct (c : Cursor σ V) {P : σ → Prop} (done : ∀ s, c.current s = none → P s)
    (move : ∀ s e, c.current s = some e → P (c.next s) → P s) (s : σ) : P s := by
  induction hn : c.left s using Nat.strongRecOn generalizing s with
  | ind n ih =>
    cases hs : c.current s with
    | none => exact done s hs
    | some e => exact move s e hs (ih _ (hn ▸ left_next_lt hs) _ rfl)

/-- The entries read by at most `n` rounds of reading and moving on. -/
def rest (c : Cursor σ V) : Nat → σ → List (Nat × V)
  | 0, _ => []
  | n + 1, s =>
    match c.current s with
    | none => []
    | some e => e :: c.rest n (c.next s)

/-- The entries a reader sees from `s` on. -/
def shown (c : Cursor σ V) (s : σ) : List (Nat × V) := c.rest (c.left s) s

/-- Any bound that suffices gives the same entries. -/
theorem rest_congr (c : Cursor σ V) (s : σ) :
    ∀ n m : Nat, c.left s ≤ n → c.left s ≤ m → c.rest n s = c.rest m s := by
  induction s using c.induct with
  | done s hs =>
    intro n m _ _
    cases n <;> cases m <;> simp [rest, hs]
  | move s e hs ih =>
    intro n m hn hm
    have hlt := left_next_lt hs
    obtain ⟨n, rfl⟩ : ∃ k, n = k + 1 := ⟨n - 1, by omega⟩
    obtain ⟨m, rfl⟩ : ∃ k, m = k + 1 := ⟨m - 1, by omega⟩
    simp [rest, ih n m (by omega) (by omega)]

theorem shown_of_none (h : c.current s = none) : c.shown s = [] := by
  unfold shown
  cases c.left s <;> simp [rest, h]

theorem shown_of_some (h : c.current s = some e) : c.shown s = e :: c.shown (c.next s) := by
  have hlt := left_next_lt h
  obtain ⟨n, hn⟩ : ∃ n, c.left s = n + 1 := ⟨c.left s - 1, by omega⟩
  simp [shown, hn, rest, h, c.rest_congr (c.next s) n _ (by omega) (Nat.le_refl _)]

theorem head?_shown (c : Cursor σ V) (s : σ) : (c.shown s).head? = c.current s := by
  cases hs : c.current s with
  | none => rw [shown_of_none hs]; rfl
  | some e => rw [shown_of_some hs]; rfl

/-! ### Reading by position -/

/-- Moves on `pos` times, as long as the position is valid. -/
def advance (c : Cursor σ V) : Nat → σ → σ
  | 0, s => s
  | pos + 1, s =>
    match c.current s with
    | none => s
    | some _ => c.advance pos (c.next s)

theorem shown_advance (c : Cursor σ V) (pos : Nat) :
    ∀ s : σ, c.shown (c.advance pos s) = (c.shown s).drop pos := by
  induction pos with
  | zero => exact fun _ => rfl
  | succ pos ih =>
    intro s
    cases hs : c.current s with
    | none => simp only [advance, hs, shown_of_none hs, List.drop_nil]
    | some e =>
      simp only [advance, hs, shown_of_some hs]
      exact ih (c.next s)

theorem current_advance (c : Cursor σ V) (pos : Nat) (s : σ) :
    c.current (c.advance pos s) = (c.shown s)[pos]? := by
  rw [← head?_shown, shown_advance, List.head?_drop]

/-- The number of moves until the position is not valid, `n` at most. -/
def countMoves (c : Cursor σ V) : Nat → σ → Nat
  | 0, _ => 0
  | n + 1, s =>
    match c.current s with
    | none => 0
    | some _ => c.countMoves n (c.next s) + 1

theorem countMoves_eq (c : Cursor σ V) (n : Nat) :
    ∀ s : σ, c.countMoves n s = (c.rest n s).length := by
  induction n with
  | zero => exact fun _ => rfl
  | succ n ih =>
    intro s
    cases hs : c.current s with
    | none => simp only [countMoves, rest, hs, List.length_nil]
    | some e => simp only [countMoves, rest, hs, List.length_cons, ih]

/-! ### Moving on to an entry -/

/-- Moves on to the first entry whose value satisfies `p`, in at most `n` rounds. -/
def skipLoop (c : Cursor σ V) (p : V → Bool) : Nat → σ → σ
  | 0, s => s
  | n + 1, s =>
    match c.current s with
    | none => s
    | some e => if p e.2 then s else c.skipLoop p n (c.next s)

/-- Moves on to the first entry whose value satisfies `p`. -/
def skipTo (c : Cursor σ V) (p : V → Bool) (s : σ) : σ := c.skipLoop p (c.left s) s

theorem skipLoop_congr (c : Cursor σ V) (p : V → Bool) (s : σ) :
    ∀ n m : Nat, c.left s ≤ n → c.left s ≤ m → c.skipLoop p n s = c.skipLoop p m s := by
  induction s using c.induct with
  | done s hs =>
    intro n m _ _
    cases n <;> cases m <;> simp [skipLoop, hs]
  | move s e hs ih =>
    intro n m hn hm
    have hlt := left_next_lt hs
    obtain ⟨n, rfl⟩ : ∃ k, n = k + 1 := ⟨n - 1, by omega⟩
    obtain ⟨m, rfl⟩ : ∃ k, m = k + 1 := ⟨m - 1, by omega⟩
    simp [skipLoop, ih n m (by omega) (by omega)]

theorem skipTo_of_none {p} (h : c.current s = none) : c.skipTo p s = s := by
  unfold skipTo
  cases c.left s <;> simp [skipLoop, h]

theorem skipTo_of_some {p} (h : c.current s = some e) :
    c.skipTo p s = if p e.2 then s else c.skipTo p (c.next s) := by
  have hlt := left_next_lt h
  obtain ⟨n, hn⟩ : ∃ n, c.left s = n + 1 := ⟨c.left s - 1, by omega⟩
  simp [skipTo, hn, skipLoop, h, c.skipLoop_congr p (c.next s) n _ (by omega) (Nat.le_refl _)]

theorem left_skipTo_le (c : Cursor σ V) (p : V → Bool) (s : σ) :
    c.left (c.skipTo p s) ≤ c.left s := by
  induction s using c.induct with
  | done s hs => exact Nat.le_of_eq (congrArg c.left (skipTo_of_none hs))
  | move s e hs ih =>
    rw [skipTo_of_some hs]
    split
    · exact Nat.le_refl _
    · exact Nat.le_trans ih (Nat.le_of_lt (left_next_lt hs))

/-! ### The cursor of a list -/

/-- A position is the list of the entries from there on. Seeking starts anew and stops at
the first entry with a key of at most the given one. -/
def ofList (table : List (Nat × V)) : Cursor (List (Nat × V)) V where
  fresh := table
  current := List.head?
  next := List.tail
  seek := fun k _ => table.dropWhile fun e => decide (k < e.1)
  seekToFirst := fun _ => table
  left := List.length
  left_next s h := by
    cases s with
    | nil => cases h
    | cons e rest => exact Nat.lt_succ_self _

@[simp] theorem shown_ofList (table s : List (Nat × V)) : (ofList table).shown s = s := by
  induction s with
  | nil => exact shown_of_none rfl
  | cons e rest ih =>
    exact congrArg _ ih

end Cursor

end HybridSE.Lib
