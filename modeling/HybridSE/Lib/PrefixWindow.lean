import Mathlib.Data.List.Basic
import Mathlib.Data.List.Induction

/-!
# HybridSE.Lib.PrefixWindow

Windows over a list whose newest element comes first. Such a window is a prefix
of the list; `takeIdxWhile` is the prefix cut at the first element that a test
`keep` on position and element rejects, and `popBackWhile` is the loop that
reaches the same prefix from the other end, by popping the oldest element as
long as it is to be dropped.

The two agree when `keep` can only turn from true to false along the list
(`KeepAntitone`). The lemmas `takeIdxWhile_takeIdxWhile` and
`takeIdxWhile_cons_takeIdxWhile` say that a window may be computed from an
earlier window instead of the whole history, provided the earlier one kept
everything that the later one still wants.
-/

namespace HybridSE.Lib

open List Option

variable {α : Type*}

/-! ### Prefixes by position and element -/

/-- The longest prefix of a list all of whose elements satisfy `keep`, which
sees the position (counted from the given index) and the element. -/
def takeIdxWhile (keep : Nat → α → Bool) : Nat → List α → List α
  | _, [] => []
  | i, x :: xs => if keep i x then x :: takeIdxWhile keep (i + 1) xs else []

@[simp] theorem takeIdxWhile_nil (keep : Nat → α → Bool) (i : Nat) :
    takeIdxWhile keep i [] = [] := rfl

variable {keep keep' : Nat → α → Bool} {i n : Nat} {x : α} {xs ys : List α} {p : α → Bool}
  {r : α → α → Prop}

theorem takeIdxWhile_cons_of_pos (h : keep i x = true) :
    takeIdxWhile keep i (x :: xs) = x :: takeIdxWhile keep (i + 1) xs := by
  rw [takeIdxWhile, if_pos h]

theorem takeIdxWhile_cons_of_neg (h : keep i x = false) : takeIdxWhile keep i (x :: xs) = [] := by
  rw [takeIdxWhile, if_neg (by simp [h])]

/-- A prefix window is a prefix. -/
theorem takeIdxWhile_isPrefix (keep : Nat → α → Bool) (i : Nat) (xs : List α) :
    takeIdxWhile keep i xs <+: xs := by
  induction xs generalizing i with
  | nil => exact prefix_rfl
  | cons x xs ih =>
    cases hx : keep i x with
    | true =>
      rw [takeIdxWhile_cons_of_pos hx]
      exact (prefix_cons_inj x).mpr (ih (i + 1))
    | false =>
      rw [takeIdxWhile_cons_of_neg hx]
      exact nil_prefix

/-- Counting positions from `i + 1` is counting them from `i` with a shifted test. -/
theorem takeIdxWhile_succ (keep : Nat → α → Bool) (i : Nat) (xs : List α) :
    takeIdxWhile keep (i + 1) xs = takeIdxWhile (fun j => keep (j + 1)) i xs := by
  induction xs generalizing i with
  | nil => rfl
  | cons x xs ih => simp only [takeIdxWhile, ih]

/-- Only the test's values on the list's own elements, at their positions, matter. -/
theorem takeIdxWhile_congr (h : ∀ j x, xs[j]? = some x → keep (i + j) x = keep' (i + j) x) :
    takeIdxWhile keep i xs = takeIdxWhile keep' i xs := by
  induction xs generalizing i with
  | nil => rfl
  | cons x xs ih =>
    have hx : keep i x = keep' i x := h 0 x rfl
    have hxs := @ih (i + 1) fun j y hy => by
      have := h (j + 1) y (by simpa using hy)
      rwa [show i + (j + 1) = i + 1 + j by omega] at this
    simp only [takeIdxWhile, hx, hxs]

/-- Every element of a window passed the test. -/
theorem exists_keep_of_mem_takeIdxWhile (h : x ∈ takeIdxWhile keep i xs) :
    ∃ j, keep j x = true := by
  induction xs generalizing i with
  | nil => exact absurd h not_mem_nil
  | cons y ys ih =>
    cases hy : keep i y with
    | false =>
      rw [takeIdxWhile_cons_of_neg hy] at h
      exact absurd h not_mem_nil
    | true =>
      rw [takeIdxWhile_cons_of_pos hy] at h
      rcases mem_cons.mp h with rfl | h
      · exact ⟨i, hy⟩
      · exact ih h

/-- A window keeps the elements of an initial stretch that passes the test. -/
theorem take_isPrefix_takeIdxWhile (h : ∀ j x, j < n → xs[j]? = some x → keep (i + j) x = true) :
    xs.take n <+: takeIdxWhile keep i xs := by
  induction xs generalizing i n with
  | nil => simp
  | cons x xs ih =>
    cases n with
    | zero => exact nil_prefix
    | succ n =>
      have hx : keep i x = true := h 0 x (Nat.succ_pos n) rfl
      rw [takeIdxWhile_cons_of_pos hx]
      refine cons_prefix_cons.mpr ⟨rfl, @ih (i + 1) n fun j y hj hy => ?_⟩
      have := h (j + 1) y (Nat.succ_lt_succ hj) (by simpa using hy)
      rwa [show i + (j + 1) = i + 1 + j by omega] at this

/-- A prefix that reaches at least `n` elements far has the same first `n`
elements. -/
theorem take_eq_take_of_isPrefix (h : ys <+: xs) (hn : xs.take n <+: ys) :
    ys.take n = xs.take n := by
  obtain ⟨rest, rfl⟩ := h
  have hlen := hn.length_le
  rw [length_take, length_append] at hlen
  have hrest : rest.take (n - ys.length) = [] := by
    rw [take_eq_nil_iff, ← length_eq_zero_iff]
    omega
  rw [take_append, hrest, append_nil]

/-- A window that keeps every element is the whole list. -/
theorem takeIdxWhile_eq_self (h : ∀ j x, j < xs.length → x ∈ xs → keep (i + j) x = true) :
    takeIdxWhile keep i xs = xs := by
  induction xs generalizing i with
  | nil => rfl
  | cons x xs ih =>
    have hx : keep i x = true := h 0 x (by simp) mem_cons_self
    rw [takeIdxWhile_cons_of_pos hx]
    refine congrArg (x :: ·) (ih fun j y hj hy => ?_)
    have := h (j + 1) y (by simpa using hj) (mem_cons_of_mem x hy)
    rwa [show i + (j + 1) = i + 1 + j by omega] at this

/-- A test on the position alone cuts at a length. -/
theorem takeIdxWhile_lt (n i : Nat) (xs : List α) :
    takeIdxWhile (fun j _ => decide (j < n)) i xs = xs.take (n - i) := by
  induction xs generalizing i with
  | nil => simp
  | cons x xs ih =>
    by_cases hi : i < n
    · rw [takeIdxWhile_cons_of_pos (by simpa using hi), ih,
        show n - i = n - (i + 1) + 1 by omega, take_succ_cons]
    · rw [takeIdxWhile_cons_of_neg (by simpa using hi), show n - i = 0 by omega, take_zero]

/-- A test on the element alone is `takeWhile`. -/
theorem takeIdxWhile_const (p : α → Bool) (i : Nat) (xs : List α) :
    takeIdxWhile (fun _ => p) i xs = xs.takeWhile p := by
  induction xs generalizing i with
  | nil => rfl
  | cons x xs ih => simp only [takeIdxWhile, takeWhile_cons, ih]

/-- A test that accepts the first positions anyway. -/
theorem takeIdxWhile_lt_or (n : Nat) (p : α → Bool) (i : Nat) (xs : List α) :
    takeIdxWhile (fun j x => decide (j < n) || p x) i xs =
      xs.take (n - i) ++ (xs.drop (n - i)).takeWhile p := by
  induction xs generalizing i with
  | nil => simp
  | cons x xs ih =>
    by_cases hi : i < n
    · rw [takeIdxWhile_cons_of_pos (by simp [hi]), ih,
        show n - i = n - (i + 1) + 1 by omega, take_succ_cons, drop_succ_cons,
        cons_append]
    · rw [takeIdxWhile, ih, show n - i = 0 by omega, show n - (i + 1) = 0 by omega]
      simp [hi, takeWhile_cons]

/-- A test that only looks at an image of the elements. -/
theorem map_takeIdxWhile {β : Type*} {keep'} {f : α → β} (h : ∀ i x, keep i x = keep' i (f x))
    (i : Nat) (xs : List α) : (takeIdxWhile keep i xs).map f = takeIdxWhile keep' i (xs.map f) := by
  induction xs generalizing i with
  | nil => rfl
  | cons x xs ih =>
    cases hx : keep' i (f x) with
    | true =>
      rw [takeIdxWhile_cons_of_pos (by rw [h, hx]), map_cons, map_cons,
        takeIdxWhile_cons_of_pos hx, ih]
    | false =>
      rw [takeIdxWhile_cons_of_neg (by rw [h, hx]), map_nil, map_cons,
        takeIdxWhile_cons_of_neg hx]

/-- Putting a copy of `x` in front shows in the first `n` elements, unless they
are all copies of `x`. -/
theorem take_cons_eq_take_iff :
    (x :: xs).take n = xs.take n ↔ n ≤ xs.length ∧ ∀ y ∈ xs.take n, y = x := by
  induction n generalizing xs with
  | zero => simp
  | succ n ih =>
    cases xs with
    | nil => simp
    | cons y ys =>
      rw [take_succ_cons, take_succ_cons, cons_eq_cons]
      constructor
      · rintro ⟨rfl, h⟩
        obtain ⟨hlen, hall⟩ := ih.mp h
        exact ⟨by simpa using hlen, by simpa using hall⟩
      · rintro ⟨hlen, hall⟩
        obtain rfl := hall y mem_cons_self
        exact ⟨rfl, ih.mpr ⟨by simpa using hlen,
          fun z hz => hall z (mem_cons_of_mem _ hz)⟩⟩

/-- Where a property is lost once and for all along the list, the elements up to
that point are those that have it. -/
theorem takeWhile_eq_filter (h : xs.Pairwise fun x y => p y = true → p x = true) :
    xs.takeWhile p = xs.filter p := by
  induction xs with
  | nil => rfl
  | cons x xs ih =>
    obtain ⟨hx, hxs⟩ := pairwise_cons.mp h
    by_cases hpx : p x = true
    · rw [takeWhile_cons_of_pos hpx, filter_cons_of_pos hpx, ih hxs]
    · rw [takeWhile_cons_of_neg hpx, filter_cons_of_neg hpx]
      exact (filter_eq_nil_iff.mpr fun y hy hpy => hpx (hx y hy hpy)).symm

/-- The elements after that point are those that do not. -/
theorem dropWhile_eq_filter (h : xs.Pairwise fun x y => p y = true → p x = true) :
    xs.dropWhile p = xs.filter fun x => !p x := by
  induction xs with
  | nil => rfl
  | cons x xs ih =>
    obtain ⟨hx, hxs⟩ := pairwise_cons.mp h
    by_cases hpx : p x = true
    · rw [dropWhile_cons_of_pos hpx, filter_cons_of_neg (by simp [hpx]), ih hxs]
    · rw [dropWhile_cons_of_neg hpx]
      refine (filter_eq_self.mpr fun y hy => ?_).symm
      rcases mem_cons.mp hy with rfl | hy
      · simpa using hpx
      · exact Bool.not_eq_true' _ ▸ Bool.eq_false_iff.mpr fun hpy => hpx (hx y hy hpy)

/-- Where a property is lost once and for all along the list, the first `n`
elements have it exactly if all have it or at least `n` do. -/
theorem forall_mem_take_iff (h : xs.Pairwise fun x y => p y = true → p x = true) (n : Nat) :
    (∀ x ∈ xs.take n, p x = true) ↔ (∀ x ∈ xs, p x = true) ∨ n ≤ xs.countP p := by
  induction xs generalizing n with
  | nil => simp
  | cons x xs ih =>
    obtain ⟨hx, hxs⟩ := pairwise_cons.mp h
    cases n with
    | zero => simp
    | succ n =>
      rw [take_succ_cons, forall_mem_cons, ih hxs n]
      by_cases hpx : p x = true
      · simp [hpx]
      · have hnone : xs.countP p = 0 :=
          countP_eq_zero.mpr fun y hy hpy => hpx (hx y hy hpy)
        rw [countP_cons_of_neg hpx, hnone]
        simp [hpx]

/-! ### Windows of windows -/

/-- Cutting an earlier window gives the window of the whole list, provided the
earlier window keeps all that the cut wants. -/
theorem takeIdxWhile_takeIdxWhile {j} (h : ∀ d x, keep (i + d) x = true → keep' (j + d) x = true) :
    takeIdxWhile keep i (takeIdxWhile keep' j xs) = takeIdxWhile keep i xs := by
  induction xs generalizing i j with
  | nil => rfl
  | cons x xs ih =>
    cases hx : keep i x with
    | true =>
      have hx' : keep' j x = true := h 0 x hx
      rw [takeIdxWhile_cons_of_pos hx', takeIdxWhile_cons_of_pos hx,
        takeIdxWhile_cons_of_pos hx]
      refine congrArg (x :: ·) (ih fun d y hy => ?_)
      have := h (d + 1) y (by rwa [show i + (d + 1) = i + 1 + d by omega])
      rwa [show j + (d + 1) = j + 1 + d by omega] at this
    | false =>
      rw [takeIdxWhile_cons_of_neg hx]
      cases hx' : keep' j x with
      | true => rw [takeIdxWhile_cons_of_pos hx', takeIdxWhile_cons_of_neg hx]
      | false => rw [takeIdxWhile_cons_of_neg hx', takeIdxWhile_nil]

/-- The window after one more element was put in front of an earlier window. -/
theorem takeIdxWhile_cons_takeIdxWhile (h : ∀ d y, keep (d + 1) y = true → keep' d y = true) :
    takeIdxWhile keep 0 (x :: takeIdxWhile keep' 0 xs) = takeIdxWhile keep 0 (x :: xs) := by
  have hxs : takeIdxWhile keep 1 (takeIdxWhile keep' 0 xs) = takeIdxWhile keep 1 xs :=
    takeIdxWhile_takeIdxWhile fun d y hy => by
      rw [Nat.zero_add]
      exact h d y (by rwa [Nat.add_comm])
  simp only [takeIdxWhile, hxs]

/-- Cutting by two tests in turn is cutting by both. -/
theorem takeIdxWhile_and (keep keep' : Nat → α → Bool) (i : Nat) (xs : List α) :
    takeIdxWhile keep i (takeIdxWhile keep' i xs) =
      takeIdxWhile (fun j x => keep' j x && keep j x) i xs := by
  induction xs generalizing i with
  | nil => rfl
  | cons x xs ih =>
    cases hx' : keep' i x with
    | false =>
      rw [takeIdxWhile_cons_of_neg hx', takeIdxWhile_cons_of_neg (by simp [hx']),
        takeIdxWhile_nil]
    | true =>
      rw [takeIdxWhile_cons_of_pos hx']
      cases hx : keep i x with
      | false => rw [takeIdxWhile_cons_of_neg hx, takeIdxWhile_cons_of_neg (by simp [hx])]
      | true =>
        rw [takeIdxWhile_cons_of_pos hx, takeIdxWhile_cons_of_pos (by simp [hx, hx']), ih]

/-- `ys` is a window of `xs` that still holds all that `keep` wants of `xs`
once a further element stands in front of it. -/
def Covers (keep : Nat → α → Bool) (ys xs : List α) : Prop :=
  ∃ keep' : Nat → α → Bool, ys = takeIdxWhile keep' 0 xs ∧
    ∀ d x, keep (d + 1) x = true → keep' d x = true

theorem Covers.refl (keep : Nat → α → Bool) (xs : List α) : Covers keep xs xs :=
  ⟨fun _ _ => true, (takeIdxWhile_eq_self fun _ _ _ _ => rfl).symm, fun _ _ _ => rfl⟩

theorem Covers.isPrefix (h : Covers keep ys xs) : ys <+: xs := by
  obtain ⟨k, rfl, -⟩ := h
  exact takeIdxWhile_isPrefix k 0 xs

/-- What covers for a test covers for every stricter one. -/
theorem Covers.mono (h : Covers keep ys xs)
    (hle : ∀ d x, keep' (d + 1) x = true → keep (d + 1) x = true) : Covers keep' ys xs := by
  obtain ⟨k, hys, hk⟩ := h
  exact ⟨k, hys, fun d x hx => hk d x (hle d x hx)⟩

/-- A covering window is as good as the whole list below a new element. -/
theorem Covers.takeIdxWhile_cons (h : Covers keep ys xs) (x : α) :
    takeIdxWhile keep 0 (x :: ys) = takeIdxWhile keep 0 (x :: xs) := by
  obtain ⟨k, rfl, hk⟩ := h
  exact takeIdxWhile_cons_takeIdxWhile hk

/-- The window itself covers the list. -/
theorem covers_takeIdxWhile (h : ∀ d x, keep (d + 1) x = true → keep d x = true) :
    Covers keep (takeIdxWhile keep 0 xs) xs :=
  ⟨keep, rfl, h⟩

/-- So does the window of the list with an element in front, without that element. -/
theorem covers_takeIdxWhile_one (keep : Nat → α → Bool) (xs : List α) :
    Covers keep (takeIdxWhile keep 1 xs) xs :=
  ⟨fun j => keep (j + 1), takeIdxWhile_succ keep 0 xs, fun _ _ h => h⟩

/-- Of two tests, the one that passes less keeps less. -/
theorem takeIdxWhile_isPrefix_takeIdxWhile {j}
    (h : ∀ d x, x ∈ xs → keep (i + d) x = true → keep' (j + d) x = true) :
    takeIdxWhile keep i xs <+: takeIdxWhile keep' j xs := by
  induction xs generalizing i j with
  | nil => exact prefix_rfl
  | cons x xs ih =>
    cases hx : keep i x with
    | false =>
      rw [takeIdxWhile_cons_of_neg hx]
      exact nil_prefix
    | true =>
      have hx' : keep' j x = true := h 0 x mem_cons_self hx
      rw [takeIdxWhile_cons_of_pos hx, takeIdxWhile_cons_of_pos hx']
      refine (prefix_cons_inj x).mpr (ih fun d y hy hd => ?_)
      have := h (d + 1) y (mem_cons_of_mem x hy) (by rwa [show i + (d + 1) = i + 1 + d by omega])
      rwa [show j + (d + 1) = j + 1 + d by omega] at this

/-- A prefix that reaches as far as the window has the same window. -/
theorem takeIdxWhile_eq_of_isPrefix (hys : ys <+: xs) (h : takeIdxWhile keep i xs <+: ys) :
    takeIdxWhile keep i ys = takeIdxWhile keep i xs := by
  induction xs generalizing i ys with
  | nil => rw [prefix_nil.mp hys]
  | cons x xs ih =>
    cases hx : keep i x with
    | false =>
      rw [takeIdxWhile_cons_of_neg hx]
      cases ys with
      | nil => rfl
      | cons y ys =>
        obtain ⟨rfl, -⟩ := cons_prefix_cons.mp hys
        exact takeIdxWhile_cons_of_neg hx
    | true =>
      rw [takeIdxWhile_cons_of_pos hx] at h ⊢
      obtain ⟨ys, rfl, hsub⟩ := cons_prefix_iff.mp h
      obtain ⟨-, hys⟩ := cons_prefix_cons.mp hys
      rw [takeIdxWhile_cons_of_pos hx, ih hys hsub]

/-- A window goes on behind a stretch that passes the test. -/
theorem takeIdxWhile_append (h : ∀ j x, xs[j]? = some x → keep (i + j) x = true) (ys : List α) :
    takeIdxWhile keep i (xs ++ ys) = xs ++ takeIdxWhile keep (i + xs.length) ys := by
  induction xs generalizing i with
  | nil => rfl
  | cons x xs ih =>
    have hx : keep i x = true := h 0 x rfl
    rw [cons_append, takeIdxWhile_cons_of_pos hx, ih fun j y hy => ?_, length_cons,
      cons_append, show i + 1 + xs.length = i + (xs.length + 1) by omega]
    have := h (j + 1) y (by simpa using hy)
    rwa [show i + (j + 1) = i + 1 + j by omega] at this

/-! ### Popping the oldest elements -/

/-- The loop `while (size > 0 && drop(size, back)) { pop_back(); --size; }`,
started with the given size. -/
def popBackWhile (drop : Nat → α → Bool) : Nat → List α → List α
  | 0, xs => xs
  | size + 1, xs =>
    match xs.getLast? with
    | none => xs
    | some back => if drop (size + 1) back then popBackWhile drop size xs.dropLast else xs

/-- The loop decides by what a function on the elements keeps. -/
theorem popBackWhile_map {β : Type*} (g : α → β) {drop drop'} (h : ∀ n x, drop' n (g x) = drop n x)
    (n : Nat) (xs : List α) : popBackWhile drop' n (xs.map g) = (popBackWhile drop n xs).map g := by
  induction n generalizing xs with
  | zero => rfl
  | succ n ih =>
    rw [popBackWhile, popBackWhile, getLast?_map]
    cases xs.getLast? with
    | none => rfl
    | some back =>
      simp only [map_some, h]
      split
      case isTrue => rw [← ih, map_dropLast]
      case isFalse => rfl

/-- `keep` never turns from false to true along a list whose elements are
related by `r` to the later ones. -/
def KeepAntitone (r : α → α → Prop) (keep : Nat → α → Bool) : Prop :=
  ∀ i j x y, i ≤ j → r x y → keep j y = true → keep i x = true

/-- Dropping a last element that `keep` rejects does not change the window. -/
theorem takeIdxWhile_append_of_neg {z} (h : keep (i + xs.length) z = false) :
    takeIdxWhile keep i (xs ++ [z]) = takeIdxWhile keep i xs := by
  induction xs generalizing i with
  | nil => exact takeIdxWhile_cons_of_neg h
  | cons x xs ih =>
    have hz : keep (i + 1 + xs.length) z = false := by
      rwa [show i + 1 + xs.length = i + (xs.length + 1) by omega]
    simp only [cons_append, takeIdxWhile, ih hz]

/-- A window without its first element is the window of the rest. -/
theorem tail_takeIdxWhile (hkeep : KeepAntitone r keep) (hx : ∀ y ∈ xs, r x y) :
    (takeIdxWhile keep 0 (x :: xs)).tail = takeIdxWhile keep 1 xs := by
  cases h0 : keep 0 x with
  | true => rw [takeIdxWhile_cons_of_pos h0, tail_cons]
  | false =>
    rw [takeIdxWhile_cons_of_neg h0, tail_nil]
    cases xs with
    | nil => rfl
    | cons y ys =>
      have h1 : keep 1 y = false := by
        by_contra hy
        rw [Bool.not_eq_false] at hy
        rw [hkeep 0 1 x y (Nat.zero_le 1) (hx y mem_cons_self) hy] at h0
        exact Bool.noConfusion h0
      rw [takeIdxWhile_cons_of_neg h1]

/-- A prefix that reaches as far as the window below a new element covers the list. -/
theorem covers_of_isPrefix (hkeep : KeepAntitone r keep) (hxs : xs.Pairwise r) (hys : ys <+: xs)
    (h : takeIdxWhile keep 1 xs <+: ys) : Covers keep ys xs := by
  obtain ⟨rest, rfl⟩ := hys
  refine ⟨fun d x => decide (d < ys.length) || keep (d + 1) x, ?_, fun d x hx => by simp [hx]⟩
  have hkept : ∀ (j : Nat) (x : α), ys[j]? = some x →
      (decide (0 + j < ys.length) || keep (0 + j + 1) x) = true := by
    intro j x hx
    have hlt := (List.getElem?_eq_some_iff.mp hx).1
    simp [hlt]
  rw [takeIdxWhile_append hkept]
  cases rest with
  | nil => rw [takeIdxWhile_nil, append_nil]
  | cons z rest =>
    -- were the next element kept, so would be everything before it
    have hz : keep (ys.length + 1) z = false := by
      by_contra hz
      rw [Bool.not_eq_false] at hz
      have hzy := (pairwise_append.mp hxs).2.2
      have hall : ∀ (j : Nat) (x : α), ys[j]? = some x → keep (1 + j) x = true := by
        intro j x hx
        have hlt := (List.getElem?_eq_some_iff.mp hx).1
        exact hkeep (1 + j) (ys.length + 1) x z (by omega)
          (hzy x (mem_of_getElem? hx) z mem_cons_self) hz
      rw [takeIdxWhile_append hall, Nat.add_comm, takeIdxWhile_cons_of_pos hz] at h
      have hlen := h.length_le
      rw [length_append, length_cons] at hlen
      omega
    rw [takeIdxWhile_cons_of_neg (by simp [hz]), append_nil]

/-- A window loses nothing of what always passes its test. -/
theorem filter_takeIdxWhile (hkeep : KeepAntitone r keep) {q}
    (hq : ∀ j x, q x = true → keep j x = true) (h : xs.Pairwise r) :
    (takeIdxWhile keep i xs).filter q = xs.filter q := by
  induction xs generalizing i with
  | nil => rfl
  | cons x xs ih =>
    obtain ⟨hx, hxs⟩ := pairwise_cons.mp h
    cases hi : keep i x with
    | true => rw [takeIdxWhile_cons_of_pos hi, filter_cons, filter_cons, ih hxs]
    | false =>
      have hnone : ∀ y ∈ x :: xs, ¬ q y = true := by
        intro y hy hqy
        rcases mem_cons.mp hy with rfl | hy
        · exact Bool.false_ne_true (hi.symm.trans (hq i y hqy))
        · have := hkeep i i x y (Nat.le_refl i) (hx y hy) (hq i y hqy)
          exact Bool.false_ne_true (hi.symm.trans this)
      rw [takeIdxWhile_cons_of_neg hi, filter_nil, filter_eq_nil_iff.mpr hnone]

/-- Popping the rejected elements from the back gives the prefix window: the
loop's test on `n + 1` elements looks at the one at position `n`. -/
theorem popBackWhile_eq_takeIdxWhile {drop} (hr : ∀ x, r x x) (hkeep : KeepAntitone r keep)
    (hdrop : ∀ n x, drop (n + 1) x = !keep n x) (hxs : xs.Pairwise r) :
    popBackWhile drop xs.length xs = takeIdxWhile keep 0 xs := by
  induction xs using List.reverseRecOn with
  | nil => rfl
  | append_singleton xs z ih =>
    rw [pairwise_append] at hxs
    obtain ⟨hpre, -, hz⟩ := hxs
    rw [length_append, length_singleton, popBackWhile, getLast?_concat]
    dsimp only
    rw [dropLast_concat, hdrop]
    cases hk : keep xs.length z with
    | true =>
      -- The oldest element stays, so by antitonicity all of them do.
      rw [if_neg (by simp)]
      refine (takeIdxWhile_eq_self fun j x hj hx => ?_).symm
      have hj' : j ≤ xs.length := by
        rw [length_append, length_singleton] at hj
        omega
      have hxz : r x z := by
        rcases mem_append.mp hx with hx | hx
        · exact hz x hx z (mem_singleton_self z)
        · obtain rfl : x = z := mem_singleton.mp hx
          exact hr x
      rw [Nat.zero_add]
      exact hkeep j xs.length x z hj' hxz hk
    | false =>
      rw [ih hpre]
      exact (takeIdxWhile_append_of_neg (by simpa using hk)).symm

end HybridSE.Lib
