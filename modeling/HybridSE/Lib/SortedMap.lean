import Mathlib.Data.Finset.Sort

/-!
# HybridSE.Lib.SortedMap

Ordered maps as lists of entries in the order of their keys, and the last entries of a sorted list.

`upsert` inserts an entry or changes the one that is there; on the entries of a function over a
sorted list of keys it gives the entries of the changed function (`upsert_map`). `top n` are the
`n` greatest elements of a sorted list. Inserting into them and dropping the least one if there
are too many gives the `n` greatest of the longer list (`top_orderedInsert`, `top_insertKey`), so
an element that was dropped is never missed.
-/

namespace HybridSE.Lib

open List

variable {κ β : Type*} [LinearOrder κ]

/-- Insert an entry with the value `f none`, or change the value `v` of the key to `f v`. -/
def upsert (f : Option β → β) (k : κ) : List (κ × β) → List (κ × β)
  | [] => [(k, f none)]
  | (x, v) :: m =>
    if k < x then (k, f none) :: (x, v) :: m
    else if k = x then (x, f (some v)) :: m
    else (x, v) :: upsert f k m

/-- The values may be changed before or after. -/
theorem map_upsert {γ : Type*} (h : β → γ) {f f'} (hf : ∀ v, h (f v) = f' (v.map h)) (k : κ)
    (m : List (κ × β)) :
    (upsert f k m).map (fun e => (e.1, h e.2)) = upsert f' k (m.map fun e => (e.1, h e.2)) := by
  induction m with
  | nil => simp [upsert, hf]
  | cons x m ih =>
    rw [map_cons, upsert, upsert]
    split
    · simp [hf]
    split
    · simp [hf]
    · rw [map_cons, ih]

/-- Add a key to a sorted list of keys. -/
def insertKey (k : κ) (keys : List κ) : List κ :=
  if k ∈ keys then keys else keys.orderedInsert (· ≤ ·) k

section Keys

variable {k : κ} {keys : List κ}

theorem mem_insertKey {j} : j ∈ insertKey k keys ↔ j = k ∨ j ∈ keys := by
  unfold insertKey
  split
  · rename_i hmem
    exact ⟨Or.inr, fun h => h.elim (fun hj => hj ▸ hmem) id⟩
  · exact mem_orderedInsert _

theorem pairwise_insertKey (h : keys.Pairwise (· < ·)) : (insertKey k keys).Pairwise (· < ·) := by
  unfold insertKey
  split
  · exact h
  · rename_i hmem
    have hle := (h.imp le_of_lt).orderedInsert k _
    have hnodup : (keys.orderedInsert (· ≤ ·) k).Nodup :=
      (perm_orderedInsert _ k keys).nodup_iff.mpr (nodup_cons.mpr ⟨hmem, h.imp ne_of_lt⟩)
    exact (hle.and hnodup).imp fun h => lt_of_le_of_ne h.1 h.2

/-- The sorted keys of a list that grows at its end. -/
theorem sort_toFinset_concat (xs : List κ) (k : κ) :
    (xs ++ [k]).toFinset.sort = insertKey k xs.toFinset.sort := by
  refine (Finset.sortedLT_sort _).pairwise.eq_of_mem_iff
    (pairwise_insertKey (Finset.sortedLT_sort _).pairwise) fun j => ?_
  simp [mem_insertKey]

theorem upsert_map {f} {g g' : κ → β} (h : keys.Pairwise (· < ·))
    (hk : g' k = f (if k ∈ keys then some (g k) else none)) (hother : ∀ j ≠ k, g' j = g j) :
    upsert f k (keys.map fun j => (j, g j)) = (insertKey k keys).map fun j => (j, g' j) := by
  induction keys with
  | nil => simp [upsert, insertKey, hk]
  | cons x keys ih =>
    obtain ⟨hx, hkeys⟩ := pairwise_cons.mp h
    rw [map_cons, upsert]
    rcases lt_trichotomy k x with hlt | rfl | hlt
    · have hnot : k ∉ x :: keys := by
        rintro (_ | ⟨_, hmem⟩)
        · exact lt_irrefl _ hlt
        · exact lt_asymm hlt (hx k hmem)
      have hmap : ((x :: keys).map fun j => (j, g j)) = (x :: keys).map fun j => (j, g' j) :=
        map_congr_left fun j hj => by rw [hother j fun hjk => hnot (hjk ▸ hj)]
      simp [insertKey, orderedInsert_cons_of_le _ _ hlt.le, map_cons, ← hmap, hk, hlt, hnot]
    · have hnot : k ∉ keys := fun hmem => lt_irrefl _ (hx k hmem)
      rw [if_neg (lt_irrefl _), if_pos rfl, insertKey, if_pos mem_cons_self, map_cons, hk,
        if_pos mem_cons_self]
      exact congrArg _ (map_congr_left fun j hj => by rw [hother j fun hjk => hnot (hjk ▸ hj)])
    · have hmem : k ∈ x :: keys ↔ k ∈ keys := by simp [hlt.ne']
      simp only [hmem] at hk
      have hinsert : insertKey k (x :: keys) = x :: insertKey k keys := by
        unfold insertKey
        simp only [hmem]
        split
        · rfl
        · exact orderedInsert_of_not_le _ _ hlt.not_ge
      rw [if_neg hlt.not_gt, if_neg hlt.ne', ih hkeys hk, hinsert, map_cons, hother x hlt.ne]

end Keys

/-! ### The greatest elements -/

/-- The last `n` elements. -/
def top {α : Type*} (n : Nat) (l : List α) : List α := l.drop (l.length - n)

/-- Drop the first element if there are too many. -/
def trim {α : Type*} (n : Nat) (l : List α) : List α := if n < l.length then l.tail else l

theorem length_top {α : Type*} (n : Nat) (l : List α) : (top n l).length = min n l.length := by
  unfold top
  rw [length_drop]
  omega

theorem drop_orderedInsert {l : List κ} (h : l.Pairwise (· ≤ ·)) (x : κ) (n : Nat) :
    (l.orderedInsert (· ≤ ·) x).drop (n + 1) = ((l.drop n).orderedInsert (· ≤ ·) x).tail := by
  induction l generalizing n with
  | nil => simp
  | cons a l ih =>
    obtain ⟨ha, hl⟩ := pairwise_cons.mp h
    cases n with
    | zero => simp
    | succ n =>
      rw [drop_succ_cons]
      by_cases hxa : x ≤ a
      · -- the element is before all that are left
        rw [orderedInsert_cons_of_le _ _ hxa, drop_succ_cons, drop_succ_cons]
        cases hd : l.drop n with
        | nil => rfl
        | cons b rest =>
          have hb : b ∈ l := mem_of_mem_drop (hd ▸ mem_cons_self)
          rw [orderedInsert_cons_of_le _ _ (hxa.trans (ha b hb))]
          rfl
      · rw [orderedInsert_of_not_le _ _ hxa, drop_succ_cons, ih hl]

theorem top_orderedInsert {l : List κ} (h : l.Pairwise (· ≤ ·)) (x : κ) (n : Nat) :
    top n (l.orderedInsert (· ≤ ·) x) = trim n ((top n l).orderedInsert (· ≤ ·) x) := by
  have hlen := length_top n l
  unfold trim
  rw [orderedInsert_length, hlen]
  unfold top
  rw [orderedInsert_length]
  by_cases hn : n ≤ l.length
  · rw [if_pos (by omega), Nat.succ_sub hn, drop_orderedInsert h]
  · rw [if_neg (by omega), Nat.sub_eq_zero_of_le (by omega), Nat.sub_eq_zero_of_le (by omega),
      drop_zero, drop_zero]

theorem top_insertKey {keys} (h : keys.Pairwise (· < ·)) (k : κ) (n : Nat) :
    top n (insertKey k keys) = trim n (insertKey k (top n keys)) := by
  by_cases hmem : k ∈ keys
  · rw [insertKey, if_pos hmem]
    by_cases htop : k ∈ top n keys
    · have := length_top n keys
      rw [insertKey, if_pos htop, trim, if_neg (by omega)]
    · -- it has been dropped before, and is dropped again
      have hlt : ∀ j ∈ top n keys, k < j := by
        rw [← take_append_drop (keys.length - n) keys] at hmem h
        have hk := (mem_append.mp hmem).resolve_right htop
        exact fun j hj => (pairwise_append.mp h).2.2 k hk j hj
      have hfull : n ≤ keys.length := by
        by_contra hlt
        exact htop (by rwa [top, Nat.sub_eq_zero_of_le (by omega), drop_zero])
      have hlen := length_top n keys
      have hinsert : (top n keys).orderedInsert (· ≤ ·) k = k :: top n keys := by
        cases htop : top n keys with
        | nil => rfl
        | cons j rest => exact orderedInsert_cons_of_le _ _ (hlt j (htop ▸ mem_cons_self)).le
      rw [insertKey, if_neg htop, hinsert, trim, if_pos (by simp; omega)]
      rfl
  · have htop : k ∉ top n keys := fun hk => hmem (mem_of_mem_drop hk)
    rw [insertKey, if_neg hmem, insertKey, if_neg htop, top_orderedInsert (h.imp le_of_lt)]

theorem map_trim {α γ : Type*} (n : Nat) (f : α → γ) (l : List α) :
    (trim n l).map f = trim n (l.map f) := by
  unfold trim
  rw [length_map]
  split
  · exact map_tail
  · rfl

/-- An update of the entries of the greatest keys, with the least one dropped if there are too
many: the entries of the greatest keys of the longer list. -/
theorem trim_upsert_top {f} {g g' : κ → β} {k keys} (h : keys.Pairwise (· < ·))
    (hk : g' k = f (if k ∈ keys then some (g k) else none)) (hother : ∀ j ≠ k, g' j = g j)
    (n : Nat) :
    trim n (upsert f k ((top n keys).map fun j => (j, g j))) =
      (top n (insertKey k keys)).map fun j => (j, g' j) := by
  -- a key that was dropped starts anew
  let g'' : κ → β := fun j => if j = k then f (if k ∈ top n keys then some (g k) else none) else g j
  have hupsert : upsert f k ((top n keys).map fun j => (j, g j)) =
      (insertKey k (top n keys)).map fun j => (j, g'' j) :=
    upsert_map (h.sublist (drop_sublist _ _)) (if_pos rfl) fun j hj => if_neg hj
  rw [hupsert, ← map_trim, ← top_insertKey h]
  refine map_congr_left fun j hj => ?_
  by_cases hjk : j = k
  · subst hjk
    have hiff : j ∈ top n keys ↔ j ∈ keys := by
      refine ⟨mem_of_mem_drop, fun hmem => ?_⟩
      rwa [insertKey, if_pos hmem] at hj
    simp [hk, show g'' j = _ from if_pos rfl, hiff]
  · rw [hother j hjk, show g'' j = _ from if_neg hjk]

end HybridSE.Lib
