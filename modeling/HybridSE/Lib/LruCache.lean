import Mathlib.Logic.Function.Basic

/-!
# HybridSE.Lib.LruCache

A cache of bounded size, as its users see it.

`Cache` has the operations, and `Cache.Lawful` says what a look-up finds after each of them. When
an insertion evicts entries, and which ones, is left open, and so is what an insertion does with a
key that is there already: it may keep the old value or take the new one. `mapCache` is a cache
that never evicts.
-/

namespace HybridSE.Lib

universe u v

/-- A cache: the empty one, a look-up, which may move entries, and an insertion. -/
structure Cache (κ : Type v) (ν : Type u) where
  Store : Type (max u v)
  new : Store
  get : Store → κ → Option ν × Store
  insert : Store → κ → ν → Store

namespace Cache

variable {κ : Type v} {ν : Type u}

/-- The value that a look-up of the key finds. -/
def find (cache : Cache κ ν) (c : cache.Store) (key : κ) : Option ν := (cache.get c key).1

/-- What a look-up finds after each operation. -/
structure Lawful (cache : Cache κ ν) : Prop where
  /-- A new cache is empty. -/
  find_new : ∀ key, cache.find cache.new key = none
  /-- A look-up does not change what the cache holds. -/
  find_get : ∀ c key key', cache.find (cache.get c key).2 key' = cache.find c key'
  /-- Nothing is found that has not been inserted. -/
  find_insert : ∀ c key value key' value', cache.find (cache.insert c key value) key' = some value' →
    cache.find c key' = some value' ∨ key' = key ∧ value' = value
  /-- A new entry is found. -/
  find_insert_self : ∀ c key value, cache.find c key = none →
    cache.find (cache.insert c key value) key = some value

end Cache

section MapCache

variable {κ : Type v} {ν : Type u} [DecidableEq κ]

/-- Inserts into a map; an entry that is there stays. -/
def insertNew (c : κ → Option ν) (key : κ) (value : ν) : κ → Option ν :=
  if (c key).isSome then c else Function.update c key (some value)

theorem insertNew_self {c : κ → Option ν} {key : κ} {value : ν} (h : c key = none) :
    insertNew c key value key = some value := by
  rw [insertNew, h, if_neg (by simp), Function.update_self]

theorem of_insertNew {c : κ → Option ν} {key key' : κ} {value value' : ν}
    (h : insertNew c key value key' = some value') :
    c key' = some value' ∨ key' = key ∧ value' = value := by
  unfold insertNew at h
  split at h
  · exact .inl h
  · by_cases hkey : key' = key
    · subst hkey
      rw [Function.update_self] at h
      exact .inr ⟨rfl, (Option.some.inj h).symm⟩
    · rw [Function.update_of_ne hkey] at h
      exact .inl h

variable (κ ν)

/-- A cache without a bound. -/
def mapCache : Cache κ ν where
  Store := κ → Option ν
  new := fun _ => none
  get c key := (c key, c)
  insert := insertNew

theorem mapCache_lawful : (mapCache κ ν).Lawful where
  find_new _ := rfl
  find_get _ _ _ := rfl
  find_insert _ _ _ _ _ h := of_insertNew h
  find_insert_self _ _ _ h := insertNew_self h

end MapCache

end HybridSE.Lib
