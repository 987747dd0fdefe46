import Mathlib.Algebra.BigOperators.Group.List.Basic
import HybridSE.Lib.SortedMap

/-!
# HybridSE.Udf.CategoryAggregates

The dictionaries of `count_cate`, `sum_cate`, `min_cate` and `max_cate`, of their `_where` forms and
of `top_n_key_.._cate_where` (`src/udf/default_defs/*_by_category_def.cc`).

The families differ in what a value does to the entry of its key (`CateFn`) and share the updates.
With a bound the least key goes as soon as there is one too many. A key that comes back after that
goes again at once, so the entries that stay have seen all their rows.
-/

namespace HybridSE.Udf

open HybridSE.Lib List

variable {κ ν σ : Type}

/-- A row of the UDAF's arguments. -/
structure CateRow (κ ν : Type) where
  value : Option ν
  cond : Option Bool
  key : Option κ

/-- Key and value of a row that counts. -/
def CateRow.entry (row : CateRow κ ν) : Option (κ × ν) :=
  match row.cond, row.key, row.value with
  | some true, some key, some value => some (key, value)
  | _, _, _ => none

/-- What a family does with a value: the entry of a new key, and the change of an old one. -/
structure CateFn (ν σ : Type) where
  first : ν → σ
  next : σ → ν → σ

/-- `CountCateDef`. -/
def countCate : CateFn ν Nat := ⟨fun _ => 1, fun single _ => single + 1⟩

/-- `SumCateDef`. -/
def sumCate [Add ν] : CateFn ν ν := ⟨id, fun single value => single + value⟩

/-- `MinCateDef`. -/
def minCate [LT ν] [DecidableLT ν] : CateFn ν ν :=
  ⟨id, fun single value => if single > value then value else single⟩

/-- `MaxCateDef`. -/
def maxCate [LT ν] [DecidableLT ν] : CateFn ν ν :=
  ⟨id, fun single value => if single < value then value else single⟩

/-- Drops the least key if there is one too many. -/
def trimKeys {α : Type} (bound : Int) (map : List α) : List α :=
  if 0 ≤ bound ∧ bound.toNat < map.length then map.tail else map

namespace CateFn

/-- The entry of a key after a value. -/
def put (fn : CateFn ν σ) (value : ν) : Option σ → σ
  | none => fn.first value
  | some single => fn.next single value

variable [LinearOrder κ]

/-- `Impl::Update` of a family. -/
def update (fn : CateFn ν σ) (map : List (κ × σ)) (value : Option ν) (key : Option κ) :
    List (κ × σ) :=
  match key, value with
  | some key, some value => upsert (fn.put value) key map
  | _, _ => map

/-- `Impl::Update` of the `_where` form. -/
def updateWhere (fn : CateFn ν σ) (map : List (κ × σ)) (row : CateRow κ ν) : List (κ × σ) :=
  if row.cond = some true then fn.update map row.value row.key else map

/-- `Impl::Update` of the form with a bound. -/
def updateTopK (fn : CateFn ν σ) (bound : Int) (map : List (κ × σ)) (row : CateRow κ ν) :
    List (κ × σ) :=
  if row.cond = some true then trimKeys bound (fn.update map row.value row.key) else map

end CateFn

/-- The keys that a bound leaves; a negative bound leaves all. -/
def keysKept (bound : Int) (keys : List κ) : List κ :=
  if 0 ≤ bound then top bound.toNat keys else keys

variable [LinearOrder κ]

/-- The values of a category, in the order of the rows. -/
def valuesOf (entries : List (κ × ν)) (key : κ) : List ν :=
  (entries.filter fun e => e.1 = key).map Prod.snd

/-- The dictionary that is meant, over the keys of the rows that count. -/
def dictionary (agg : List ν → Option σ) (bound : Int) (keys : List κ) (entries : List (κ × ν)) :
    List (κ × Option σ) :=
  (keysKept bound keys).map fun key => (key, agg (valuesOf entries key))

/-- A family computes `agg`: every key that is kept has the value of all its rows. -/
structure CateExact (κ : Type) [LinearOrder κ] (fn : CateFn ν σ) (agg : List ν → Option σ) :
    Prop where
  all : ∀ rows : List (CateRow κ ν),
    (rows.foldl fn.updateWhere []).map (fun e => (e.1, some e.2)) =
      let entries := rows.filterMap CateRow.entry
      dictionary agg (-1) (entries.map Prod.fst).toFinset.sort entries
  topK : ∀ (bound : Int) (rows : List (CateRow κ ν)),
    (rows.foldl (fn.updateTopK bound) []).map (fun e => (e.1, some e.2)) =
      let entries := rows.filterMap CateRow.entry
      dictionary agg bound (entries.map Prod.fst).toFinset.sort entries

/-! ### One row -/

theorem valuesOf_concat (entries : List (κ × ν)) (e : κ × ν) (key : κ) :
    valuesOf (entries ++ [e]) key =
      if key = e.1 then valuesOf entries key ++ [e.2] else valuesOf entries key := by
  unfold valuesOf
  by_cases h : key = e.1
  · simp [h]
  · simp [h, Ne.symm h]

section Row

variable {fn : CateFn ν σ} {row : CateRow κ ν} {map : List (κ × σ)} {bound : Int}

/-- A change of one entry of the keys that are kept. -/
theorem trimKeys_upsert {f} {g g' : κ → σ} {k keys} (h : keys.Pairwise (· < ·))
    (hk : g' k = f (if k ∈ keys then some (g k) else none)) (hother : ∀ j ≠ k, g' j = g j) :
    trimKeys bound (upsert f k ((keysKept bound keys).map fun j => (j, g j))) =
      (keysKept bound (insertKey k keys)).map fun j => (j, g' j) := by
  by_cases hbound : 0 ≤ bound
  · simpa [trimKeys, keysKept, hbound, trim] using trim_upsert_top h hk hother bound.toNat
  · simpa [trimKeys, keysKept, hbound] using upsert_map h hk hother

/-- A row that does not count leaves the dictionary as it is. -/
theorem updateTopK_of_skip (hrow : row.entry = none) (hlen : 0 ≤ bound → map.length ≤ bound.toNat) :
    fn.updateTopK bound map row = map := by
  by_cases hcond : row.cond = some true
  · have hsame : fn.update map row.value row.key = map := by
      cases hkey : row.key <;> cases hvalue : row.value <;>
        simp_all [CateRow.entry, CateFn.update]
    rw [CateFn.updateTopK, if_pos hcond, hsame]
    exact if_neg fun h => absurd (hlen h.1) (Nat.not_le.mpr h.2)
  · exact if_neg hcond

theorem updateTopK_of_entry {e} (hrow : row.entry = some e) :
    fn.updateTopK bound map row = trimKeys bound (upsert (fn.put e.2) e.1 map) := by
  obtain ⟨value, cond, key⟩ := row
  cases value <;> cases key <;> rcases cond with _ | _ | _ <;> simp [CateRow.entry] at hrow
  subst hrow
  rfl

/-- One more row that counts, for a value that is computed row by row. -/
theorem dictionary_concat {agg : List ν → Option σ} (hnil : agg [] = none)
    (hagg : ∀ vals value, agg (vals ++ [value]) = some (fn.put value (agg vals)))
    (entries : List (κ × ν)) (e : κ × ν) :
    dictionary agg bound ((entries ++ [e]).map Prod.fst).toFinset.sort (entries ++ [e]) =
      trimKeys bound (upsert (fun v => some (fn.put e.2 v.join)) e.1
        (dictionary agg bound (entries.map Prod.fst).toFinset.sort entries)) := by
  unfold dictionary
  rw [map_append, map_singleton, sort_toFinset_concat]
  refine (trimKeys_upsert (Finset.sortedLT_sort _).pairwise ?_ fun key hne => ?_).symm
  · rw [valuesOf_concat, if_pos rfl, hagg]
    by_cases hmem : e.1 ∈ entries.map Prod.fst
    · simp [hmem]
    · have hvals : valuesOf entries e.1 = [] := by
        simpa [valuesOf] using fun k v hkv hk => hmem (mem_map.mpr ⟨(k, v), hkv, hk⟩)
      simp [hmem, hvals, hnil]
  · rw [valuesOf_concat, if_neg hne]

end Row

/-- A family is exact for a value that its changes compute row by row. -/
theorem cateExact_of_concat {fn : CateFn ν σ} {agg : List ν → Option σ} (hnil : agg [] = none)
    (hagg : ∀ vals value, agg (vals ++ [value]) = some (fn.put value (agg vals))) :
    CateExact κ fn agg := by
  have htopK : ∀ (bound : Int) (rows : List (CateRow κ ν)),
      (rows.foldl (fn.updateTopK bound) []).map (fun e => (e.1, some e.2)) =
        let entries := rows.filterMap CateRow.entry
        dictionary agg bound (entries.map Prod.fst).toFinset.sort entries := by
    intro bound rows
    induction rows using List.reverseRecOn with
    | nil => simp [dictionary, keysKept, top]
    | append_singleton rows row ih =>
      rw [foldl_append, foldl_cons, foldl_nil]
      generalize rows.foldl (fn.updateTopK bound) [] = map at ih
      cases hrow : row.entry with
      | none =>
        have hlen : 0 ≤ bound → map.length ≤ bound.toNat := by
          intro hbound
          have := congrArg List.length ih
          simp only [dictionary, keysKept, hbound, if_true, length_map, length_top] at this
          omega
        simp [updateTopK_of_skip hrow hlen, ih, hrow]
      | some e =>
        have hmap := @map_upsert κ _ _ _ some (fn.put e.2) (fun v => some (fn.put e.2 v.join))
          (fun v => by cases v <;> rfl) e.1 map
        rw [updateTopK_of_entry hrow, filterMap_append, filterMap_cons_some hrow, filterMap_nil,
          dictionary_concat hnil hagg, ← ih, ← hmap, trimKeys, trimKeys, length_map]
        split
        · exact map_tail
        · rfl
  refine ⟨fun rows => ?_, htopK⟩
  rw [← htopK]
  refine congrArg (fun update => (rows.foldl update []).map _) (funext₂ fun map row => ?_)
  simp [CateFn.updateWhere, CateFn.updateTopK, trimKeys]

/-- **The dictionaries are exact**, for every order of the rows, any NULLs and any bound: `count`
maps the keys that are kept to the number of their values, `sum` to the sum, `min` and `max` to
the least and the greatest one. -/
theorem categoryAggregates_exact (κ ν : Type) [LinearOrder κ] [LinearOrder ν] [AddMonoid ν] :
    CateExact κ (countCate : CateFn ν Nat)
        (fun vals => if vals = [] then none else some vals.length) ∧
      CateExact κ (sumCate : CateFn ν ν) (fun vals => if vals = [] then none else some vals.sum) ∧
      CateExact κ (minCate : CateFn ν ν) List.min? ∧
      CateExact κ (maxCate : CateFn ν ν) List.max? := by
  refine ⟨cateExact_of_concat rfl ?_, cateExact_of_concat rfl ?_, cateExact_of_concat rfl ?_,
    cateExact_of_concat rfl ?_⟩ <;> intro vals value
  · cases vals <;> simp [countCate, CateFn.put]
  · cases vals <;> simp [sumCate, CateFn.put, add_assoc]
  · cases vals <;> simp [minCate, CateFn.put, min?_cons', min_def, ← not_le, -min?_cons]
  · cases vals <;> simp [maxCate, CateFn.put, max?_cons', max_def_lt, -max?_cons]

end HybridSE.Udf
