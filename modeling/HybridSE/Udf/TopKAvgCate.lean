import HybridSE.Udf.CategoryAggregates

/-!
# HybridSE.Udf.TopKAvgCate

Model of `AvgCateDef` and `TopKAvgCateWhereDef` of `src/udf/default_defs/avg_by_category_def.cc`.

`top_n_key_avg_cate_where` keeps counts and sums of the categories with the greatest keys while it
scans the rows, and drops the least key when there is one too many. A key that was dropped may come
again, with a fresh count; then it is dropped again at once, so the dictionary is right for every
order of the rows (`topKAvgCate_exact`).
-/

namespace HybridSE.Udf

open HybridSE.Lib List

variable {κ ν : Type}

/-- The value of an entry with one more row. -/
def addToCate (add : ν → ν → ν) (value : ν) : Option (Nat × ν) → Nat × ν
  | none => (1, value)
  | some (cnt, sum) => (cnt + 1, add sum value)

section Model

variable [LinearOrder κ]

/-- `AvgCateDef::Impl::Update`. -/
def avgCateUpdate (add : ν → ν → ν) (map : List (κ × Nat × ν)) (value : Option ν)
    (key : Option κ) : List (κ × Nat × ν) :=
  match key, value with
  | some key, some value => upsert (addToCate add value) key map
  | _, _ => map

/-- `TopKAvgCateWhereDef::Impl::Update`. -/
def topKAvgCateUpdate (add : ν → ν → ν) (bound : Int) (map : List (κ × Nat × ν))
    (row : CateRow κ ν) : List (κ × Nat × ν) :=
  if row.cond = some true then
    let map := avgCateUpdate add map row.value row.key
    if 0 ≤ bound ∧ bound.toNat < map.length then map.tail else map
  else map

end Model

variable [LinearOrder κ]

/-- Count and sum of a category. -/
def category (add : ν → ν → ν) : List ν → Option (Nat × ν)
  | [] => none
  | value :: vals => some (vals.length + 1, vals.foldl add value)

/-- The dictionary that is meant: the greatest keys with their categories. -/
def topCategories (add : ν → ν → ν) (bound : Nat) (entries : List (κ × ν)) :
    List (κ × Option (Nat × ν)) :=
  (top bound (entries.map Prod.fst).toFinset.sort).map fun key =>
    (key, category add (valuesOf entries key))

theorem category_concat (add : ν → ν → ν) (vals : List ν) (value : ν) :
    category add (vals ++ [value]) = some (addToCate add value (category add vals)) := by
  cases vals with
  | nil => rfl
  | cons v vals => simp [category, addToCate]

/-- The family of counts with sums. -/
def avgCate (add : ν → ν → ν) : CateFn ν (Nat × ν) where
  first value := addToCate add value none
  next single value := addToCate add value (some single)

theorem topKAvgCateUpdate_eq (add : ν → ν → ν) (bound : Int) :
    @topKAvgCateUpdate κ ν _ add bound = (avgCate add).updateTopK bound := by
  have hput : ∀ value, (avgCate add).put value = addToCate add value := by
    intro value
    funext single
    cases single <;> rfl
  have hupdate : ∀ (map : List (κ × Nat × ν)) value key,
      avgCateUpdate add map value key = (avgCate add).update map value key := by
    intro map value key
    cases value <;> cases key <;> simp [avgCateUpdate, CateFn.update, hput]
  funext map row
  simp only [topKAvgCateUpdate, CateFn.updateTopK, hupdate, trimKeys]

/-- **The dictionary is exact**: the greatest keys of the rows that count, each with the count and
the sum of all its rows. -/
theorem topKAvgCate_exact (add : ν → ν → ν) (bound : Nat) (rows : List (CateRow κ ν)) :
    (rows.foldl (topKAvgCateUpdate add bound) []).map (fun e => (e.1, some e.2)) =
      topCategories add bound (rows.filterMap CateRow.entry) := by
  have hexact : CateExact κ (avgCate add) (category add) :=
    cateExact_of_concat rfl fun vals value => by
      rw [category_concat]
      cases category add vals <;> rfl
  rw [topKAvgCateUpdate_eq, hexact.topK]
  simp [dictionary, keysKept, topCategories]

end HybridSE.Udf
