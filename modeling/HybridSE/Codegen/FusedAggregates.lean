import HybridSE.Codegen.AggregateBuilder
import Mathlib.Data.List.Induction
import Mathlib.Data.List.Nodup
import Mathlib.Data.List.Pairwise

/-!
# HybridSE.Codegen.FusedAggregates

The fused loop of `BuildMulti` against the aggregate definitions.

Every column has its own sum, minimum and maximum (`foldl_updateColumn`), but the
columns of a generator share one counter, and it counts the values of the first
column that needs it (`foldl_genUpdate_count`). So a count or an average is right
exactly when its column has as many values as that first column, and a minimum or
maximum is NULL when that first column is empty (`fused_eq_udaf_iff`).
-/

namespace HybridSE.Codegen

open HybridSE.Lib HybridSE.Udf List

/-- A column of the window. -/
def column (rows : List Row) (col : Column) : List (Option Int) := rows.map fun row => fetch row col

/-- Its values that are not NULL. -/
def values (rows : List Row) (col : Column) : List Int := (column rows col).reduceOption

/-- What the shared counter of some columns counts. -/
def sharedCount (infos : List AggColumnInfo) (rows : List Row) : Nat :=
  match infos.find? AggColumnInfo.counts with
  | none => 0
  | some leader => (values rows leader.col).length

/-! ### The accumulators -/

section Column

variable {t : IntType} {info : AggColumnInfo}

theorem foldl_genSumUpdate (inputs : List (Option Int)) :
    inputs.foldl (genSumUpdate t) 0 = t.wrap inputs.reduceOption.sum := by
  have hupdate : genSumUpdate t = (sumUdafDef t).update := by
    funext accum input
    cases input <;> rfl
  rw [hupdate, foldl_sum]

theorem foldl_genAvgUpdate (inputs : List (Option Int)) :
    inputs.foldl genAvgUpdate 0 = inputs.reduceOption.sum := by
  have hupdate : genAvgUpdate = skipNone fun accum input => accum + input := by
    funext accum input
    cases input <;> rfl
  rw [hupdate, foldl_skipNone, sum_eq_foldl]

theorem foldl_genCountUpdate (inputs : List (Option Int)) :
    inputs.foldl genCountUpdate 0 = inputs.reduceOption.length := by
  have hupdate : genCountUpdate = countUdafDef.update := by
    funext count input
    cases input <;> rfl
  rw [hupdate, foldl_count]

theorem foldl_genMinUpdate (init : Int) (inputs : List (Option Int)) :
    inputs.foldl genMinUpdate init = inputs.reduceOption.foldl min init := by
  have hupdate : genMinUpdate = skipNone min := by
    funext accum input
    cases input with
    | none => rfl
    | some input => exact (min_def_lt accum input).symm
  rw [hupdate, foldl_skipNone]

theorem foldl_genMaxUpdate (init : Int) (inputs : List (Option Int)) :
    inputs.foldl genMaxUpdate init = inputs.reduceOption.foldl max init := by
  have hupdate : genMaxUpdate = skipNone max := by
    funext accum input
    cases input with
    | none => rfl
    | some input => exact (max_def_lt accum input).symm
  rw [hupdate, foldl_skipNone]

/-- A guarded update, over all rows. -/
theorem foldl_guarded {σ : Type} (p : Prop) [Decidable p] (update : σ → Option Int → σ) (init : σ)
    (rows : List Row) (col : Column) :
    rows.foldl (fun state row => if p then update state (fetch row col) else state) init =
      if p then (column rows col).foldl update init else init := by
  unfold column
  rw [foldl_map]
  by_cases hp : p
  · simp only [if_pos hp]
  · simp only [if_neg hp]
    induction rows with
    | nil => rfl
    | cons row rows ih => exact ih

/-- **The own accumulators of a column** see the column's values only. -/
theorem foldl_updateColumn (init : ColumnState) (rows : List Row) :
    rows.foldl (updateColumn t info) init =
      { sum := if info.idxs .sum ≠ [] then (column rows info.col).foldl (genSumUpdate t) init.sum
          else init.sum
        avg := if info.idxs .avg ≠ [] then (column rows info.col).foldl genAvgUpdate init.avg
          else init.avg
        min := if info.idxs .min ≠ [] then (column rows info.col).foldl genMinUpdate init.min
          else init.min
        max := if info.idxs .max ≠ [] then (column rows info.col).foldl genMaxUpdate init.max
          else init.max } := by
  simp only [← foldl_guarded]
  induction rows generalizing init with
  | nil => rfl
  | cons row rows ih => exact ih (updateColumn t info init row)

end Column

/-! ### The shared counter -/

section Generator

variable {gen : StatisticalAggGenerator} {t : IntType} {row : Row}

/-- What one row does to the shared counter. -/
def countStep (infos : List AggColumnInfo) (count : Nat) (row : Row) : Nat :=
  match infos.find? AggColumnInfo.counts with
  | none => count
  | some leader => genCountUpdate count (fetch row leader.col)

/-- The loop over the columns: each its own accumulators, and one of them the
counter. -/
theorem updateLoop_eq {infos states} (hlen : infos.length = states.length) (updated : Bool)
    (count : Nat) :
    updateLoop t row infos states updated count =
      (infos.zipWith (fun info state => updateColumn t info state row) states,
        if updated then count else countStep infos count row) := by
  induction infos generalizing states updated count with
  | nil => cases updated <;> rfl
  | cons info infos ih =>
    cases states with
    | nil => cases hlen
    | cons state states =>
      have hlen' : infos.length = states.length := Nat.succ.inj hlen
      rw [updateLoop, ih hlen']
      unfold countStep
      cases hcounts : info.counts <;> cases updated <;>
        simp [hcounts]

theorem genUpdate_eq {state} (hlen : gen.infos.length = state.columns.length) :
    gen.genUpdate state row =
      { columns := gen.infos.zipWith (fun info st => updateColumn gen.colType info st row)
          state.columns
        count := countStep gen.infos state.count row } := by
  unfold StatisticalAggGenerator.genUpdate
  rw [updateLoop_eq hlen]
  rfl

/-- A run of the generator splits into the columns and the counter. -/
theorem foldl_genUpdate {state} (hlen : gen.infos.length = state.columns.length) (rows : List Row) :
    rows.foldl gen.genUpdate state =
      { columns := rows.foldl (fun states row => gen.infos.zipWith
          (fun info st => updateColumn gen.colType info st row) states) state.columns
        count := rows.foldl (countStep gen.infos) state.count } := by
  induction rows generalizing state with
  | nil => rfl
  | cons row rows ih =>
    rw [foldl_cons, genUpdate_eq hlen, ih]
    · rfl
    · rw [length_zipWith, ← hlen, Nat.min_self]

theorem foldl_countStep (infos : List AggColumnInfo) (rows : List Row) :
    rows.foldl (countStep infos) 0 = sharedCount infos rows := by
  unfold sharedCount
  cases hfind : infos.find? AggColumnInfo.counts with
  | none =>
    have hstep : countStep infos = fun count _ => count := by
      unfold countStep
      rw [hfind]
    rw [hstep]
    induction rows with
    | nil => rfl
    | cons row rows ih => exact ih
  | some leader =>
    have hstep : countStep infos = fun count row => genCountUpdate count (fetch row leader.col) := by
      unfold countStep
      rw [hfind]
    simp [hstep, values, column, ← foldl_genCountUpdate, foldl_map]

end Generator

/-! ### The outputs -/

/-- What a generator writes for a function of a column with the values `vals`, when the
shared counter is at `cnt`. -/
def fused (fn : AggFn) (t : IntType) (vals : List Int) (cnt : Nat) : AggValue :=
  match fn with
  | .sum => .int (some (t.wrap vals.sum))
  | .avg => .ratio vals.sum cnt
  | .count => .int (some cnt)
  | .min => .int (if cnt = 0 then none else some (vals.foldl min t.maximumValue))
  | .max => .int (if cnt = 0 then none else some (vals.foldl max t.minimumValue))

section Outputs

variable {gen : StatisticalAggGenerator} {rows : List Row} {info : AggColumnInfo}

variable {idx : Nat}

theorem mem_idxs {fn} : idx ∈ info.idxs fn ↔ (fn, idx) ∈ info.aggs := by
  unfold AggColumnInfo.idxs
  simp

theorem mem_columnOutputs {state cnt val} :
    (idx, val) ∈ columnOutputs info state cnt ↔
      ∃ fn, (fn, idx) ∈ info.aggs ∧ val = columnOutput state cnt fn := by
  unfold columnOutputs
  simp only [mem_flatMap, List.mem_map, mem_idxs, Prod.mk.injEq]
  constructor
  · rintro ⟨fn, -, idx', hmem, rfl, rfl⟩
    exact ⟨fn, hmem, rfl⟩
  · rintro ⟨fn, hmem, rfl⟩
    exact ⟨fn, by cases fn <;> decide, idx, hmem, rfl, rfl⟩

/-- The output of a function whose accumulator has seen the window. -/
theorem columnOutput_eq_fused {t cnt fn} (h : (fn, idx) ∈ info.aggs) :
    columnOutput (rows.foldl (updateColumn t info) ⟨0, 0, t.maximumValue, t.minimumValue⟩) cnt fn =
      fused fn t (values rows info.col) cnt := by
  have hne : info.idxs fn ≠ [] := ne_nil_of_mem (mem_idxs.mpr h)
  rw [foldl_updateColumn]
  cases fn with
  | sum =>
    rw [if_pos hne, foldl_genSumUpdate]
    rfl
  | avg =>
    rw [if_pos hne, foldl_genAvgUpdate]
    rfl
  | count => rfl
  | min =>
    rw [if_pos hne, foldl_genMinUpdate]
    rfl
  | max =>
    rw [if_pos hne, foldl_genMaxUpdate]
    rfl

/-- The accumulators of a generator after the window. -/
theorem foldl_genUpdate_genInitState (gen : StatisticalAggGenerator) (rows : List Row) :
    rows.foldl gen.genUpdate gen.genInitState =
      { columns := gen.infos.map fun info => rows.foldl (updateColumn gen.colType info)
          ⟨0, 0, gen.colType.maximumValue, gen.colType.minimumValue⟩
        count := sharedCount gen.infos rows } := by
  have hlen : gen.infos.length = gen.genInitState.columns.length := by
    simp [StatisticalAggGenerator.genInitState]
  rw [foldl_genUpdate hlen, ← foldl_countStep]
  refine congrArg (fun columns => GeneratorState.mk columns _) ?_
  exact foldl_zipWith_eq_map (fun info st row => updateColumn gen.colType info st row) _ gen.infos rows

/-- **The outputs of a generator.** -/
theorem mem_genOutputs {val} :
    (idx, val) ∈ gen.genOutputs (rows.foldl gen.genUpdate gen.genInitState) ↔
      ∃ info ∈ gen.infos, ∃ fn, (fn, idx) ∈ info.aggs ∧
        val = fused fn gen.colType (values rows info.col) (sharedCount gen.infos rows) := by
  rw [foldl_genUpdate_genInitState]
  unfold StatisticalAggGenerator.genOutputs
  rw [zipWith_map_right, zipWith_self, ← flatMap_def, mem_flatMap]
  refine exists_congr fun info => and_congr_right fun _ => ?_
  rw [mem_columnOutputs]
  exact exists_congr fun fn => and_congr_right fun hmem => by rw [columnOutput_eq_fused hmem]

end Outputs

/-! ### One item -/

/-- When a function of a column is right although the columns `infos` share their
counter. -/
def Agrees (infos : List AggColumnInfo) (rows : List Row) (col : Column) : AggFn → Prop
  | .sum => True
  | .count | .avg => (values rows col).length = sharedCount infos rows
  | .min | .max => values rows col = [] ↔ sharedCount infos rows = 0

instance (infos : List AggColumnInfo) (rows : List Row) (col : Column) (fn : AggFn) :
    Decidable (Agrees infos rows col fn) :=
  match fn with
  | .sum => inferInstanceAs (Decidable True)
  | .count | .avg => inferInstanceAs (Decidable (_ = _))
  | .min | .max => inferInstanceAs (Decidable (_ ↔ _))

/-- Two values that are NULL on conditions. -/
theorem ite_none_eq_iff {p q : Prop} [Decidable p] [Decidable q] (x : Int) :
    AggValue.int (if p then none else some x) = .int (if q then none else some x) ↔ (q ↔ p) := by
  by_cases hp : p <;> by_cases hq : q <;> simp [hp, hq]

theorem fused_eq_udaf_iff {infos rows col t} (fn : AggFn) :
    fused fn t (values rows col) (sharedCount infos rows) = udaf fn t (column rows col) ↔
      Agrees infos rows col fn := by
  cases fn with
  | sum => exact iff_of_true udaf_sum.symm trivial
  | avg =>
    rw [udaf_avg]
    unfold fused Agrees values
    simp [eq_comm]
  | count =>
    rw [udaf_count]
    unfold fused Agrees values
    rw [AggValue.int.injEq, Option.some.injEq, Int.natCast_inj]
    exact eq_comm
  | min =>
    rw [udaf_min]
    exact ite_none_eq_iff _
  | max =>
    rw [udaf_max]
    exact ite_none_eq_iff _

/-! ### Collecting and scheduling -/

section Schedule

variable {infos seq : List AggColumnInfo} {cur : Option (Nat × IntType)}

/-- The columns of a running sequence have its type, and there is one once there has
been a column. -/
structure Running (cur : Option (Nat × IntType)) (seq : List AggColumnInfo) : Prop where
  ne_nil : ∀ offset t, cur = some (offset, t) → seq ≠ []
  nil : cur = none → seq = []
  type : ∀ offset t, cur = some (offset, t) → ∀ info ∈ seq, info.col.type = t

theorem Running.singleton (info : AggColumnInfo) :
    Running (some (info.col.offset, info.col.type)) [info] where
  ne_nil _ _ _ := cons_ne_nil _ _
  nil h := nomatch h
  type offset t h info' hmem := by
    cases h
    rw [mem_singleton.mp hmem]

theorem Running.append {offset : Nat} {t : IntType} (h : Running (some (offset, t)) seq)
    {info : AggColumnInfo} (htype : info.col.type = t) :
    Running (some (info.col.offset, info.col.type)) (seq ++ [info]) where
  ne_nil _ _ _ := append_ne_nil_of_right_ne_nil _ (cons_ne_nil _ _)
  nil h := nomatch h
  type offset' t' h' info' hmem := by
    cases h'
    rcases mem_append.mp hmem with hmem | hmem
    · rw [h.type _ _ rfl info' hmem, htype]
    · rw [mem_singleton.mp hmem]

/-- **The schedule** splits the columns, in order, into generators of one type. -/
theorem scheduleLoop_spec (h : Running cur seq) :
    (scheduleLoop infos cur seq).flatMap StatisticalAggGenerator.infos = seq ++ infos ∧
      ∀ gen ∈ scheduleLoop infos cur seq, ∀ info ∈ gen.infos, info.col.type = gen.colType := by
  induction infos generalizing cur seq with
  | nil =>
    cases cur with
    | none =>
      rw [h.nil rfl]
      exact ⟨rfl, fun gen hgen => absurd hgen not_mem_nil⟩
    | some cur =>
      obtain ⟨offset, t⟩ := cur
      have hne := h.ne_nil offset t rfl
      rw [scheduleLoop, if_neg hne]
      refine ⟨by simp, fun gen hgen => ?_⟩
      rw [mem_singleton.mp hgen]
      exact h.type offset t rfl
  | cons info infos ih =>
    cases cur with
    | none =>
      rw [h.nil rfl]
      exact ih (Running.singleton info)
    | some cur =>
      obtain ⟨offset, t⟩ := cur
      rw [scheduleLoop]
      split
      · obtain ⟨hflat, htypes⟩ := ih (Running.singleton info)
        refine ⟨?_, fun gen hgen => ?_⟩
        · rw [flatMap_cons, hflat]
          rfl
        · rcases mem_cons.mp hgen with rfl | hgen
          · exact h.type offset t rfl
          · exact htypes gen hgen
      · rename_i hsame
        simp only [not_or, not_not] at hsame
        obtain ⟨hflat, htypes⟩ := ih (h.append hsame.2.1)
        exact ⟨by rw [hflat, append_assoc]; rfl, htypes⟩

theorem scheduleAggGenerators_spec (infos : List AggColumnInfo) :
    (scheduleAggGenerators infos).flatMap StatisticalAggGenerator.infos = infos ∧
      ∀ gen ∈ scheduleAggGenerators infos, ∀ info ∈ gen.infos, info.col.type = gen.colType :=
  scheduleLoop_spec ⟨fun _ _ h => (nomatch h), fun _ => rfl, fun _ _ h => (nomatch h)⟩

end Schedule

section Collect

variable {items : List AggItem}

/-- A key of the query names one column. -/
def KeysResolve (items : List AggItem) : Prop :=
  ∀ item ∈ items, ∀ item' ∈ items, item.col.key = item'.col.key → item.col = item'.col

theorem mem_collectAggColumn {infos item col agg}
    (h : ∀ info ∈ infos, info.col.key = item.col.key → info.col = item.col) :
    (∃ info ∈ collectAggColumn infos item, info.col = col ∧ agg ∈ info.aggs) ↔
      (∃ info ∈ infos, info.col = col ∧ agg ∈ info.aggs) ∨
        item.col = col ∧ agg = (item.fn, item.outputIdx) := by
  induction infos with
  | nil => simp [collectAggColumn]
  | cons info infos ih =>
    unfold collectAggColumn
    by_cases hkey : info.col.key = item.col.key
    · have hcol := h info mem_cons_self hkey
      rw [if_pos hkey]
      simp only [exists_mem_cons_iff, mem_append, mem_singleton, hcol]
      rw [and_or_left, or_right_comm]
    · rw [if_neg hkey]
      simp only [exists_mem_cons_iff, ih fun info' hmem => h info' (mem_cons_of_mem _ hmem)]
      exact or_assoc.symm

/-- The columns of the entries are columns of items. -/
theorem col_mem_collectAggColumn {infos item info} (h : info ∈ collectAggColumn infos item) :
    info.col = item.col ∨ ∃ info' ∈ infos, info.col = info'.col := by
  induction infos with
  | nil => exact Or.inl (by rw [mem_singleton.mp h])
  | cons head infos ih =>
    unfold collectAggColumn at h
    split at h
    · rcases mem_cons.mp h with rfl | h
      · exact Or.inr ⟨head, mem_cons_self, rfl⟩
      · exact Or.inr ⟨info, mem_cons_of_mem _ h, rfl⟩
    · rcases mem_cons.mp h with rfl | h
      · exact Or.inr ⟨info, mem_cons_self, rfl⟩
      · rcases ih h with heq | ⟨info', hmem, heq⟩
        · exact Or.inl heq
        · exact Or.inr ⟨info', mem_cons_of_mem _ hmem, heq⟩

/-- **The collected entries** hold the items, function by function. -/
theorem mem_collect (hkeys : KeysResolve items) {col fn idx} :
    (∃ info ∈ collect items, info.col = col ∧ (fn, idx) ∈ info.aggs) ↔ ⟨fn, col, idx⟩ ∈ items := by
  have hspec : ∀ done : List AggItem, done <+: items →
      (∀ info ∈ collect done, ∃ item ∈ done, info.col = item.col) ∧
      ((∃ info ∈ collect done, info.col = col ∧ (fn, idx) ∈ info.aggs) ↔ ⟨fn, col, idx⟩ ∈ done) := by
    intro done
    induction done using List.reverseRecOn with
    | nil => intro _; simp [collect]
    | append_singleton done item ih =>
      intro hpre
      obtain ⟨hcols, hmem⟩ := ih ((prefix_append done [item]).trans hpre)
      have hsub : ∀ item' ∈ done ++ [item], item' ∈ items := fun _ h => hpre.subset h
      have hstep : collect (done ++ [item]) = collectAggColumn (collect done) item := by
        simp [collect]
      rw [hstep]
      refine ⟨fun info hinfo => ?_, ?_⟩
      · rcases col_mem_collectAggColumn hinfo with heq | ⟨info', hinfo', heq⟩
        · exact ⟨item, by simp, heq⟩
        · obtain ⟨item', hitem', heq'⟩ := hcols info' hinfo'
          exact ⟨item', mem_append_left _ hitem', heq.trans heq'⟩
      · rw [mem_collectAggColumn, hmem, mem_append, mem_singleton]
        · obtain ⟨fn', col', idx'⟩ := item
          simp only [Prod.mk.injEq, AggItem.mk.injEq]
          tauto
        · intro info hinfo hkey
          obtain ⟨item', hitem', heq⟩ := hcols info hinfo
          rw [heq] at hkey ⊢
          exact hkeys item' (hsub item' (by simp [hitem'])) item (hsub item (by simp)) hkey
  exact (hspec items (prefix_refl items)).2

theorem map_key_collectAggColumn (infos : List AggColumnInfo) (item : AggItem) :
    (collectAggColumn infos item).map (fun info => info.col.key) =
      if item.col.key ∈ infos.map fun info => info.col.key then infos.map fun info => info.col.key
      else (infos.map fun info => info.col.key) ++ [item.col.key] := by
  induction infos with
  | nil => rfl
  | cons info infos ih =>
    unfold collectAggColumn
    by_cases hkey : info.col.key = item.col.key
    · simp [hkey]
    · rw [if_neg hkey, map_cons, map_cons, ih]
      by_cases hmem : item.col.key ∈ infos.map fun info => info.col.key
      · rw [if_pos hmem, if_pos (mem_cons_of_mem _ hmem)]
      · rw [if_neg hmem, if_neg (by simp [Ne.symm hkey] at hmem ⊢; exact hmem)]
        rfl

/-- Every key has one entry. -/
theorem nodup_keys_collect (items : List AggItem) :
    ((collect items).map fun info => info.col.key).Nodup := by
  induction items using List.reverseRecOn with
  | nil => exact nodup_nil
  | append_singleton items item ih =>
    have hstep : collect (items ++ [item]) = collectAggColumn (collect items) item := by
      simp [collect]
    rw [hstep, map_key_collectAggColumn]
    split
    · exact ih
    · rename_i hmem
      exact nodup_append.mpr ⟨ih, nodup_singleton _, fun key hkey key' hkey' heq =>
        hmem (mem_singleton.mp hkey' ▸ heq ▸ hkey)⟩

end Collect

/-! ### All items of a window -/

/-- The entries in the order of `ScheduleAggGenerators`. The order of columns with equal
offsets (of different slices) is left open. -/
structure SortedColumns (items : List AggItem) (infos : List AggColumnInfo) : Prop where
  perm : infos.Perm (collect items)
  sorted : infos.Pairwise fun l r => l.col.offset ≤ r.col.offset

section Items

variable {items : List AggItem} {infos : List AggColumnInfo} {rows : List Row}

variable {idx : Nat}

/-- The writes of all generators. -/
theorem mem_writes {val} :
    (idx, val) ∈ ((scheduleAggGenerators infos).zipWith (fun gen state => gen.genOutputs state)
        (rows.foldl (fun states row => (scheduleAggGenerators infos).zipWith
          (fun gen state => gen.genUpdate state row) states)
          ((scheduleAggGenerators infos).map fun gen => gen.genInitState))).flatten ↔
      ∃ gen ∈ scheduleAggGenerators infos, ∃ info ∈ gen.infos, ∃ fn, (fn, idx) ∈ info.aggs ∧
        val = fused fn gen.colType (values rows info.col) (sharedCount gen.infos rows) := by
  rw [foldl_zipWith_eq_map (fun gen state row => StatisticalAggGenerator.genUpdate gen state row),
    zipWith_map_right, zipWith_self, ← flatMap_def, mem_flatMap]
  exact exists_congr fun gen => and_congr_right fun _ => mem_genOutputs

/-- The columns of the generators are those of the items. -/
theorem mem_schedule (hcols : SortedColumns items infos) (hkeys : KeysResolve items) {col fn} :
    (∃ gen ∈ scheduleAggGenerators infos, ∃ info ∈ gen.infos, info.col = col ∧
      (fn, idx) ∈ info.aggs) ↔ ⟨fn, col, idx⟩ ∈ items := by
  rw [← mem_collect hkeys]
  have hflat := (scheduleAggGenerators_spec infos).1
  constructor
  · rintro ⟨gen, hgen, info, hinfo, hcol, hagg⟩
    have : info ∈ infos := by
      rw [← hflat]
      exact mem_flatMap.mpr ⟨gen, hgen, hinfo⟩
    exact ⟨info, hcols.perm.mem_iff.mp this, hcol, hagg⟩
  · rintro ⟨info, hinfo, hcol, hagg⟩
    have hmem := hcols.perm.mem_iff.mpr hinfo
    rw [← hflat] at hmem
    obtain ⟨gen, hgen, hinfo⟩ := mem_flatMap.mp hmem
    exact ⟨gen, hgen, info, hinfo, hcol, hagg⟩

/-- A column belongs to one generator, with one entry. -/
theorem generator_unique (hcols : SortedColumns items infos) {gen gen'}
    (hgen : gen ∈ scheduleAggGenerators infos) (hgen' : gen' ∈ scheduleAggGenerators infos)
    {info info'} (hinfo : info ∈ gen.infos) (hinfo' : info' ∈ gen'.infos)
    (hcol : info.col = info'.col) : gen = gen' ∧ info = info' := by
  have hflat := (scheduleAggGenerators_spec infos).1
  have hmem : ∀ gen ∈ scheduleAggGenerators infos, ∀ info ∈ gen.infos, info ∈ infos :=
    fun gen hgen info hinfo => by
      rw [← hflat]
      exact mem_flatMap.mpr ⟨gen, hgen, hinfo⟩
  have hkeys : (infos.map fun info => info.col.key).Nodup :=
    (hcols.perm.map _).nodup_iff.mpr (nodup_keys_collect items)
  obtain rfl : info = info' := inj_on_of_nodup_map hkeys (hmem gen hgen info hinfo)
    (hmem gen' hgen' info' hinfo') (congrArg Column.key hcol)
  refine ⟨?_, rfl⟩
  by_contra hne
  have hnodup : ((scheduleAggGenerators infos).flatMap StatisticalAggGenerator.infos).Nodup := by
    rw [hflat]
    exact hkeys.of_map
  have : Std.Symm (Function.onFun List.Disjoint StatisticalAggGenerator.infos) :=
    ⟨fun _ _ h _ hx hy => h hy hx⟩
  exact (nodup_flatMap.mp hnodup).2.forall hgen hgen' hne hinfo hinfo'

/-- **What `BuildMulti` writes** for an item: the value of its generator. -/
theorem buildMulti_eq_fused (hcols : SortedColumns items infos) (hkeys : KeysResolve items)
    (hidxs : (items.map AggItem.outputIdx).Nodup) {gen} (hgen : gen ∈ scheduleAggGenerators infos)
    {info} (hinfo : info ∈ gen.infos) {fn} (hagg : (fn, idx) ∈ info.aggs) :
    buildMulti infos rows idx =
      some (fused fn gen.colType (values rows info.col) (sharedCount gen.infos rows)) := by
  refine lastWrite_eq_some (mem_writes.mpr ⟨gen, hgen, info, hinfo, fn, hagg, rfl⟩) ?_
  intro val hval
  obtain ⟨gen', hgen', info', hinfo', fn', hagg', rfl⟩ := mem_writes.mp hval
  have hitem := (mem_schedule hcols hkeys).mp ⟨gen, hgen, info, hinfo, rfl, hagg⟩
  have hitem' := (mem_schedule hcols hkeys).mp ⟨gen', hgen', info', hinfo', rfl, hagg'⟩
  have heq := inj_on_of_nodup_map hidxs hitem' hitem rfl
  obtain ⟨rfl, hcol⟩ : fn' = fn ∧ info'.col = info.col := by
    injection heq with hfn hcol
    exact ⟨hfn, hcol⟩
  obtain ⟨rfl, rfl⟩ := generator_unique hcols hgen' hgen hinfo' hinfo hcol
  rfl

/-- **Fused aggregation.** All items of a window get the values of their aggregate
definitions, applied to their columns alone, exactly when the shared counters do no
harm. -/
theorem buildMulti_eq_udaf_iff (hcols : SortedColumns items infos) (hkeys : KeysResolve items)
    (hidxs : (items.map AggItem.outputIdx).Nodup)
    (hrows : ∀ item ∈ items, ∀ val ∈ values rows item.col, item.col.type.Holds val) :
    (∀ item ∈ items,
        buildMulti infos rows item.outputIdx =
          some (udaf item.fn item.col.type (column rows item.col)) ∧
        udaf item.fn item.col.type (column rows item.col) =
          aggregate item.fn item.col.type (values rows item.col)) ↔
      ∀ gen ∈ scheduleAggGenerators infos, ∀ info ∈ gen.infos, ∀ agg ∈ info.aggs,
        Agrees gen.infos rows info.col agg.1 := by
  have htypes := (scheduleAggGenerators_spec infos).2
  constructor
  · intro hright gen hgen info hinfo agg hagg
    have hitem := (mem_schedule hcols hkeys).mp ⟨gen, hgen, info, hinfo, rfl, hagg⟩
    have hval := (hright _ hitem).1
    rw [buildMulti_eq_fused hcols hkeys hidxs hgen hinfo hagg, Option.some.injEq,
      htypes gen hgen info hinfo] at hval
    exact (fused_eq_udaf_iff agg.1).mp hval
  · intro hagrees item hitem
    obtain ⟨gen, hgen, info, hinfo, hcol, hagg⟩ := (mem_schedule hcols hkeys).mpr hitem
    refine ⟨?_, udaf_eq_aggregate _ (hrows item hitem)⟩
    rw [buildMulti_eq_fused hcols hkeys hidxs hgen hinfo hagg, ← hcol, htypes gen hgen info hinfo]
    exact congrArg some ((fused_eq_udaf_iff item.fn).mpr (hagrees gen hgen info hinfo _ hagg))

end Items

/-! ### Two neighbouring columns -/

/-- Two neighbouring columns, and their counts. -/
def leftColumn : Column := ⟨"t.a", .kInt32, 0, 0, 7⟩
def rightColumn : Column := ⟨"t.b", .kInt32, 0, 1, 11⟩
def twoCounts : List AggItem := [⟨.count, leftColumn, 0⟩, ⟨.count, rightColumn, 1⟩]

/-- A row with two fields. -/
def pairRow (a b : Option Int) : Row := fun _ colIdx => if colIdx = 0 then a else b

theorem sortedColumns_twoCounts : SortedColumns twoCounts (collect twoCounts) where
  perm := List.Perm.refl _
  sorted := by decide

/-- A window in which both columns have one value, in different rows. -/
def crossedRows : List Row := [pairRow (some 5) none, pairRow none (some 6)]

/-- Both counts are right there. -/
theorem buildMulti_eq_udaf_crossed :
    (twoCounts.map AggItem.outputIdx).Nodup ∧
    ∀ item ∈ twoCounts,
      buildMulti (collect twoCounts) crossedRows item.outputIdx =
        some (udaf item.fn item.col.type (column crossedRows item.col)) ∧
      udaf item.fn item.col.type (column crossedRows item.col) =
        aggregate item.fn item.col.type (values crossedRows item.col) :=
  ⟨by decide, (buildMulti_eq_udaf_iff sortedColumns_twoCounts (by unfold KeysResolve; decide)
    (by decide) (by unfold IntType.Holds; decide)).mpr (by decide)⟩

/-- The count of a column of NULLs next to a column without is one. -/
theorem buildMulti_counts_null :
    buildMulti (collect twoCounts) [pairRow (some 5) none] 1 = some (.int (some 1)) ∧
      udaf .count .kInt32 (column [pairRow (some 5) none] rightColumn) = .int (some 0) := by
  decide

end HybridSE.Codegen
