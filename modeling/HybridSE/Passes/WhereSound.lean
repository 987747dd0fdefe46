import HybridSE.Passes.ConditionOptimized

/-!
# HybridSE.Passes.WhereSound

Which rows a rewritten WHERE condition lets through.

A condition is true exactly when its conjuncts are (`isTrue_eval_iff`), and the first
pass splits them into pairs of a constant and an expression, and the rest. Execution
looks at the rest and at the key of the chosen index, never at the pairs themselves
(`whereRows_eq`). So the rewriting is right on a table exactly when, on its rows
that satisfy the rest, the index key says the same as all pairs (`whereRows_eq_filter`).
For equalities of different columns with constants, `whereRows_eq_filter_iff` says it by
the columns, the constants and the indexes.
-/

namespace HybridSE.Passes

open List Option

/-! ### Conjunctions -/

section Eval

variable {params : Params} {row : Row}

theorem isTrue_evalAnd (left right : Option SqlValue) :
    isTrue (evalAnd left right) = (isTrue left && isTrue right) := by
  cases left with
  | none =>
    cases right with
    | none => rfl
    | some right =>
      change isTrue (if right.isTrue = true then none else some (.bool false)) = false
      split <;> rfl
  | some left =>
    cases right with
    | none =>
      rw [show isTrue none = false from rfl, Bool.and_false]
      change isTrue (if left.isTrue = true then none else some (.bool false)) = false
      split <;> rfl
    | some right => rfl

theorem evalEq_comm (left right : Option SqlValue) : evalEq left right = evalEq right left := by
  cases left <;> cases right <;> simp [evalEq, eq_comm]

/-- An equality is true for equal values that are not NULL. -/
theorem isTrue_evalEq_iff {left right} :
    isTrue (evalEq left right) = true ↔ left = right ∧ left ≠ none := by
  cases left <;> cases right <;> simp [evalEq, isTrue, SqlValue.isTrue]

/-- A condition is true exactly when its conjuncts are. -/
theorem isTrue_eval_iff (condition : Expr) :
    isTrue (eval params row condition) = true ↔
      ∀ expr ∈ transformAndConditionList condition, isTrue (eval params row expr) = true := by
  induction condition with
  | bracket expr ih => exact ih
  | and left right ihl ihr =>
    rw [eval, isTrue_evalAnd, Bool.and_eq_true, ihl, ihr, transformAndConditionList,
      forall_mem_append]
  | _ => simp [transformAndConditionList]

/-- The residual condition is true exactly when its conjuncts are. -/
theorem isTrue_eval_foldl_and (expr : Expr) (exprs : List Expr) :
    isTrue (eval params row (exprs.foldl .and expr)) = true ↔
      ∀ e ∈ expr :: exprs, isTrue (eval params row e) = true := by
  induction exprs generalizing expr with
  | nil => rw [foldl_nil, forall_mem_singleton]
  | cons e exprs ih =>
    rw [foldl_cons, ih]
    simp only [forall_mem_cons, eval, isTrue_evalAnd, Bool.and_eq_true, and_assoc]

theorem eval_of_extractEqualExprPair {expr first second}
    (h : extractEqualExprPair expr = some (first, second)) :
    eval params row expr = evalEq (eval params row first) (eval params row second) := by
  induction expr with
  | bracket expr ih => exact ih h
  | eq left right => cases h; rfl
  | _ => cases h

theorem isTrue_eval_of_constEqualPair {expr pair} (h : constEqualPair expr = some pair) :
    eval params row expr = evalEq (eval params row pair.1) (eval params row pair.2) := by
  unfold constEqualPair at h
  cases hpair : extractEqualExprPair expr with
  | none => simp [hpair] at h
  | some eqPair =>
    simp only [hpair] at h
    split at h
    · cases h
      exact eval_of_extractEqualExprPair hpair
    · split at h
      · cases h
        rw [eval_of_extractEqualExprPair hpair, evalEq_comm]
      · cases h

end Eval

/-! ### The two halves of a condition -/

/-- The conditions that stay are true. -/
def RestHolds (condition : Expr) (params : Params) (row : Row) : Prop :=
  ∀ expr ∈ restConditions condition, isTrue (eval params row expr) = true

/-- All equalities that leave are true. -/
def PairsHold (condition : Expr) (params : Params) (row : Row) : Prop :=
  ∀ pair ∈ constPairs condition,
    eval params row pair.2 = eval params row pair.1 ∧ eval params row pair.1 ≠ none

instance (condition : Expr) (params : Params) (row : Row) :
    Decidable (RestHolds condition params row) :=
  inferInstanceAs (Decidable (∀ expr ∈ restConditions condition, _))

instance (condition : Expr) (params : Params) (row : Row) :
    Decidable (PairsHold condition params row) :=
  inferInstanceAs (Decidable (∀ pair ∈ constPairs condition, _))

section Halves

variable {condition : Expr} {params : Params} {row : Row}

theorem isTrue_eval_iff_halves :
    isTrue (eval params row condition) = true ↔
      RestHolds condition params row ∧ PairsHold condition params row := by
  rw [isTrue_eval_iff]
  constructor
  · intro h
    refine ⟨fun expr hmem => h expr (mem_of_mem_filter hmem), fun pair hmem => ?_⟩
    obtain ⟨expr, hexpr, hpair⟩ := mem_filterMap.mp hmem
    have htrue := h expr hexpr
    rw [isTrue_eval_of_constEqualPair hpair, isTrue_evalEq_iff] at htrue
    exact ⟨htrue.1.symm, htrue.2⟩
  · rintro ⟨hrest, hpairs⟩ expr hexpr
    cases hpair : constEqualPair expr with
    | none => exact hrest expr (mem_filter.mpr ⟨hexpr, by rw [hpair]; rfl⟩)
    | some pair =>
      obtain ⟨heq, hnull⟩ := hpairs pair (mem_filterMap.mpr ⟨expr, hexpr, hpair⟩)
      rw [isTrue_eval_of_constEqualPair hpair, isTrue_evalEq_iff]
      exact ⟨heq.symm, hnull⟩

/-- The residual condition is the rest. -/
theorem filterTable_makeAndExpr {filter : Filter} (rows : List Row)
    (h : filter.condition = makeAndExpr (restConditions condition)) :
    filter.filterTable params rows = rows.filter fun row => decide (RestHolds condition params row) := by
  obtain ⟨exprs, hrest⟩ : ∃ exprs, restConditions condition = exprs := ⟨_, rfl⟩
  unfold Filter.filterTable
  rw [h, hrest]
  cases exprs with
  | nil =>
    refine (filter_eq_self.mpr fun row _ => decide_eq_true ?_).symm
    simp [RestHolds, hrest]
  | cons expr exprs =>
    refine filter_congr fun row _ => ?_
    rw [Bool.eq_iff_iff, isTrue_eval_foldl_and, decide_eq_true_eq, ← hrest]
    rfl

end Halves

/-! ### The chosen index -/

section Match

variable {columns : List String} {indexes : List IndexSt}

/-- A loop that only takes over results of `call` holds one of them. -/
theorem foldl_betterIndex {call : Nat → Option (IndexSt × List Bool)} {p : Nat → Prop}
    [DecidablePred p] {is : List Nat} {best : Option (IndexSt × List Bool)}
    {m : IndexSt × List Bool}
    (h : is.foldl (fun best i => if p i then
        match call i with
        | some new => betterIndex best new
        | none => best
      else best) best = some m) :
    best = some m ∨ ∃ i ∈ is, call i = some m := by
  induction is generalizing best with
  | nil => exact Or.inl h
  | cons i is ih =>
    rcases ih h with hbest | ⟨j, hj, hcall⟩
    · dsimp only at hbest
      split at hbest
      · cases hcall : call i with
        | none => simp only [hcall] at hbest; exact Or.inl hbest
        | some new =>
          simp only [hcall] at hbest
          unfold betterIndex at hbest
          split at hbest
          · exact Or.inr ⟨i, mem_cons_self, hcall.trans hbest⟩
          · split at hbest
            · exact Or.inr ⟨i, mem_cons_self, hcall.trans hbest⟩
            · exact Or.inl hbest
      · exact Or.inl hbest
    · exact Or.inr ⟨j, mem_cons_of_mem _ hj, hcall⟩

theorem sameSet_ne_nil {columns keys} (h : sameSet columns keys = true) (hkeys : keys ≠ []) :
    columns ≠ [] := by
  obtain ⟨name, hname⟩ := exists_mem_of_ne_nil keys hkeys
  unfold sameSet at h
  rw [Bool.and_eq_true] at h
  have := List.all_eq_true.mp h.2 name hname
  exact ne_nil_of_mem (contains_iff_mem.mp this)

variable {bitmap : List Bool} {keys : List Expr}

/-- An index is chosen for exactly its key columns. -/
theorem matchBestIndex_sameSet {fuel bits index}
    (h : matchBestIndex columns indexes fuel bitmap = some (index, bits)) :
    index ∈ indexes ∧ sameSet (selected columns bits) index.keys = true := by
  induction fuel generalizing bitmap bits index with
  | zero =>
    unfold matchBestIndex at h
    split at h
    · rename_i found hfind
      cases h
      exact ⟨mem_of_find?_eq_some hfind, (find?_some hfind :)⟩
    · cases h
  | succ fuel ih =>
    unfold matchBestIndex at h
    split at h
    · rename_i found hfind
      cases h
      exact ⟨mem_of_find?_eq_some hfind, (find?_some hfind :)⟩
    · -- what the loop holds comes from a recursive call
      rcases foldl_betterIndex h with hnone | ⟨i, -, hcall⟩
      · cases hnone
      · exact ih hcall

/-- A column that is selected has its bit among the bits of the keys. -/
theorem true_mem_spreadBitmap {bits} (h : selected (columnNames keys) bits ≠ []) :
    true ∈ spreadBitmap keys bits := by
  induction keys generalizing bits with
  | nil => exact absurd rfl h
  | cons key keys ih =>
    cases key with
    | columnRef name =>
      cases bits with
      | nil => exact absurd (by simp [selected]) h
      | cons bit bits =>
        cases bit with
        | true => exact mem_cons_self
        | false => exact mem_cons_of_mem _ (ih h)
    | _ => exact mem_cons_of_mem _ (ih h)

theorem length_spreadBitmap (keys : List Expr) (bits : List Bool) :
    (spreadBitmap keys bits).length = keys.length := by
  induction keys generalizing bits with
  | nil => rfl
  | cons key keys ih =>
    cases key <;> cases bits <;> exact congrArg Nat.succ (ih _)

theorem keysWith_ne_nil (hlen : bitmap.length ≤ keys.length) (h : true ∈ bitmap) :
    keysWith true keys bitmap ≠ [] := by
  induction bitmap generalizing keys with
  | nil => cases h
  | cons bit bitmap ih =>
    cases keys with
    | nil => exact absurd hlen (Nat.not_succ_le_zero _)
    | cons key keys =>
      cases bit with
      | true => exact cons_ne_nil _ _
      | false =>
        have hmem : true ∈ bitmap := by simpa using h
        exact ih (Nat.le_of_succ_le_succ hlen) hmem

/-- A chosen index serves at least one key. -/
theorem indexKey_ne_nil {leftKeys index} (hlen : leftKeys.length = keys.length)
    (h : transformKeysAndOrderExpr keys indexes = some (index, bitmap)) :
    keysWith true leftKeys bitmap ≠ [] := by
  unfold transformKeysAndOrderExpr at h
  dsimp only at h
  split at h
  · cases h
  · obtain ⟨⟨index', bits⟩, hmatch, heq⟩ := bind_eq_some_iff.mp h
    cases heq
    refine keysWith_ne_nil (Nat.le_of_eq (by rw [length_spreadBitmap, hlen]))
      (true_mem_spreadBitmap ?_)
    exact sameSet_ne_nil (matchBestIndex_sameSet hmatch).2 index'.keys_ne

end Match

/-! ### The rows that pass -/

/-- The index that the second pass chooses, and the bits of the pairs that it serves. -/
def chosenIndex (condition : Expr) (indexes : List IndexSt) : Option (IndexSt × List Bool) :=
  transformKeysAndOrderExpr ((constPairs condition).map Prod.snd) indexes

/-- The row is in the segment that execution seeks: its index columns, in the order of the
index, equal the constants, in the order of the condition. -/
def InSegment (condition : Expr) (indexes : List IndexSt) (params : Params) (row : Row) : Prop :=
  ∀ index bitmap, chosenIndex condition indexes = some (index, bitmap) →
    index.keys.map row =
      genConst params (keysWith true ((constPairs condition).map Prod.fst) bitmap)

/-- The filter after both passes, when there is a chosen index. -/
theorem filterOptimized_eq {condition} (indexes : List IndexSt)
    (hpairs : constPairs condition ≠ []) :
    filterOptimized (filterConditionOptimized condition) indexes =
      (chosenIndex condition indexes).map fun chosen =>
        (chosen.1,
          { condition := makeAndExpr (restConditions condition)
            leftKey := keysWith false ((constPairs condition).map Prod.fst) chosen.2
            rightKey := keysWith false ((constPairs condition).map Prod.snd) chosen.2
            indexKey := keysWith true ((constPairs condition).map Prod.fst) chosen.2 }) := by
  have hkeys : ¬ ((constPairs condition).map Prod.fst = [] ∨
      (constPairs condition).map Prod.snd = []) := by
    simpa using hpairs
  unfold filterConditionOptimized
  rw [if_neg hpairs]
  refine (if_neg hkeys).trans ?_
  unfold chosenIndex
  cases transformKeysAndOrderExpr ((constPairs condition).map Prod.snd) indexes <;> rfl

/-- Filters keep the same rows when they agree on every row. -/
theorem filter_eq_filter_iff {α : Type} {p q} {xs : List α} :
    xs.filter p = xs.filter q ↔ ∀ x ∈ xs, (p x = true ↔ q x = true) := by
  constructor
  · intro h x hx
    have hmem : x ∈ xs.filter p ↔ x ∈ xs.filter q := by rw [h]
    rw [mem_filter, mem_filter] at hmem
    exact ⟨fun hp => (hmem.mp ⟨hx, hp⟩).2, fun hq => (hmem.mpr ⟨hx, hq⟩).2⟩
  · intro h
    exact filter_congr fun x hx => Bool.eq_iff_iff.mpr (h x hx)

section Rows

variable {condition : Expr} {indexes : List IndexSt} {params : Params}

open Classical in
/-- **Execution** looks at the segment and the rest only. -/
theorem whereRows_eq (rows : List Row) :
    whereRows condition indexes params rows =
      some ((rows.filter fun row => decide (InSegment condition indexes params row)).filter
        fun row => decide (RestHolds condition params row)) := by
  -- without a chosen index every row is in the segment
  have hall : chosenIndex condition indexes = none →
      (rows.filter fun row => decide (InSegment condition indexes params row)) = rows :=
    fun hnone => filter_eq_self.mpr fun row _ => decide_eq_true fun index bitmap h => by
      rw [hnone] at h
      cases h
  unfold whereRows
  dsimp only
  by_cases hpairs : constPairs condition = []
  · -- nothing moves: the condition is evaluated as it is
    have hnone : chosenIndex condition indexes = none := by
      unfold chosenIndex
      rw [hpairs]
      rfl
    have hfilter : filterConditionOptimized condition = Filter.ofCondition condition := if_pos hpairs
    rw [hfilter, hall hnone]
    refine congrArg some (filter_congr fun row _ => ?_)
    rw [Bool.eq_iff_iff, isTrue_eval_iff_halves, decide_eq_true_eq]
    refine and_iff_left fun pair hpair => ?_
    rw [hpairs] at hpair
    cases hpair
  · rw [filterOptimized_eq indexes hpairs]
    cases hchosen : chosenIndex condition indexes with
    | none =>
      have hfilter : (filterConditionOptimized condition).condition =
          makeAndExpr (restConditions condition) := by
        unfold filterConditionOptimized
        rw [if_neg hpairs]
      have hindex : (filterConditionOptimized condition).indexKey = [] := by
        unfold filterConditionOptimized
        rw [if_neg hpairs]
      rw [hall hchosen]
      exact (if_pos hindex).trans (congrArg some (filterTable_makeAndExpr rows hfilter))
    | some chosen =>
      have hne : keysWith true ((constPairs condition).map Prod.fst) chosen.2 ≠ [] :=
        indexKey_ne_nil (by rw [length_map, length_map]) hchosen
      have hseg : (rows.filter fun row => decide (InSegment condition indexes params row)) =
          getSegment chosen.1 rows
            (genConst params (keysWith true ((constPairs condition).map Prod.fst) chosen.2)) := by
        refine filter_congr fun row _ => decide_eq_decide.mpr ⟨fun h => h _ _ hchosen, ?_⟩
        intro h index bitmap h'
        rw [hchosen] at h'
        cases h'
        exact h
      rw [hseg]
      exact (if_neg hne).trans (congrArg some (filterTable_makeAndExpr _ rfl))

open Classical in
/-- The rows of the segment that satisfy the rest, against the condition. -/
theorem filter_segment_eq_iff (rows : List Row) :
    ((rows.filter fun row => decide (InSegment condition indexes params row)).filter
        fun row => decide (RestHolds condition params row)) =
        rows.filter (fun row => isTrue (eval params row condition)) ↔
      ∀ row ∈ rows, RestHolds condition params row →
        (InSegment condition indexes params row ↔ PairsHold condition params row) := by
  rw [List.filter_filter, filter_eq_filter_iff]
  refine forall_congr' fun row => imp_congr_right fun _ => ?_
  rw [isTrue_eval_iff_halves, Bool.and_eq_true, decide_eq_true_eq, decide_eq_true_eq,
    and_congr_right_iff]

/-- The rows that pass are exactly those on which the condition is true, if and only if
every row that satisfies the conditions that stay is in the segment exactly when it
satisfies the equalities that left. -/
theorem whereRows_eq_filter {rows : List Row} :
    whereRows condition indexes params rows =
        some (rows.filter fun row => isTrue (eval params row condition)) ↔
      ∀ row ∈ rows, RestHolds condition params row →
        (InSegment condition indexes params row ↔ PairsHold condition params row) := by
  rw [whereRows_eq, Option.some.injEq]
  exact filter_segment_eq_iff rows

end Rows

/-! ### Equalities of columns with constants -/

/-- The equalities, each of a column and a constant, as the first pass leaves them. -/
def columnPairs (equalities : List (String × Expr)) : List (Expr × Expr) :=
  equalities.map fun e => (e.2, .columnRef e.1)

/-- The value of a constant. -/
def constValue (params : Params) (const : Expr) : Option SqlValue := eval params (fun _ => none) const

/-- The row with the constants in their columns, and NULL in every other column. -/
def rowOfConsts (equalities : List (String × Expr)) (params : Params) : Row := fun name =>
  (equalities.lookup name).bind (constValue params)

/-- There is an index on the columns, and the first such index has them in an order in which
the constants are those of the condition, from left to right. No constant is NULL. -/
def ServedByIndex (equalities : List (String × Expr)) (indexes : List IndexSt) (params : Params) :
    Prop :=
  ∃ index, indexes.find? (fun index => sameSet (equalities.map Prod.fst) index.keys) = some index ∧
    index.keys.map (rowOfConsts equalities params) =
      equalities.map (fun e => constValue params e.2) ∧
    ∀ e ∈ equalities, constValue params e.2 ≠ none

section Equalities

variable {equalities : List (String × Expr)} {indexes : List IndexSt} {params : Params}
  {condition : Expr} {row : Row}

theorem eval_of_exprIsConst {expr : Expr} (h : exprIsConst expr = true) (row : Row) :
    eval params row expr = constValue params expr := by
  unfold constValue
  induction expr with
  | columnRef name => cases h
  | primary val => rfl
  | parameter pos => rfl
  | bracket expr ih => exact ih h
  | and left right ihl ihr =>
    obtain ⟨hl, hr⟩ := Bool.and_eq_true_iff.mp h
    rw [eval, eval, ihl hl, ihr hr]
  | eq left right ihl ihr =>
    obtain ⟨hl, hr⟩ := Bool.and_eq_true_iff.mp h
    rw [eval, eval, ihl hl, ihr hr]
  | other isConst meaning const => exact const h params row _

theorem pairsHold_iff (hpairs : constPairs condition = columnPairs equalities)
    (hconst : ∀ e ∈ equalities, exprIsConst e.2 = true) :
    PairsHold condition params row ↔
      ∀ e ∈ equalities, row e.1 = constValue params e.2 ∧ constValue params e.2 ≠ none := by
  unfold PairsHold columnPairs at *
  rw [hpairs, List.forall_mem_map]
  refine forall₂_congr fun e he => ?_
  rw [eval_of_exprIsConst (hconst e he)]
  rfl

/-- Equalities alone are the condition of a query. -/
theorem exists_condition (hne : equalities ≠ [])
    (hconst : ∀ e ∈ equalities, exprIsConst e.2 = true) :
    ∃ condition, constPairs condition = columnPairs equalities ∧ restConditions condition = [] := by
  have hone : ∀ e : String × Expr, exprIsConst e.2 = true →
      constEqualPair (.eq e.2 (.columnRef e.1)) = some (e.2, .columnRef e.1) := fun e he => if_pos he
  induction equalities with
  | nil => exact absurd rfl hne
  | cons e es ih =>
    have he := hone e (hconst e mem_cons_self)
    by_cases hes : es = []
    · subst hes
      refine ⟨.eq e.2 (.columnRef e.1), ?_, ?_⟩
      · simp [constPairs, transformAndConditionList, he, columnPairs]
      · simp [restConditions, transformAndConditionList, he]
    · obtain ⟨condition, hpairs, hrest⟩ := ih hes fun e he => hconst e (mem_cons_of_mem _ he)
      refine ⟨.and (.eq e.2 (.columnRef e.1)) condition, ?_, ?_⟩
      · unfold constPairs at hpairs ⊢
        rw [transformAndConditionList, filterMap_append, hpairs]
        simp [transformAndConditionList, he, columnPairs]
      · unfold restConditions at hrest ⊢
        rw [transformAndConditionList, filter_append, hrest]
        simp [transformAndConditionList, he]

theorem mem_iff_of_sameSet {columns keys : List String} :
    sameSet columns keys = true ↔ ∀ name, name ∈ columns ↔ name ∈ keys := by
  simp only [sameSet, Bool.and_eq_true, List.all_eq_true, contains_iff_mem]
  exact ⟨fun h name => ⟨h.1 name, h.2 name⟩, fun h => ⟨fun name => (h name).mp,
    fun name => (h name).mpr⟩⟩

theorem selected_sublist (columns : List String) (bits : List Bool) :
    (selected columns bits).Sublist columns := by
  induction columns generalizing bits with
  | nil => exact Sublist.refl _
  | cons name columns ih =>
    cases bits with
    | nil => simp [selected]
    | cons bit bits =>
      cases bit with
      | true => exact (ih bits).cons_cons name
      | false => exact (ih bits).cons name

theorem selected_all (columns : List String) :
    selected columns (replicate columns.length true) = columns := by
  induction columns with
  | nil => rfl
  | cons name columns ih => exact congrArg (cons name) ih

/-- The constants that an index is given: one for each column that it serves. -/
theorem length_keysWith_columns (equalities : List (String × Expr)) (bits : List Bool) :
    (keysWith true ((columnPairs equalities).map Prod.fst)
        (spreadBitmap ((columnPairs equalities).map Prod.snd) bits)).length =
      (selected (equalities.map Prod.fst) bits).length := by
  induction equalities generalizing bits with
  | nil => rfl
  | cons e es ih =>
    cases bits with
    | nil =>
      have hnil : ∀ keys : List Expr, true ∉ spreadBitmap keys [] := by
        intro keys
        induction keys with
        | nil => exact not_mem_nil
        | cons key keys ih => cases key <;> simpa [spreadBitmap] using ih
      simp only [selected, zip_nil_right, filterMap_nil, length_nil, length_eq_zero_iff, keysWith,
        filterMap_eq_nil_iff, Prod.forall]
      intro key bit hmem
      have : bit ≠ true := fun h => hnil _ (h ▸ (of_mem_zip hmem).2)
      simp [this]
    | cons bit bits =>
      cases bit with
      | true => exact congrArg Nat.succ (ih bits)
      | false => exact ih bits

/-- An index on all columns is given all constants. -/
theorem genConst_all (equalities : List (String × Expr)) (params : Params) :
    genConst params (keysWith true ((columnPairs equalities).map Prod.fst)
        (spreadBitmap ((columnPairs equalities).map Prod.snd)
          (replicate equalities.length true))) =
      equalities.map fun e => constValue params e.2 := by
  induction equalities with
  | nil => rfl
  | cons e es ih => exact congrArg (cons (constValue params e.2)) ih

theorem chosenIndex_eq (hne : equalities ≠ [])
    (hpairs : constPairs condition = columnPairs equalities) :
    chosenIndex condition indexes =
      (matchBestIndex (equalities.map Prod.fst) indexes equalities.length
        (replicate equalities.length true)).map fun m =>
          (m.1, spreadBitmap ((columnPairs equalities).map Prod.snd) m.2) := by
  have hnames : columnNames ((columnPairs equalities).map Prod.snd) = equalities.map Prod.fst := by
    simp [columnNames, columnPairs, filterMap_map, Function.comp_def]
  unfold chosenIndex transformKeysAndOrderExpr
  rw [hpairs, hnames, if_neg (by simpa using hne), length_map]
  cases matchBestIndex (equalities.map Prod.fst) indexes equalities.length
    (replicate equalities.length true) <;> rfl

/-- An index on all columns is found before any other. -/
theorem matchBestIndex_all {columns : List String} {index : IndexSt}
    (h : indexes.find? (fun index => sameSet columns index.keys) = some index) :
    matchBestIndex columns indexes columns.length (replicate columns.length true) =
      some (index, replicate columns.length true) := by
  unfold matchBestIndex
  rw [selected_all, h]

/-- Any values can stand in the columns of an index. -/
theorem exists_row_of_keys {keys : List String} (hkeys : keys.Nodup)
    {vals : List (Option SqlValue)} (hlen : keys.length = vals.length) :
    ∃ row : Row, keys.map row = vals ∧ ∀ name ∉ keys, row name = none := by
  induction keys generalizing vals with
  | nil => exact ⟨fun _ => none, (length_eq_zero_iff.mp hlen.symm).symm, fun _ _ => rfl⟩
  | cons key keys ih =>
    obtain ⟨val, vals, rfl⟩ := exists_cons_of_length_eq_add_one hlen.symm
    obtain ⟨hkey, hnodup⟩ := nodup_cons.mp hkeys
    obtain ⟨row, hrow, hnone⟩ := ih hnodup (Nat.succ.inj hlen)
    refine ⟨fun name => if name = key then val else row name, ?_, fun name hname => ?_⟩
    · have htail : ∀ name ∈ keys, (if name = key then val else row name) = row name :=
        fun name hmem => if_neg fun h : name = key => hkey (h ▸ hmem)
      rw [map_cons, if_pos rfl, map_congr_left htail, hrow]
    · rw [mem_cons, not_or] at hname
      exact (if_neg hname.1).trans (hnone name hname.2)

theorem rowOfConsts_of_mem (hnodup : (equalities.map Prod.fst).Nodup) {e} (he : e ∈ equalities) :
    rowOfConsts equalities params e.1 = constValue params e.2 := by
  unfold rowOfConsts
  induction equalities with
  | nil => cases he
  | cons e' es ih =>
    obtain ⟨hnew, hnodup⟩ := nodup_cons.mp hnodup
    rcases mem_cons.mp he with rfl | he
    · rw [lookup_cons_self, bind_some]
    · have hne : e.1 ≠ e'.1 := fun h => hnew (h ▸ mem_map_of_mem he)
      rw [lookup_cons, beq_false_of_ne hne]
      exact ih hnodup he

/-- The segment of the chosen index holds the rows whose keys are the constants that it is
given. -/
theorem inSegment_iff_of_match (hne : equalities ≠ [])
    (hpairs : constPairs condition = columnPairs equalities) {index bits}
    (hmatch : matchBestIndex (equalities.map Prod.fst) indexes equalities.length
      (replicate equalities.length true) = some (index, bits)) :
    InSegment condition indexes params row ↔ index.keys.map row =
      genConst params (keysWith true ((columnPairs equalities).map Prod.fst)
        (spreadBitmap ((columnPairs equalities).map Prod.snd) bits)) := by
  have hchosen := @chosenIndex_eq equalities indexes condition hne hpairs
  rw [hmatch, Option.map_some] at hchosen
  unfold InSegment
  rw [hchosen, hpairs]
  constructor
  · exact fun h => h _ _ rfl
  · rintro h _ _ heq
    cases heq
    exact h

/-- The segment of an index that serves the equalities holds the rows that satisfy them. -/
theorem inSegment_iff_of_served (hnodup : (equalities.map Prod.fst).Nodup)
    (hpairs : constPairs condition = columnPairs equalities)
    (hconst : ∀ e ∈ equalities, exprIsConst e.2 = true) (hne : equalities ≠ [])
    (h : ServedByIndex equalities indexes params) :
    InSegment condition indexes params row ↔ PairsHold condition params row := by
  obtain ⟨index, hfind, hconsts, hnull⟩ := h
  have hsame := mem_iff_of_sameSet.mp (find?_some hfind :)
  have hall := matchBestIndex_all hfind
  rw [length_map] at hall
  rw [inSegment_iff_of_match hne hpairs hall, genConst_all, ← hconsts,
    pairsHold_iff hpairs hconst, map_inj_left]
  constructor
  · intro h e he
    rw [h e.1 ((hsame _).mp (mem_map_of_mem he)), rowOfConsts_of_mem hnodup he]
    exact ⟨rfl, hnull e he⟩
  · intro h name hname
    obtain ⟨e, he, rfl⟩ := mem_map.mp ((hsame name).mpr hname)
    rw [(h e he).1, rowOfConsts_of_mem hnodup he]

/-- If the segment always holds the rows that satisfy the equalities, an index serves
them. -/
theorem served_of_inSegment_iff (hnodup : (equalities.map Prod.fst).Nodup)
    (hkeys : ∀ index ∈ indexes, index.keys.Nodup)
    (hpairs : constPairs condition = columnPairs equalities)
    (hconst : ∀ e ∈ equalities, exprIsConst e.2 = true) (hne : equalities ≠ [])
    (h : ∀ row, InSegment condition indexes params row ↔ PairsHold condition params row) :
    ServedByIndex equalities indexes params := by
  cases hmatch : matchBestIndex (equalities.map Prod.fst) indexes equalities.length
      (replicate equalities.length true) with
  | none =>
    -- every row passes, also one of NULLs
    have hchosen : chosenIndex condition indexes = none := by
      rw [chosenIndex_eq hne hpairs, hmatch, Option.map_none]
    obtain ⟨e, he⟩ := exists_mem_of_ne_nil _ hne
    have hholds := (pairsHold_iff hpairs hconst).mp ((h fun _ => none).mp fun index bitmap h => by
      rw [hchosen] at h
      cases h) e he
    exact absurd hholds.1.symm hholds.2
  | some m =>
    obtain ⟨index, bits⟩ := m
    obtain ⟨hmem, hset⟩ := matchBestIndex_sameSet hmatch
    have hset := mem_iff_of_sameSet.mp hset
    have hselected := selected_sublist (equalities.map Prod.fst) bits
    have hperm := (perm_ext_iff_of_nodup (hkeys index hmem) (hselected.nodup hnodup)).mpr
      fun name => (hset name).symm
    -- a row of the segment, with NULL in every other column
    have hlen : index.keys.length = (genConst params (keysWith true
        ((columnPairs equalities).map Prod.fst)
        (spreadBitmap ((columnPairs equalities).map Prod.snd) bits))).length := by
      rw [genConst, length_map, length_keysWith_columns, hperm.length_eq]
    obtain ⟨row, hrow, hnone⟩ := exists_row_of_keys (hkeys index hmem) hlen
    have hholds := (pairsHold_iff hpairs hconst).mp
      ((h row).mp ((inSegment_iff_of_match hne hpairs hmatch).mpr hrow))
    have hall : sameSet (equalities.map Prod.fst) index.keys = true := by
      refine mem_iff_of_sameSet.mpr fun name => ⟨fun hname => ?_, fun hname =>
        hselected.subset ((hset name).mpr hname)⟩
      obtain ⟨e, he, rfl⟩ := mem_map.mp hname
      by_contra hout
      exact (hholds e he).2 ((hholds e he).1.symm.trans (hnone _ hout))
    -- so the index is the first one on all columns
    have hsome : (indexes.find? fun index =>
        sameSet (equalities.map Prod.fst) index.keys).isSome := by
      rw [find?_isSome]
      exact ⟨index, hmem, hall⟩
    obtain ⟨first, hfind⟩ := isSome_iff_exists.mp hsome
    have hfirst := matchBestIndex_all hfind
    rw [length_map, hmatch] at hfirst
    cases hfirst
    refine ⟨index, hfind, ?_, fun e he => (hholds e he).2⟩
    rw [genConst_all] at hrow
    refine Eq.trans (map_congr_left fun name hname => ?_) hrow
    obtain ⟨e, he, rfl⟩ := mem_map.mp ((mem_iff_of_sameSet.mp hall name).mpr hname)
    rw [rowOfConsts_of_mem hnodup he, (hholds e he).1]

/-- **WHERE rewriting.** For equalities of different columns with constants, the rows that
pass are exactly those on which the condition is true, whatever the other conjuncts and
the table are, if and only if there are no equalities, or the first index on the set of
their columns reads the constants in the order of the condition and none of them is NULL. -/
theorem whereRows_eq_filter_iff (equalities : List (String × Expr)) (indexes : List IndexSt)
    (params : Params) (hconst : ∀ e ∈ equalities, exprIsConst e.2 = true)
    (hnodup : (equalities.map Prod.fst).Nodup) (hkeys : ∀ index ∈ indexes, index.keys.Nodup) :
    (∀ condition, constPairs condition = columnPairs equalities → ∀ rows,
        whereRows condition indexes params rows =
          some (rows.filter fun row => isTrue (eval params row condition))) ↔
      equalities = [] ∨ ServedByIndex equalities indexes params := by
  by_cases hne : equalities = []
  · -- no index is chosen, and there is nothing to satisfy
    refine iff_of_true (fun condition hpairs rows => whereRows_eq_filter.mpr ?_) (.inl hne)
    rw [hne] at hpairs
    refine fun row _ _ => iff_of_true (fun index bitmap h => ?_) fun pair hpair => ?_
    · unfold chosenIndex at h
      rw [hpairs] at h
      cases h
    · rw [hpairs] at hpair
      cases hpair
  · rw [or_iff_right hne]
    constructor
    · intro h
      obtain ⟨condition, hpairs, hrest⟩ := exists_condition hne hconst
      refine served_of_inSegment_iff hnodup hkeys hpairs hconst hne fun row => ?_
      refine whereRows_eq_filter.mp (h condition hpairs [row]) row mem_cons_self fun expr hexpr => ?_
      rw [hrest] at hexpr
      cases hexpr
    · exact fun h condition hpairs rows => whereRows_eq_filter.mpr fun row _ _ =>
        inSegment_iff_of_served hnodup hpairs hconst hne h

end Equalities

/-- `c1 = 5` with an index on `c1`, whatever else is asked. -/
theorem whereRows_eq_filter_one :
    (∀ e ∈ [("c1", Expr.primary (some (.int 5)))], exprIsConst e.2 = true) ∧
    ∀ condition, constPairs condition = columnPairs [("c1", .primary (some (.int 5)))] → ∀ rows,
      whereRows condition [⟨"i", ["c1"], cons_ne_nil _ _⟩] (fun _ => none) rows =
        some (rows.filter fun row => isTrue (eval (fun _ => none) row condition)) := by
  have hconst : ∀ e ∈ [("c1", Expr.primary (some (.int 5)))], exprIsConst e.2 = true := by
    simp [exprIsConst]
  refine ⟨hconst, (whereRows_eq_filter_iff _ [⟨"i", ["c1"], cons_ne_nil _ _⟩] _ hconst
    (by simp) (by simp)).mpr (.inr ⟨_, rfl, rfl, ?_⟩)⟩
  simp [constValue, eval]

/-- An equality without an index is dropped: with no index at all, a row of another value
passes. -/
theorem whereRows_drops_equality :
    whereRows (.eq (.columnRef "c1") (.primary (some (.int 5)))) [] (fun _ => none)
        [fun _ => some (.int 7)] = some [fun _ => some (.int 7)] ∧
      isTrue (eval (fun _ => none) (fun _ => some (.int 7))
        (.eq (.columnRef "c1") (.primary (some (.int 5))))) = false :=
  ⟨rfl, rfl⟩

end HybridSE.Passes
