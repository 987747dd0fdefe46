import Mathlib.Data.List.Find
import HybridSE.Passes.JoinCondition
import HybridSE.Vm.KeyStrings

/-!
# HybridSE.Passes.JoinConditionSound

Which row a split join condition picks.

The loop of the join visits the right rows in the same order whether the condition is
split or not, and the conjuncts that stay decide alike. The equalities are true where the
values are equal and not NULL, the keys match where their strings are equal. For key
columns of one type, up to the width of integers, and plain values the strings match where
the values do, and NULL is all that is left to tell the two apart
(`joinCondition_split_iff`).
-/

namespace HybridSE.Passes

open HybridSE.Lib HybridSE.Codec HybridSE.Vm List Option

/-! ### The two halves of the condition -/

section Halves

variable (mixed : Value → Value → Bool) (schemas : JoinSchemas) (params : ParamRow)
  (condition : JoinCondition) (left right : NamedRow)

/-- The conjuncts that stay are true. -/
def restTrue : Bool :=
  (joinRest schemas condition).all fun conjunct =>
    conjunct.eval mixed params (joinedRow schemas left right) == some true

/-- The equalities that became keys are true. -/
def equalitiesTrue : Bool :=
  (condition.conjuncts.filter fun conjunct => (joinEqualPair schemas conjunct).isSome).all
    fun conjunct => conjunct.eval mixed params (joinedRow schemas left right) == some true

/-- The values of the left keys. -/
def leftTuple : List Value :=
  (joinPairs schemas condition).map fun key => key.1.eval params left

/-- The values of the right keys. -/
def rightTuple : List Value :=
  (joinPairs schemas condition).map fun key => key.2.eval params right

/-- The strings of the keys are equal. -/
def keysMatch : Bool :=
  gen (some (leftTuple schemas params condition left)) ==
    gen (some (rightTuple schemas params condition right))

theorem conditionTrue_eq :
    conditionTrue mixed schemas params condition left right =
      (restTrue mixed schemas params condition left right &&
        equalitiesTrue mixed schemas params condition left right) := by
  rw [Bool.eq_iff_iff, Bool.and_eq_true]
  unfold conditionTrue restTrue equalitiesTrue joinRest
  simp only [beq_iff_eq, AndTree.eval_eq_true_iff, List.all_eq_true, mem_filter, and_imp]
  constructor
  · exact fun h => ⟨fun c hc _ => h c hc, fun c hc _ => h c hc⟩
  · rintro ⟨hrest, heq⟩ c hc
    cases hpair : joinEqualPair schemas c with
    | none => exact hrest c hc (by rw [hpair]; rfl)
    | some pair => exact heq c hc (by rw [hpair]; rfl)

/-- Without pairs there are no equalities to be true. -/
theorem equalitiesTrue_of_no_pairs (h : joinPairs schemas condition = []) :
    equalitiesTrue mixed schemas params condition left right = true := by
  unfold equalitiesTrue
  rw [List.all_eq_true]
  intro c hc
  obtain ⟨hmem, hsome⟩ := mem_filter.mp hc
  obtain ⟨pair, hpair⟩ := isSome_iff_exists.mp hsome
  have : pair ∈ joinPairs schemas condition := mem_filterMap.mpr ⟨c, hmem, hpair⟩
  rw [h] at this
  cases this

/-- The rest, as the condition of the split. -/
theorem ofList_joinRest :
    condHolds ((AndTree.ofList (joinRest schemas condition)).map
      (conditionTrue mixed schemas params)) left right =
      restTrue mixed schemas params condition left right := by
  have hrest := AndTree.ofList_eval_iff
    (v := Conjunct.eval mixed params (joinedRow schemas left right)) (joinRest schemas condition)
  rw [Bool.eq_iff_iff, restTrue, List.all_eq_true]
  simp only [beq_iff_eq]
  rw [← hrest]
  cases AndTree.ofList (joinRest schemas condition) with
  | none => simp [condHolds]
  | some t => simp [condHolds, conditionTrue]

/-- What the loop accepts after the split. -/
theorem accepts_split (sort : SortGenerator NamedRow) :
    ((joinConditionOptimized schemas condition).generator mixed schemas params sort).accepts left
        right =
      (restTrue mixed schemas params condition left right &&
        keysMatch schemas params condition left right) := by
  unfold joinConditionOptimized
  by_cases hpairs : joinPairs schemas condition = []
  · rw [if_pos hpairs]
    have hkeys : keysMatch schemas params condition left right = true := by
      simp [keysMatch, leftTuple, rightTuple, hpairs]
    have heq := equalitiesTrue_of_no_pairs mixed schemas params condition left right hpairs
    simp only [JoinGenerator.accepts, JoinSplit.generator, if_true, map_some,
      Bool.true_and, hkeys, conditionTrue_eq, heq]
  · rw [← ofList_joinRest, Bool.and_comm]
    simp only [JoinSplit.generator, if_neg hpairs]
    rfl

end Halves

/-! ### Plain keys -/

section Plain

variable {mixed : Value → Value → Bool} {schemas : JoinSchemas} {params : ParamRow}
  {condition : JoinCondition} {left right : NamedRow}

/-- Integers of any width as integers of 64 bits. -/
def widen : Value → Value
  | .int16 v => .int64 (v.signExtend 64)
  | .int32 v => .int64 (v.signExtend 64)
  | val => val

theorem widen_eq_null_iff {val : Value} : widen val = .null ↔ val = .null := by
  cases val <;> simp [widen]

theorem genText_widen (val : Value) : genText (widen val) = genText val := by
  cases val with
  | int16 v => exact congrArg intText (BitVec.toInt_signExtend_of_le (by decide))
  | int32 v => exact congrArg intText (BitVec.toInt_signExtend_of_le (by decide))
  | _ => rfl

theorem gen_map_widen (vals : List Value) : gen (some (vals.map widen)) = gen (some vals) := by
  rw [gen_some, gen_some, List.map_map]
  exact congrArg _ (map_congr_left fun val _ => genText_widen val)

theorem sqlEq_iff {type x y} (hx : (widen x).HasType type) (hy : (widen y).HasType type)
    (hplain : PlainKey x) (hxn : x ≠ .null) (hyn : y ≠ .null) :
    sqlEq mixed x y = true ↔ widen x = widen y := by
  have hwide : ∀ {n : Nat} (v : BitVec n), n ≤ 64 → (v.signExtend 64).toInt = v.toInt :=
    fun v h => BitVec.toInt_signExtend_of_le h
  cases x <;> cases hx <;> cases y <;> first
    | exact absurd rfl hxn
    | exact absurd rfl hyn
    | exact hplain.elim
    | cases hy
  all_goals simp [sqlEq, intValue?, widen, ← BitVec.toInt_inj, hwide]

/-- An equality of plain values is true for equal values that are not NULL. -/
theorem evalEq3_iff {type x y} (hx : (widen x).HasType type) (hy : (widen y).HasType type)
    (hplain : PlainKey x) : evalEq3 mixed x y = some true ↔ widen x = widen y ∧ x ≠ .null := by
  unfold evalEq3
  split
  case isTrue h =>
    refine iff_of_false (by simp) fun heq => ?_
    rcases h with rfl | rfl
    · exact heq.2 rfl
    · exact heq.2 (widen_eq_null_iff.mp heq.1)
  case isFalse h =>
    rw [not_or] at h
    rw [Option.some.injEq, sqlEq_iff hx hy hplain h.1 h.2]
    exact (and_iff_left h.1).symm

variable {e : ValueExpr}

/-- A key of the left input does not look at the right row. -/
theorem eval_joinedRow_left (h : e.dependsOnly schemas.left = true) :
    e.eval params (joinedRow schemas left right) = e.eval params left := by
  refine e.reads params _ _ fun name hname => ?_
  have := List.all_eq_true.mp h name hname
  exact if_pos (contains_iff_mem.mp this)

theorem eval_joinedRow_right (h : e.dependsOnly schemas.right = true) :
    e.eval params (joinedRow schemas left right) = e.eval params right := by
  refine e.reads params _ _ fun name hname => ?_
  have := contains_iff_mem.mp (List.all_eq_true.mp h name hname)
  exact if_neg fun hleft => schemas.disjoint name hleft this

theorem dependsOnly_of_isConst (h : e.isConst = true) (child : List String) :
    e.dependsOnly child = true := by
  unfold ValueExpr.dependsOnly
  rw [List.isEmpty_iff.mp h]
  rfl

/-- The sides of a pair belong to the inputs, and it comes from an equality of them. -/
theorem joinEqualPair_eq_some {conjunct a b} (h : joinEqualPair schemas conjunct = some (a, b)) :
    a.dependsOnly schemas.left = true ∧ b.dependsOnly schemas.right = true ∧
      (conjunct = .eq a b ∨ conjunct = .eq b a) := by
  cases conjunct with
  | other meaning => cases h
  | eq first second =>
    unfold joinEqualPair makeConstEqualExprPair at h
    dsimp only at h
    split at h
    case h_1 pair hpair =>
      cases h
      split at hpair
      · cases hpair
      · split at hpair
        · rename_i hconst
          split at hpair
          · rename_i hdep
            cases hpair
            exact ⟨dependsOnly_of_isConst hconst _, hdep, .inl rfl⟩
          · cases hpair
        · split at hpair
          · rename_i hconst
            split at hpair
            · rename_i hdep
              cases hpair
              exact ⟨dependsOnly_of_isConst hconst _, hdep, .inr rfl⟩
            · cases hpair
          · cases hpair
    case h_2 =>
      split at h
      · rename_i hdep
        cases h
        rw [Bool.and_eq_true] at hdep
        exact ⟨hdep.1, hdep.2, .inl rfl⟩
      · split at h
        · rename_i hdep
          cases h
          rw [Bool.and_eq_true] at hdep
          exact ⟨hdep.1, hdep.2, .inr rfl⟩
        · cases h

/-- The keys of the two rows have the same types, up to the width of integers, and plain
values. -/
structure PlainKeys (schemas : JoinSchemas) (params : ParamRow) (condition : JoinCondition)
    (left right : NamedRow) : Prop where
  typed : ∃ schema, Typed schema ((leftTuple schemas params condition left).map widen) ∧
    Typed schema ((rightTuple schemas params condition right).map widen)
  plain_left : ∀ val ∈ leftTuple schemas params condition left, PlainKey val
  plain_right : ∀ val ∈ rightTuple schemas params condition right, PlainKey val

/-- The two sides of every pair have a type and are plain. -/
theorem PlainKeys.pair (h : PlainKeys schemas params condition left right) {pair}
    (hpair : pair ∈ joinPairs schemas condition) :
    ∃ type, (widen (pair.1.eval params left)).HasType type ∧
      (widen (pair.2.eval params right)).HasType type ∧
      PlainKey (pair.1.eval params left) ∧ PlainKey (pair.2.eval params right) := by
  obtain ⟨schema, hl, hr⟩ := h.typed
  obtain ⟨i, hi, rfl⟩ := getElem_of_mem hpair
  have hlen : i < schema.length := by
    rw [← hl.length_eq, length_map, leftTuple, length_map]
    exact hi
  refine ⟨schema[i], hl.hasType i _ _ (getElem?_eq_getElem hlen) (by simp [leftTuple, hi]),
    hr.hasType i _ _ (getElem?_eq_getElem hlen) (by simp [rightTuple, hi]),
    h.plain_left _ (List.mem_map_of_mem hpair), h.plain_right _ (List.mem_map_of_mem hpair)⟩

/-- The key values of the two rows are equal. -/
def SameTuples (schemas : JoinSchemas) (params : ParamRow) (condition : JoinCondition)
    (left right : NamedRow) : Prop :=
  (leftTuple schemas params condition left).map widen =
    (rightTuple schemas params condition right).map widen

/-- Plain equalities are true for equal tuples without NULL. -/
theorem equalitiesTrue_iff (h : PlainKeys schemas params condition left right) :
    equalitiesTrue mixed schemas params condition left right = true ↔
      SameTuples schemas params condition left right ∧
        .null ∉ leftTuple schemas params condition left := by
  have hconj : ∀ {conjunct : Conjunct} {pair : ValueExpr × ValueExpr},
      conjunct ∈ condition.conjuncts → joinEqualPair schemas conjunct = some pair →
      (conjunct.eval mixed params (joinedRow schemas left right) = some true ↔
        widen (pair.1.eval params left) = widen (pair.2.eval params right) ∧
          pair.1.eval params left ≠ .null) := by
    intro conjunct pair hmem hpair
    have hin : pair ∈ joinPairs schemas condition := mem_filterMap.mpr ⟨_, hmem, hpair⟩
    obtain ⟨type, hx, hy, hpx, hpy⟩ := h.pair hin
    obtain ⟨hl, hr, rfl | rfl⟩ := joinEqualPair_eq_some hpair
    · rw [Conjunct.eval, eval_joinedRow_left hl, eval_joinedRow_right hr, evalEq3_iff hx hy hpx]
    · rw [Conjunct.eval, eval_joinedRow_left hl, eval_joinedRow_right hr, evalEq3_iff hy hx hpy,
        eq_comm, and_congr_right_iff]
      exact fun heq => not_congr (by rw [← widen_eq_null_iff, ← heq, widen_eq_null_iff])
  have hmap : SameTuples schemas params condition left right ↔
      ∀ pair ∈ joinPairs schemas condition,
        widen (pair.1.eval params left) = widen (pair.2.eval params right) := by
    rw [SameTuples, leftTuple, rightTuple, List.map_map, List.map_map]
    exact map_inj_left
  have hnull : .null ∉ leftTuple schemas params condition left ↔
      ∀ pair ∈ joinPairs schemas condition, pair.1.eval params left ≠ .null := by
    simp [leftTuple]
  rw [hmap, hnull, equalitiesTrue, List.all_eq_true]
  simp only [beq_iff_eq, mem_filter, and_imp]
  constructor
  · intro hall
    have hpairs : ∀ pair ∈ joinPairs schemas condition,
        widen (pair.1.eval params left) = widen (pair.2.eval params right) ∧
          pair.1.eval params left ≠ .null := by
      intro pair hin
      obtain ⟨conjunct, hmem, hpair⟩ := mem_filterMap.mp hin
      exact (hconj hmem hpair).mp (hall conjunct hmem (by rw [hpair]; rfl))
    exact ⟨fun pair hin => (hpairs pair hin).1, fun pair hin => (hpairs pair hin).2⟩
  · rintro ⟨heq, hne⟩ conjunct hmem hsome
    obtain ⟨pair, hpair⟩ := isSome_iff_exists.mp hsome
    have hin : pair ∈ joinPairs schemas condition := mem_filterMap.mpr ⟨_, hmem, hpair⟩
    exact (hconj hmem hpair).mpr ⟨heq pair hin, hne pair hin⟩

theorem keysMatch_iff (h : PlainKeys schemas params condition left right) :
    keysMatch schemas params condition left right = true ↔
      SameTuples schemas params condition left right := by
  obtain ⟨schema, hl, hr⟩ := h.typed
  have hplain : ∀ {vals : List Value}, (∀ val ∈ vals, PlainKey val) →
      ∀ val ∈ vals.map widen, PlainKey val := by
    intro vals hvals val hmem
    obtain ⟨v, hv, rfl⟩ := List.mem_map.mp hmem
    have := hvals v hv
    cases v <;> trivial
  rw [keysMatch, beq_iff_eq, ← gen_map_widen, ← gen_map_widen (rightTuple _ _ _ _)]
  exact ⟨gen_inj hl hr (hplain h.plain_left) (hplain h.plain_right), fun heq => by rw [heq]⟩

end Plain

/-! ### The split -/

section Split

variable (mixed : Value → Value → Bool) (schemas : JoinSchemas) (params : ParamRow)
  (condition : JoinCondition) (sort : SortGenerator NamedRow) (std : StdSort NamedRow)
  (table : TableHandler NamedRow) (left : NamedRow)

/-- The join with the split condition. -/
def splitJoin : JoinedRow NamedRow NamedRow :=
  ((joinConditionOptimized schemas condition).generator mixed schemas params sort).rowLastJoin std
    left (.table table)

/-- The join that evaluates the condition itself on every row. -/
def conditionJoin : JoinedRow NamedRow NamedRow :=
  (JoinSplit.generator mixed schemas params sort
    { keys := [], condition := some condition }).rowLastJoin std left (.table table)

/-- The right rows in the order in which both joins visit them. -/
def visitedRows : List NamedRow := TableHandler.visited (sort.sort std (some table) true)

theorem splitJoin_eq :
    splitJoin mixed schemas params condition sort std table left =
      .row left ((visitedRows sort std table).find? fun right =>
        restTrue mixed schemas params condition left right &&
          keysMatch schemas params condition left right) := by
  refine (JoinGenerator.rowLastJoinTable_eq _ _ _ _).trans ?_
  refine congrArg (JoinedRow.row left) (congrArg (fun p => find? p _) ?_)
  exact funext fun right => accepts_split mixed schemas params condition left right sort

theorem conditionJoin_eq :
    conditionJoin mixed schemas params condition sort std table left =
      .row left ((visitedRows sort std table).find? fun right =>
        restTrue mixed schemas params condition left right &&
          equalitiesTrue mixed schemas params condition left right) := by
  refine (JoinGenerator.rowLastJoinTable_eq _ _ _ _).trans ?_
  refine congrArg (JoinedRow.row left) (congrArg (fun p => find? p _) (funext fun right => ?_))
  rw [← conditionTrue_eq]
  rfl

/-- If a right row has the key values of the left row and satisfies the rest, no key value
is NULL. -/
def NoNullKey : Prop :=
  ∀ right ∈ visitedRows sort std table,
    restTrue mixed schemas params condition left right = true →
    SameTuples schemas params condition left right →
    .null ∉ leftTuple schemas params condition left

/-- For keys of one type, up to the width of integers, with plain values, splitting the
condition keeps the picked row exactly if no NULL key finds a row. -/
theorem joinCondition_split_iff
    (hplain : ∀ right ∈ visitedRows sort std table,
      PlainKeys schemas params condition left right) :
    splitJoin mixed schemas params condition sort std table left =
        conditionJoin mixed schemas params condition sort std table left ↔
      NoNullKey mixed schemas params condition sort std table left := by
  rw [splitJoin_eq, conditionJoin_eq, JoinedRow.row.injEq]
  simp only [true_and]
  by_cases hnull : .null ∈ leftTuple schemas params condition left
  · -- no row satisfies the equalities
    have hnone : ((visitedRows sort std table).find? fun right =>
        restTrue mixed schemas params condition left right &&
          equalitiesTrue mixed schemas params condition left right) = none := by
      refine find?_eq_none.mpr fun right hmem h => ?_
      have heq := (Bool.and_eq_true _ _ ▸ h).2
      exact ((equalitiesTrue_iff (hplain right hmem)).mp heq).2 hnull
    rw [hnone, find?_eq_none]
    refine forall₂_congr fun right hmem => ?_
    rw [Bool.and_eq_true, keysMatch_iff (hplain right hmem), not_and]
    exact imp_congr_right fun _ => imp_congr_right fun _ =>
      ⟨False.elim, fun h => h hnull⟩
  · refine iff_of_true (find?_congr fun right hmem => ?_) fun _ _ _ _ => hnull
    have htrue : equalitiesTrue mixed schemas params condition left right = true ↔
        SameTuples schemas params condition left right :=
      (equalitiesTrue_iff (hplain right hmem)).trans (and_iff_left hnull)
    have hiff := (keysMatch_iff (hplain right hmem)).trans htrue.symm
    rw [Bool.eq_iff_iff.mpr hiff]

end Split

/-! ### NULL keys -/

/-- `t1.id = t2.id`. -/
def idsEqual : JoinCondition := .leaf (.eq (.columnRef "t1.id") (.columnRef "t2.id"))

def idSchemas : JoinSchemas where
  left := ["t1.id"]
  right := ["t2.id"]
  disjoint := by decide

/-- A row whose only value is NULL. -/
def nullRow : NamedRow := fun _ => .null

def nullTable : TableHandler NamedRow where
  iterator := some [(1, nullRow)]
  orderType := .kNoneOrder

def noOrder : SortGenerator NamedRow where
  isValid := false
  isAsc := true
  orderGen := none

def sevenTable : TableHandler NamedRow where
  iterator := some [(1, fun _ => .int64 7)]
  orderType := .kNoneOrder

/-- A key of 32 bits finds its number as one of 64 bits, as the condition does. -/
theorem joinCondition_split_seven :
    (∀ right ∈ visitedRows noOrder stableSort sevenTable,
      PlainKeys idSchemas (fun _ => .null) idsEqual (fun _ => .int32 7) right) ∧
    splitJoin (fun _ _ => false) idSchemas (fun _ => .null) idsEqual noOrder stableSort sevenTable
        (fun _ => .int32 7) =
      conditionJoin (fun _ _ => false) idSchemas (fun _ => .null) idsEqual noOrder stableSort
        sevenTable (fun _ => .int32 7) := by
  have hplain : ∀ right ∈ visitedRows noOrder stableSort sevenTable,
      PlainKeys idSchemas (fun _ => .null) idsEqual (fun _ => .int32 7) right := by
    intro right hmem
    rw [mem_singleton.mp hmem]
    exact ⟨⟨[.kInt64], typed_onlyColumn (i := 0) rfl rfl, typed_onlyColumn (i := 0) rfl rfl⟩,
      fun val hval => mem_singleton.mp hval ▸ trivial,
      fun val hval => mem_singleton.mp hval ▸ trivial⟩
  exact ⟨hplain, (joinCondition_split_iff _ _ _ _ _ _ _ _ hplain).mpr fun _ _ _ _ => by decide⟩

/-- A NULL key finds the NULL key of the other table, although the condition is unknown. -/
theorem joinCondition_split_null :
    splitJoin (fun _ _ => false) idSchemas (fun _ => .null) idsEqual noOrder stableSort nullTable
        nullRow = .row nullRow (some nullRow) ∧
      conditionJoin (fun _ _ => false) idSchemas (fun _ => .null) idsEqual noOrder stableSort
        nullTable nullRow = .row nullRow none := by
  constructor
  · rfl
  · rfl

end HybridSE.Passes
