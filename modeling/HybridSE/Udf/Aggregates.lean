import HybridSE.Lib.FoldFusion
import Mathlib.Algebra.Ring.Nat
import Mathlib.Algebra.Order.Ring.Int

/-!
# HybridSE.Udf.Aggregates

Model of the aggregate definitions `SumUdafDef`, `MinUdafDef`, `MaxUdafDef`,
`CountUdafDef` and `AvgUdafDef` of `src/udf/default_udf_library.cc` for the integer
types, and what they compute (`udaf_eq_aggregate`).

A value of an integer type is the number it stands for. Doubles are idealised as
exact numbers, so an average is its sum and its count. A window has fewer than
`2 ^ 63` rows, and the counters are plain numbers.
-/

namespace HybridSE.Udf

open HybridSE.Lib List

/-- The integer column types. -/
inductive IntType
  | kInt16 | kInt32 | kInt64
  deriving DecidableEq, Repr

namespace IntType

def bits : IntType → Nat
  | kInt16 => 16
  | kInt32 => 32
  | kInt64 => 64

/-- `DataTypeTrait<T>::maximum_value`. -/
def maximumValue (t : IntType) : Int := 2 ^ (t.bits - 1) - 1

/-- `DataTypeTrait<T>::minimum_value`. -/
def minimumValue (t : IntType) : Int := -2 ^ (t.bits - 1)

/-- The number that the low bits of `x` stand for. -/
def wrap (t : IntType) (x : Int) : Int := x.bmod (2 ^ t.bits)

/-- The values of the type. -/
def Holds (t : IntType) (x : Int) : Prop := t.minimumValue ≤ x ∧ x ≤ t.maximumValue

end IntType

/-- The aggregate functions. -/
inductive AggFn
  | sum | min | max | count | avg
  deriving DecidableEq, Repr

/-- The value of an aggregate: an integer or NULL, or an average as its sum and its
count. -/
inductive AggValue
  | int (val : Option Int)
  | ratio (sum : Int) (count : Nat)
  deriving DecidableEq, Repr

/-- A user-defined aggregate. -/
structure UdafDef (σ : Type) where
  init : σ
  update : σ → Option Int → σ
  output : σ → AggValue

/-- The aggregate of a column. -/
def UdafDef.run {σ : Type} (u : UdafDef σ) (column : List (Option Int)) : AggValue :=
  u.output (column.foldl u.update u.init)

def sumUdafDef (t : IntType) : UdafDef Int where
  init := 0
  update curSum
    | none => curSum
    | some input => t.wrap (curSum + input)
  output curSum := .int (some curSum)

def minUdafDef (t : IntType) : UdafDef (Bool × Int) where
  init := (true, t.maximumValue)
  update
    | (flag, curMin), none => (flag, curMin)
    | (_, curMin), some input => (false, if input < curMin then input else curMin)
  output
    | (flag, curMin) => .int (if flag then none else some curMin)

def maxUdafDef (t : IntType) : UdafDef (Bool × Int) where
  init := (true, t.minimumValue)
  update
    | (flag, curMax), none => (flag, curMax)
    | (_, curMax), some input => (false, if curMax < input then input else curMax)
  output
    | (flag, curMax) => .int (if flag then none else some curMax)

def countUdafDef : UdafDef Nat where
  init := 0
  update curCnt
    | none => curCnt
    | some _ => curCnt + 1
  output curCnt := .int (some curCnt)

def avgUdafDef : UdafDef (Nat × Int) where
  init := (0, 0)
  update
    | (cnt, sum), none => (cnt, sum)
    | (cnt, sum), some input => (cnt + 1, sum + input)
  output
    | (cnt, sum) => .ratio sum cnt

/-- The aggregate definition of a function, applied to a column. -/
def udaf (fn : AggFn) (t : IntType) (column : List (Option Int)) : AggValue :=
  match fn with
  | .sum => (sumUdafDef t).run column
  | .min => (minUdafDef t).run column
  | .max => (maxUdafDef t).run column
  | .count => countUdafDef.run column
  | .avg => avgUdafDef.run column

/-! ### What they compute -/

/-- The aggregate of some values: their sum in the column's type, the least and the
greatest of them, how many there are, and their exact sum over their number. -/
def aggregate (fn : AggFn) (t : IntType) (vals : List Int) : AggValue :=
  match fn with
  | .sum => .int (some (t.wrap vals.sum))
  | .min => .int vals.min?
  | .max => .int vals.max?
  | .count => .int (some vals.length)
  | .avg => .ratio vals.sum vals.length

section Meaning

variable {t : IntType} {column : List (Option Int)}

theorem foldl_wrap_add (vals : List Int) (init : Int) :
    vals.foldl (fun sum input => t.wrap (sum + input)) (t.wrap init) = t.wrap (init + vals.sum) := by
  induction vals generalizing init with
  | nil => simp
  | cons val vals ih =>
    have hwrap : t.wrap (t.wrap init + val) = t.wrap (init + val) := Int.bmod_add_bmod ..
    rw [foldl_cons, hwrap, ih, sum_cons, Int.add_assoc]

theorem foldl_sum (column : List (Option Int)) :
    column.foldl (sumUdafDef t).update 0 = t.wrap column.reduceOption.sum := by
  have hskip : (sumUdafDef t).update = skipNone fun sum input => t.wrap (sum + input) := by
    funext sum input
    cases input <;> rfl
  have hzero : t.wrap 0 = 0 := by cases t <;> rfl
  rw [hskip, foldl_skipNone]
  have := foldl_wrap_add (t := t) column.reduceOption 0
  rwa [hzero, Int.zero_add] at this

/-- A fold with a flag that is up as long as there was no value. -/
theorem foldl_flag (f : Int → Int → Int) (flag : Bool) (init : Int) (vals : List Int) :
    vals.foldl (fun (state : Bool × Int) input => (false, f state.2 input)) (flag, init) =
      (flag && vals.isEmpty, vals.foldl f init) := by
  induction vals generalizing flag init with
  | nil => rw [isEmpty_nil, Bool.and_true]; rfl
  | cons val vals ih =>
    rw [foldl_cons, ih, isEmpty_cons, Bool.and_false]
    rfl

theorem foldl_min (column : List (Option Int)) :
    column.foldl (minUdafDef t).update (true, t.maximumValue) =
      (column.reduceOption.isEmpty, column.reduceOption.foldl min t.maximumValue) := by
  have hskip : (minUdafDef t).update =
      skipNone fun (state : Bool × Int) input => (false, min state.2 input) := by
    funext state input
    cases input with
    | none => rfl
    | some input => exact congrArg (Prod.mk false) (min_def_lt input state.2 ▸ min_comm _ _)
  rw [hskip, foldl_skipNone, foldl_flag, Bool.true_and]

theorem foldl_max (column : List (Option Int)) :
    column.foldl (maxUdafDef t).update (true, t.minimumValue) =
      (column.reduceOption.isEmpty, column.reduceOption.foldl max t.minimumValue) := by
  have hskip : (maxUdafDef t).update =
      skipNone fun (state : Bool × Int) input => (false, max state.2 input) := by
    funext state input
    cases input with
    | none => rfl
    | some input => exact congrArg (Prod.mk false) (max_def_lt state.2 input).symm
  rw [hskip, foldl_skipNone, foldl_flag, Bool.true_and]

theorem foldl_count (column : List (Option Int)) :
    column.foldl countUdafDef.update 0 = column.reduceOption.length := by
  have hskip : countUdafDef.update = skipNone fun count _ => count + 1 := by
    funext count input
    cases input <;> rfl
  rw [hskip, foldl_skipNone, foldl_add_one, Nat.zero_add]

theorem foldl_avg (column : List (Option Int)) :
    column.foldl avgUdafDef.update (0, 0) =
      (column.reduceOption.length, column.reduceOption.sum) := by
  have hskip : avgUdafDef.update =
      skipNone fun (state : Nat × Int) input => (state.1 + 1, state.2 + input) := by
    funext state input
    cases input <;> rfl
  have hfold : ∀ (vals : List Int) (count : Nat) (sum : Int),
      vals.foldl (fun (state : Nat × Int) input => (state.1 + 1, state.2 + input)) (count, sum) =
        (count + vals.length, sum + vals.sum) := by
    intro vals
    induction vals with
    | nil => simp
    | cons val vals ih =>
      intro count sum
      rw [foldl_cons, ih, Nat.add_right_comm, Int.add_assoc]
      rfl
  rw [hskip, foldl_skipNone, hfold, Nat.zero_add, Int.zero_add]

theorem udaf_sum : udaf .sum t column = .int (some (t.wrap column.reduceOption.sum)) :=
  congrArg (fun sum => AggValue.int (some sum)) (foldl_sum column)

theorem udaf_count : udaf .count t column = .int (some column.reduceOption.length) :=
  congrArg (fun count : Nat => AggValue.int (some count)) (foldl_count column)

theorem udaf_avg : udaf .avg t column = .ratio column.reduceOption.sum column.reduceOption.length :=
  congrArg (fun state : Nat × Int => AggValue.ratio state.2 state.1) (foldl_avg column)

theorem udaf_min : udaf .min t column =
    .int (if column.reduceOption = [] then none
      else some (column.reduceOption.foldl min t.maximumValue)) := by
  refine (congrArg (minUdafDef t).output (foldl_min column)).trans ?_
  simp only [minUdafDef, List.isEmpty_iff]

theorem udaf_max : udaf .max t column =
    .int (if column.reduceOption = [] then none
      else some (column.reduceOption.foldl max t.minimumValue)) := by
  refine (congrArg (maxUdafDef t).output (foldl_max column)).trans ?_
  simp only [maxUdafDef, List.isEmpty_iff]

/-- **The aggregate definitions** compute the aggregates of the values that are not
NULL. -/
theorem udaf_eq_aggregate (fn : AggFn) (h : ∀ val ∈ column.reduceOption, t.Holds val) :
    udaf fn t column = aggregate fn t column.reduceOption := by
  cases fn with
  | sum => exact udaf_sum
  | count => exact udaf_count
  | avg => exact udaf_avg
  | min =>
    refine udaf_min.trans (congrArg AggValue.int ?_)
    by_cases hnil : column.reduceOption = []
    · rw [hnil]
      rfl
    · rw [if_neg hnil]
      exact foldl_min_of_le (fun val hval => (h val hval).2) hnil
  | max =>
    refine udaf_max.trans (congrArg AggValue.int ?_)
    by_cases hnil : column.reduceOption = []
    · rw [hnil]
      rfl
    · rw [if_neg hnil]
      exact foldl_max_of_le (fun val hval => (h val hval).1) hnil

end Meaning

end HybridSE.Udf
