import Mathlib.Logic.Function.Iterate
import Mathlib.Tactic.IntervalCases

/-!
# HybridSE.Lib.Calendar

The Gregorian calendar, extended to all years: the days of a month, the number of a date counted
from 1970-01-01 (`CivilDate.dayNumber`), and the date of a day (`civil`). `dayNumber_civil` is what
is used of `civil`: it is an existing date with that number.
-/

namespace HybridSE.Lib

structure CivilDate where
  year : Int
  month : Nat
  day : Nat
  deriving DecidableEq

def isLeap (y : Int) : Bool := y % 4 = 0 && (y % 100 ≠ 0 || y % 400 = 0)

def daysInMonth (y : Int) (m : Nat) : Nat :=
  if m = 2 then if isLeap y then 29 else 28
  else if m = 4 ∨ m = 6 ∨ m = 9 ∨ m = 11 then 30 else 31

/-- The days of the months before a month. -/
def daysBeforeMonth (y : Int) : Nat → Nat
  | 0 | 1 => 0
  | m + 1 => daysBeforeMonth y m + daysInMonth y m

/-- The days from 1970-01-01 to the first day of a year. -/
def yearStart (y : Int) : Int :=
  365 * (y - 1970) + ((y - 1) / 4 - (y - 1) / 100 + (y - 1) / 400) - 477

theorem daysInMonth_le (y : Int) (m : Nat) : daysInMonth y m ≤ 31 := by
  unfold daysInMonth
  split
  · split <;> decide
  · split <;> decide

namespace CivilDate

def Exists (d : CivilDate) : Prop :=
  1 ≤ d.month ∧ d.month ≤ 12 ∧ 1 ≤ d.day ∧ d.day ≤ daysInMonth d.year d.month

instance (d : CivilDate) : Decidable d.Exists := inferInstanceAs (Decidable (_ ∧ _ ∧ _ ∧ _))

/-- The days from 1970-01-01; days beyond the end of the month count on. -/
def dayNumber (d : CivilDate) : Int :=
  yearStart d.year + daysBeforeMonth d.year d.month + d.day - 1

/-- The next day. -/
def next (d : CivilDate) : CivilDate :=
  if d.day < daysInMonth d.year d.month then { d with day := d.day + 1 }
  else if d.month < 12 then ⟨d.year, d.month + 1, 1⟩
  else ⟨d.year + 1, 1, 1⟩

variable {d : CivilDate}

theorem one_le_daysInMonth (y : Int) (m : Nat) : 1 ≤ daysInMonth y m := by
  unfold daysInMonth
  split
  · split <;> decide
  · split <;> decide

theorem yearStart_succ (y : Int) :
    yearStart (y + 1) = yearStart y + if isLeap y then 366 else 365 := by
  unfold yearStart isLeap
  simp only [Bool.and_eq_true, Bool.or_eq_true, decide_eq_true_eq]
  split <;> omega

theorem daysBeforeMonth_succ (y : Int) {m} (h : 1 ≤ m) :
    daysBeforeMonth y (m + 1) = daysBeforeMonth y m + daysInMonth y m := by
  cases m with
  | zero => exact absurd h (by decide)
  | succ m => rfl

theorem daysBeforeMonth_december (y : Int) :
    daysBeforeMonth y 12 + daysInMonth y 12 = if isLeap y then 366 else 365 := by
  by_cases h : isLeap y <;> simp [daysBeforeMonth, daysInMonth, h]

theorem daysBeforeMonth_add_le (y : Int) {m} (hm : 1 ≤ m) (hm' : m ≤ 12) :
    daysBeforeMonth y m + daysInMonth y m ≤ if isLeap y then 366 else 365 := by
  by_cases h : isLeap y <;> interval_cases m <;> simp [daysBeforeMonth, daysInMonth, h]

theorem yearStart_mono {y z : Int} (h : y ≤ z) : yearStart y ≤ yearStart z := by
  unfold yearStart
  omega

/-- The years of some days. -/
theorem year_bounds (h : d.Exists) {y z : Int} (hy : yearStart y ≤ d.dayNumber)
    (hz : d.dayNumber < yearStart z) : y ≤ d.year ∧ d.year < z := by
  obtain ⟨hm, hm', hd, hd'⟩ := h
  have hsucc := yearStart_succ d.year
  have hle := daysBeforeMonth_add_le d.year hm hm'
  unfold dayNumber at hy hz
  constructor
  · by_contra hlt
    have hmono : yearStart (d.year + 1) ≤ yearStart y := yearStart_mono (by omega)
    split at hsucc <;> simp_all <;> omega
  · by_contra hge
    have hmono : yearStart z ≤ yearStart d.year := yearStart_mono (by omega)
    omega

theorem exists_next (h : d.Exists) : d.next.Exists := by
  obtain ⟨hm, hm', hd, hd'⟩ := h
  unfold next
  split
  · exact ⟨hm, hm', by simp, by simpa⟩
  · split
    · exact ⟨Nat.succ_pos _, Nat.succ_le_of_lt ‹_›, Nat.le_refl _, one_le_daysInMonth _ _⟩
    · exact ⟨Nat.le_refl _, Nat.le_add_left 1 11, Nat.le_refl _, one_le_daysInMonth _ _⟩

theorem dayNumber_next (h : d.Exists) : d.next.dayNumber = d.dayNumber + 1 := by
  obtain ⟨hm, hm', hd, hd'⟩ := h
  unfold next dayNumber
  split
  · push_cast
    omega
  · split
    · rw [daysBeforeMonth_succ _ hm]
      push_cast
      omega
    · have hdec : d.month = 12 := by omega
      have hyear := daysBeforeMonth_december d.year
      rw [yearStart_succ]
      simp only [hdec, daysBeforeMonth] at *
      split at hyear <;> split <;> simp_all <;> omega

/-- A date some eras of 400 years later. -/
def addEras (d : CivilDate) (era : Int) : CivilDate := { d with year := d.year + 400 * era }

theorem isLeap_add (y era : Int) : isLeap (y + 400 * era) = isLeap y := by
  have h₁ : (y + 400 * era) % 4 = y % 4 := by omega
  have h₂ : (y + 400 * era) % 100 = y % 100 := by omega
  have h₃ : (y + 400 * era) % 400 = y % 400 := by omega
  rw [isLeap, h₁, h₂, h₃, isLeap]

theorem daysInMonth_add (y era : Int) : daysInMonth (y + 400 * era) = daysInMonth y := by
  funext m
  rw [daysInMonth, isLeap_add, daysInMonth]

theorem daysBeforeMonth_add (y era : Int) (m : Nat) :
    daysBeforeMonth (y + 400 * era) m = daysBeforeMonth y m := by
  induction m with
  | zero => rfl
  | succ m ih =>
    cases m with
    | zero => rfl
    | succ m => simp [daysBeforeMonth, daysInMonth_add, ih]

theorem exists_addEras (h : d.Exists) (era : Int) : (d.addEras era).Exists := by
  simpa [Exists, addEras, daysInMonth_add] using h

theorem dayNumber_addEras (era : Int) :
    (d.addEras era).dayNumber = d.dayNumber + 146097 * era := by
  simp only [dayNumber, addEras, daysBeforeMonth_add, yearStart]
  omega

end CivilDate

/-- The date of a day, counted from 1970-01-01: within an era day by day. -/
def civil (n : Int) : CivilDate :=
  (CivilDate.next^[(n % 146097).toNat] ⟨1970, 1, 1⟩).addEras (n / 146097)

theorem dayNumber_iterate (n : Nat) : (CivilDate.next^[n] ⟨1970, 1, 1⟩).Exists ∧
    (CivilDate.next^[n] ⟨1970, 1, 1⟩).dayNumber = n := by
  induction n with
  | zero => decide
  | succ n ih =>
    rw [Function.iterate_succ_apply']
    exact ⟨CivilDate.exists_next ih.1, by rw [CivilDate.dayNumber_next ih.1, ih.2]; rfl⟩

/-- The date of a day exists and has its number. -/
theorem dayNumber_civil (n : Int) : (civil n).Exists ∧ (civil n).dayNumber = n := by
  obtain ⟨hexists, hday⟩ := dayNumber_iterate (n % 146097).toNat
  refine ⟨CivilDate.exists_addEras hexists _, ?_⟩
  rw [civil, CivilDate.dayNumber_addEras]
  omega

end HybridSE.Lib
