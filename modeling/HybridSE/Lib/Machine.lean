import Mathlib.Tactic.Ring
import Mathlib.Tactic.NormNum

/-!
# HybridSE.Lib.Machine

Fixed-width integers as `Nat` and `Int` with explicit wrap-around. A value of
type `uint64_t` is a `Nat` below `2 ^ 64`, one of type `int64_t` an `Int`
between `-2 ^ 63` and `2 ^ 63`; an operation that can leave the range is
followed by the conversion that the C++ type makes.
-/

namespace HybridSE.Lib

/-- The values of type `int64_t`. -/
def IsInt64 (x : Int) : Prop := -(2 ^ 63) ≤ x ∧ x < 2 ^ 63

instance (x : Int) : Decidable (IsInt64 x) := inferInstanceAs (Decidable (_ ∧ _))

/-- The values of type `uint64_t`. -/
def IsUInt64 (n : Nat) : Prop := n < 2 ^ 64

instance (n : Nat) : Decidable (IsUInt64 n) := inferInstanceAs (Decidable (_ < _))

theorem isInt64_zero : IsInt64 0 := by decide

variable {n : Nat}

theorem isInt64_natCast (h : n < 2 ^ 63) : IsInt64 n := by
  unfold IsInt64
  omega

theorem isUInt64_zero : IsUInt64 0 := by decide

theorem isUInt64_one : IsUInt64 1 := by decide

theorem isUInt64_two : IsUInt64 2 := by decide

theorem isUInt64_last : IsUInt64 (2 ^ 64 - 1) := by decide

/-- Conversion of an integer to `int64_t` (two's complement). -/
def toInt64 (x : Int) : Int := Int.bmod x (2 ^ 64)

/-- Conversion of an integer to `uint64_t`. -/
def toUInt64 (x : Int) : Nat := (x % 2 ^ 64).toNat

/-- Conversion of a natural number to `uint32_t`. -/
def toUInt32 (n : Nat) : Nat := n % 2 ^ 32

/-- Conversion of a natural number to `int32_t` (two's complement). -/
def toInt32 (n : Nat) : Int := Int.bmod n (2 ^ 32)

theorem toUInt32_of_lt (h : n < 2 ^ 32) : toUInt32 n = n := Nat.mod_eq_of_lt h

theorem toUInt32_toUInt32_add (m n : Nat) : toUInt32 (toUInt32 m + n) = toUInt32 (m + n) :=
  Nat.mod_add_mod m (2 ^ 32) n

theorem toInt32_of_lt (h : n < 2 ^ 31) : toInt32 n = n := by
  unfold toInt32
  rw [Int.bmod_def]
  split <;> omega

/-- The conversion to `int64_t` keeps what is in range. -/
theorem toInt64_of_isInt64 {x} (h : IsInt64 x) : toInt64 x = x := by
  obtain ⟨hlo, hhi⟩ := h
  unfold toInt64
  rw [Int.bmod_def]
  split <;> omega

/-- The conversion to `uint64_t` keeps what is in range. -/
theorem toUInt64_natCast (h : IsUInt64 n) : toUInt64 (n : Int) = n := by
  unfold IsUInt64 at h
  unfold toUInt64
  omega

theorem toUInt64_lt (x : Int) : toUInt64 x < 2 ^ 64 := by
  unfold toUInt64
  omega

/-- A non-negative `int64_t` plus a non-positive one stays in range. -/
theorem isInt64_add_of_nonpos {k : Nat} {d} (hk : k < 2 ^ 63) (hd : IsInt64 d) (h0 : d ≤ 0) :
    IsInt64 (k + d) := by
  obtain ⟨hlo, -⟩ := hd
  constructor <;> omega

end HybridSE.Lib
