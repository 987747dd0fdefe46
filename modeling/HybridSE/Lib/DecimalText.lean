import Mathlib.Data.Nat.Digits.Defs
import HybridSE.Lib.ByteBuffer

/-!
# HybridSE.Lib.DecimalText

Decimal texts of numbers, as `std::to_string` writes them: integers with a sign
(`intText`), and binary floating point numbers with six digits after the point
(`floatingText`).

An integer's text determines the integer (`intText_inj`). What else is used of
these texts is which bytes they are made of (`IsNumeric`) and that the text of a
floating point number is never that of an integer (`floatingText_ne_intText`).
-/

namespace HybridSE.Lib

open List

/-- The bytes of ASCII characters. -/
def ascii (cs : List Char) : List Byte := cs.map fun c => BitVec.ofNat 8 c.toNat

/-- `isspace`. -/
def isSpace (c : Byte) : Bool := c = 32 || (9 ≤ c && c ≤ 13)

/-! ### Integers -/

/-- The byte of a decimal digit. -/
def digitByte (d : Nat) : Byte := BitVec.ofNat 8 (48 + d)

theorem digitByte_toNat {d} (h : d < 10) : (digitByte d).toNat = 48 + d := by
  rw [digitByte, BitVec.toNat_ofNat]
  omega

/-- A natural number. -/
def natText (n : Nat) : List Byte :=
  if n = 0 then [digitByte 0] else (Nat.digits 10 n).reverse.map digitByte

/-- A signed number. -/
def intText (v : Int) : List Byte :=
  if v < 0 then 45#8 :: natText v.natAbs else natText v.natAbs

/-- Is the byte a decimal digit? -/
def IsDigit (b : Byte) : Prop := 48 ≤ b.toNat ∧ b.toNat ≤ 57

instance (b : Byte) : Decidable (IsDigit b) := inferInstanceAs (Decidable (_ ∧ _))

theorem isDigit_digitByte {d} (h : d < 10) : IsDigit (digitByte d) := by
  rw [IsDigit, digitByte_toNat h]
  omega

variable {n : Nat} {b : Byte}

theorem isDigit_of_mem_natText (h : b ∈ natText n) : IsDigit b := by
  unfold natText at h
  split at h
  case isTrue => exact mem_singleton.mp h ▸ isDigit_digitByte (by decide)
  case isFalse =>
    obtain ⟨d, hd, rfl⟩ := List.mem_map.mp h
    exact isDigit_digitByte (Nat.digits_lt_base (by decide) (mem_reverse.mp hd))

theorem natText_ne_nil (n : Nat) : natText n ≠ [] := by
  unfold natText
  split
  case isTrue => exact cons_ne_nil _ _
  case isFalse hn => simpa using Nat.digits_ne_nil_iff_ne_zero.mpr hn

/-- Reading the digits again. -/
theorem ofDigits_natText (n : Nat) :
    Nat.ofDigits 10 ((natText n).reverse.map fun b => b.toNat - 48) = n := by
  unfold natText
  split
  case isTrue hn => subst hn; rfl
  case isFalse =>
    rw [← map_reverse, reverse_reverse, List.map_map]
    have hmap : (Nat.digits 10 n).map ((fun b : Byte => b.toNat - 48) ∘ digitByte) =
        Nat.digits 10 n := by
      refine (map_congr_left fun d hd => ?_).trans (List.map_id _)
      rw [Function.comp_apply, digitByte_toNat (Nat.digits_lt_base (by decide) hd)]
      exact Nat.add_sub_cancel_left 48 d
    rw [hmap, Nat.ofDigits_digits]

theorem natText_inj {m} (h : natText m = natText n) : m = n := by
  rw [← ofDigits_natText m, ← ofDigits_natText n, h]

/-- A minus sign is no digit. -/
theorem minus_cons_ne_natText (bs : List Byte) (n : Nat) : 45#8 :: bs ≠ natText n := by
  intro h
  have hdigit : IsDigit 45#8 := isDigit_of_mem_natText (h ▸ mem_cons_self : _ ∈ natText n)
  exact absurd hdigit.1 (by decide)

theorem intText_inj {v w} (h : intText v = intText w) : v = w := by
  unfold intText at h
  split at h <;> split at h
  case isTrue.isTrue =>
    have := natText_inj (List.cons.inj h).2
    omega
  case isTrue.isFalse => exact absurd h (minus_cons_ne_natText _ _)
  case isFalse.isTrue => exact absurd h.symm (minus_cons_ne_natText _ _)
  case isFalse.isFalse =>
    have := natText_inj h
    omega

theorem intText_ne_nil (v : Int) : intText v ≠ [] := by
  unfold intText
  split
  case isTrue => exact cons_ne_nil _ _
  case isFalse => exact natText_ne_nil _

/-- The bytes of an integer: a minus sign and digits. -/
theorem mem_intText {v} (h : b ∈ intText v) : b = 45#8 ∨ IsDigit b := by
  unfold intText at h
  split at h
  case isTrue => exact (mem_cons.mp h).imp id isDigit_of_mem_natText
  case isFalse => exact .inr (isDigit_of_mem_natText h)

/-! ### Floating point numbers -/

/-- Division rounded to the nearest integer, ties to the even one. -/
def roundDiv (num den : Nat) : Nat :=
  let q := num / den
  let r := num % den
  if 2 * r < den then q else if den < 2 * r then q + 1 else q + q % 2

/-- The last six decimal digits of a number. -/
def sixDigits (n : Nat) : List Byte :=
  [digitByte (n / 100000 % 10), digitByte (n / 10000 % 10), digitByte (n / 1000 % 10),
    digitByte (n / 100 % 10), digitByte (n / 10 % 10), digitByte (n % 10)]

/-- The unsigned part of `printf`'s `%f` for a binary floating point number with
`expBits` exponent and `manBits` mantissa bits: its value in millionths, rounded,
with the point before the last six digits. -/
def magnitudeText (expBits manBits exponent mantissa : Nat) : List Byte :=
  if exponent = 2 ^ expBits - 1 then
    if mantissa = 0 then ascii ['i', 'n', 'f'] else ascii ['n', 'a', 'n']
  else
    -- subnormal numbers have no leading one and the exponent of the smallest normal ones
    let significand := if exponent = 0 then mantissa else 2 ^ manBits + mantissa
    let scale := exponent - 1
    let millionths := roundDiv (significand * 2 ^ scale * 10 ^ 6)
      (2 ^ (2 ^ (expBits - 1) + manBits - 2))
    natText (millionths / 10 ^ 6) ++ 46#8 :: sixDigits millionths

/-- `printf`'s `%f` of a number given by its bit pattern. -/
def floatingText (expBits manBits bits : Nat) : List Byte :=
  let magnitude := magnitudeText expBits manBits (bits / 2 ^ manBits % 2 ^ expBits)
    (bits % 2 ^ manBits)
  if bits / 2 ^ (expBits + manBits) % 2 = 1 then 45#8 :: magnitude else magnitude

/-- A byte that a number's text may contain. -/
def IsNumeric (b : Byte) : Prop := b ∈ ascii ['-', '.', 'i', 'n', 'f', 'a'] ∨ IsDigit b

theorem isDigit_of_mem_sixDigits (h : b ∈ sixDigits n) : IsDigit b := by
  simp only [sixDigits, mem_cons, not_mem_nil, or_false] at h
  rcases h with rfl | rfl | rfl | rfl | rfl | rfl <;>
    exact isDigit_digitByte (Nat.mod_lt _ (by decide))

/-- The text of a magnitude has bytes that no integer has. -/
theorem exists_mem_magnitudeText (expBits manBits exponent mantissa : Nat) :
    ∃ b ∈ magnitudeText expBits manBits exponent mantissa, b ≠ 45#8 ∧ ¬ IsDigit b := by
  unfold magnitudeText
  split
  · split
    · exact ⟨105#8, by decide, by decide, fun h => absurd h.2 (by decide)⟩
    · exact ⟨110#8, by decide, by decide, fun h => absurd h.2 (by decide)⟩
  · exact ⟨46#8, mem_append_right _ mem_cons_self, by decide,
      fun h => absurd h.1 (by decide)⟩

theorem isNumeric_of_mem_magnitudeText {expBits manBits exponent mantissa}
    (h : b ∈ magnitudeText expBits manBits exponent mantissa) : IsNumeric b := by
  unfold magnitudeText at h
  split at h
  · split at h
    · exact .inl ((by decide : ascii ['i', 'n', 'f'] ⊆ ascii ['-', '.', 'i', 'n', 'f', 'a']) h)
    · exact .inl ((by decide : ascii ['n', 'a', 'n'] ⊆ ascii ['-', '.', 'i', 'n', 'f', 'a']) h)
  · rcases mem_append.mp h with hint | hrest
    · exact .inr (isDigit_of_mem_natText hint)
    · rcases mem_cons.mp hrest with rfl | hfrac
      · exact .inl (by decide)
      · exact .inr (isDigit_of_mem_sixDigits hfrac)

theorem isNumeric_of_mem_floatingText {expBits manBits bits}
    (h : b ∈ floatingText expBits manBits bits) : IsNumeric b := by
  unfold floatingText at h
  split at h
  · rcases mem_cons.mp h with rfl | h
    · exact .inl (by decide)
    · exact isNumeric_of_mem_magnitudeText h
  · exact isNumeric_of_mem_magnitudeText h

theorem floatingText_ne_intText (expBits manBits bits : Nat) (v : Int) :
    floatingText expBits manBits bits ≠ intText v := by
  intro h
  obtain ⟨b, hmem, hminus, hdigit⟩ := exists_mem_magnitudeText expBits manBits
    (bits / 2 ^ manBits % 2 ^ expBits) (bits % 2 ^ manBits)
  have hb : b ∈ floatingText expBits manBits bits := by
    unfold floatingText
    split
    · exact mem_cons_of_mem _ hmem
    · exact hmem
  exact (mem_intText (h ▸ hb : b ∈ intText v)).elim hminus hdigit

-- 1.5f
example : floatingText 8 23 0x3FC00000 = ascii ['1', '.', '5', '0', '0', '0', '0', '0'] := by
  decide +kernel

end HybridSE.Lib
