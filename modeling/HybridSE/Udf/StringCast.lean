import Mathlib.Data.List.TakeWhile
import Mathlib.Data.Nat.Digits.Lemmas
import HybridSE.Lib.DecimalText

/-!
# HybridSE.Udf.StringCast

Model of the casts from strings to integers of `src/udf/udf.cc`: `string_to_smallint`,
`string_to_int` and `string_to_bigint`, with `strtol` and `strtoll` of C for a `long` of 64 bits.

A cast is not null exactly when the library reads the whole string as a numeral (`strtol_eq`), in
base 10 for the two narrow widths and in the base that the string asks for in `string_to_bigint`.
The narrow casts cut the value off instead of checking it, and a leading zero makes a bigint octal:
`cast_iff` says for which strings each cast is the checked decimal one.
-/

namespace HybridSE.Udf

open List Option Lib

/-! ### The library -/

/-- The value of a digit, for bases up to 36. -/
def digitOf (c : Byte) : Nat :=
  if 48 ≤ c && c ≤ 57 then c.toNat - 48
  else if 65 ≤ c && c ≤ 90 then c.toNat - 55
  else if 97 ≤ c && c ≤ 122 then c.toNat - 87
  else 36

/-- The value of the digits, the last of which counts one. -/
def digitsValue (base : Nat) (digits : List Byte) : Nat :=
  Nat.ofDigits base (digits.reverse.map digitOf)

/-- White space and a sign in front: is it a minus, and what follows? -/
def splitSign (str : List Byte) : Bool × List Byte :=
  let rest := str.dropWhile isSpace
  if rest.head? = some 45 then (true, rest.tail)
  else if rest.head? = some 43 then (false, rest.tail)
  else (false, rest)

def withSign (neg : Bool) (n : Nat) : Int := if neg then -n else n

/-- The mark of a hexadecimal numeral. -/
def HexMark (body : List Byte) : Prop :=
  body.head? = some 48 ∧ (body[1]? = some 120 ∨ body[1]? = some 88)

instance (body : List Byte) : Decidable (HexMark body) := inferInstanceAs (Decidable (_ ∧ _))

/-- The base that base 0 stands for, and what follows its mark. -/
def detectBase (base : Nat) (body : List Byte) : Nat × List Byte :=
  if base ≠ 0 then (base, body)
  else if HexMark body ∧ body[2]?.any (digitOf · < 16) then (16, body.drop 2)
  else if body.head? = some 48 then (8, body)
  else (10, body)

/-- A value out of the range of a `long` becomes the nearest one. -/
def saturate (v : Int) : Int := max (-2 ^ 63) (min v (2 ^ 63 - 1))

/-- `strtol` and `strtoll`: the value, and what the end pointer points to. -/
def strtol (base : Nat) (str : List Byte) : Int × List Byte :=
  let (neg, body) := splitSign str
  let (base, body) := detectBase base body
  let digits := body.takeWhile (digitOf · < base)
  if digits = [] then (0, str)
  else (saturate (withSign neg (digitsValue base digits)), body.dropWhile (digitOf · < base))

/-! ### The casts -/

/-- What the casts share; `none` is NULL. -/
def stringToInteger (base : Nat) (narrow : Int → Int) : Option (List Byte) → Option Int
  | none | some [] => none
  | some str => if (strtol base str).2 ≠ [] then none else some (narrow (strtol base str).1)

def stringToInt : Option (List Byte) → Option Int :=
  stringToInteger 10 (·.bmod (2 ^ 32))

def stringToSmallint : Option (List Byte) → Option Int :=
  stringToInteger 10 fun v => (v.bmod (2 ^ 32)).bmod (2 ^ 16)

def stringToBigint : Option (List Byte) → Option Int := stringToInteger 0 id

/-! ### Numerals -/

/-- A numeral in a base. -/
def numeral (base : Nat) (neg : Bool) (body : List Byte) : Option Int :=
  if body ≠ [] ∧ ∀ c ∈ body, digitOf c < base then some (withSign neg (digitsValue base body))
  else none

/-- The value of an optionally signed decimal numeral after optional white space. -/
def decimal (str : List Byte) : Option Int := numeral 10 (splitSign str).1 (splitSign str).2

def InRange (w : Nat) (v : Int) : Prop := -2 ^ (w - 1) ≤ v ∧ v < 2 ^ (w - 1)

instance (w : Nat) (v : Int) : Decidable (InRange w v) := inferInstanceAs (Decidable (_ ∧ _))

/-- The cast of a width that checks the range. -/
def checkedCast (w : Nat) (str : List Byte) : Option Int := (decimal str).filter (InRange w)

/-- A hexadecimal numeral. -/
def HexNumeral (body : List Byte) : Prop :=
  HexMark body ∧ body.drop 2 ≠ [] ∧ ∀ c ∈ body.drop 2, digitOf c < 16

/-- If the string is a decimal numeral, it is in range. -/
def Fits (w : Nat) (str : List Byte) : Prop := ∀ v ∈ decimal str, InRange w v

/-- The string is no hexadecimal numeral, and if it is a decimal one, it has no leading zero and is
in range, or it has one and is below 8, or it has one, is not octal and is out of range. -/
def BigintFits (str : List Byte) : Prop :=
  ¬ HexNumeral (splitSign str).2 ∧ ∀ v ∈ decimal str,
    if (splitSign str).2.head? = some 48 then
      if ∀ c ∈ (splitSign str).2, digitOf c < 8 then v.natAbs < 8 else ¬ InRange 64 v
    else InRange 64 v

/-! ### Numerals -/

theorem strtol_eq {base str} (narrow : Int → Int) :
    stringToInteger base narrow (some str) =
      (numeral (detectBase base (splitSign str).2).1 (splitSign str).1
        (detectBase base (splitSign str).2).2).map fun v => narrow (saturate v) := by
  obtain rfl | hstr := eq_or_ne str []
  · cases base <;> rfl
  rw [show stringToInteger base narrow (some str) = if (strtol base str).2 ≠ [] then none
    else some (narrow (strtol base str).1) by cases str <;> trivial]
  unfold strtol numeral
  simp only
  generalize detectBase base (splitSign str).2 = p
  obtain ⟨b, body⟩ := p
  by_cases hall : body ≠ [] ∧ ∀ c ∈ body, digitOf c < b
  · obtain ⟨hne, hall⟩ := hall
    have htake : body.takeWhile (digitOf · < b) = body := takeWhile_eq_self_iff.mpr (by simpa)
    have hdrop : body.dropWhile (digitOf · < b) = [] := dropWhile_eq_nil_iff.mpr (by simpa)
    simpa [htake, hdrop, hne] using hall
  · rw [if_neg hall]
    by_cases htake : body.takeWhile (digitOf · < b) = []
    · simp [htake, hstr]
    · have hdrop : body.dropWhile (digitOf · < b) ≠ [] := fun hnil =>
        hall ⟨fun h => htake (by simp [h]), by simpa using dropWhile_eq_nil_iff.mp hnil⟩
      simp [htake, hdrop]

theorem saturate_of_inRange {v} (h : InRange 64 v) : saturate v = v := by
  obtain ⟨hlo, hhi⟩ := h
  unfold saturate
  omega

theorem inRange_mono {w w' v} (hw : w ≤ w') (h : InRange w v) : InRange w' v := by
  have hpow : (2 : Int) ^ (w - 1) ≤ 2 ^ (w' - 1) := by
    exact_mod_cast Nat.pow_le_pow_right (by decide) (Nat.sub_le_sub_right hw 1)
  obtain ⟨hlo, hhi⟩ := h
  constructor <;> omega

/-- Cutting off is checking when nothing is cut off. -/
theorem map_saturate_iff {w} {narrow : Int → Int} (hw : w ≤ 64)
    (hnarrow : ∀ v, InRange w v → narrow v = v) (o : Option Int) :
    o.map (fun v => narrow (saturate v)) = o.filter (InRange w) ↔ ∀ v ∈ o, InRange w v := by
  cases o with
  | none => simp
  | some v =>
    by_cases hv : InRange w v
    · simp [Option.filter_some, hv, saturate_of_inRange (inRange_mono hw hv), hnarrow]
    · simp [Option.filter_some, hv]

/-! ### Octal numerals -/

theorem digitsValue_concat {base c} {digits : List Byte} :
    digitsValue base (digits ++ [c]) = digitOf c + base * digitsValue base digits := by
  simp [digitsValue, Nat.ofDigits_cons]

theorem digitsValue_le (digits : List Byte) : digitsValue 8 digits ≤ digitsValue 10 digits :=
  Nat.ofDigits_monotone _ (by decide)

/-- Octal and decimal agree below 8. -/
theorem digitsValue_eq_iff {digits : List Byte} (h : ∀ c ∈ digits, digitOf c < 8) :
    digitsValue 8 digits = digitsValue 10 digits ↔ digitsValue 10 digits < 8 := by
  obtain rfl | ⟨init, c, rfl⟩ := eq_nil_or_concat digits
  · decide
  · have hle := digitsValue_le init
    have hc := h c (by simp)
    rw [concat_eq_append, digitsValue_concat, digitsValue_concat]
    omega

theorem numeral_eq_some {base neg body} (hne : body ≠ []) (h : ∀ c ∈ body, digitOf c < base) :
    numeral base neg body = some (withSign neg (digitsValue base body)) :=
  if_pos ⟨hne, h⟩

theorem numeral_eq_none {base neg body c} (hmem : c ∈ body) (h : base ≤ digitOf c) :
    numeral base neg body = none :=
  if_neg fun hall => absurd (hall.2 c hmem) (Nat.not_lt.mpr h)

/-- The mark of a hexadecimal numeral is not decimal. -/
theorem HexMark.numeral_ten {neg body} (h : HexMark body) : numeral 10 neg body = none := by
  obtain ⟨-, h | h⟩ := h <;> exact numeral_eq_none (mem_of_getElem? h) (by decide)

theorem numeral_eq_none_iff {base neg body} :
    numeral base neg body = none ↔ ¬ (body ≠ [] ∧ ∀ c ∈ body, digitOf c < base) := by
  unfold numeral
  split <;> simp_all

/-- With its mark a string is a numeral exactly when it is hexadecimal. -/
theorem HexMark.detectBase_iff {neg body} (h : HexMark body) :
    numeral (detectBase 0 body).1 neg (detectBase 0 body).2 = none ↔ ¬ HexNumeral body := by
  unfold detectBase
  rw [if_neg (by simp)]
  by_cases hdigit : body[2]?.any (digitOf · < 16)
  · simp [h, hdigit, numeral_eq_none_iff, HexNumeral]
  · have hnone : numeral 8 neg body = none := by
      obtain ⟨-, h | h⟩ := h <;> exact numeral_eq_none (mem_of_getElem? h) (by decide)
    rw [if_neg (fun h => hdigit h.2), if_pos h.1]
    refine iff_of_true hnone ?_
    rintro ⟨-, hne, hall⟩
    obtain ⟨c, rest, heq⟩ := exists_cons_of_ne_nil hne
    have hget : body[2]? = some c := by
      rw [← head?_drop, heq, head?_cons]
    exact hdigit (by simpa [hget] using hall c (heq ▸ mem_cons_self))

/-- An octal numeral is the checked decimal one when it is below 8. -/
theorem octal_iff {neg body} (hne : body ≠ []) (hoct : ∀ c ∈ body, digitOf c < 8) :
    (numeral 8 neg body).map saturate = (numeral 10 neg body).filter (InRange 64) ↔
      ∀ v ∈ numeral 10 neg body, v.natAbs < 8 := by
  have hle := digitsValue_le body
  have hiff := digitsValue_eq_iff hoct
  rw [numeral_eq_some hne hoct, numeral_eq_some hne fun c hc => (hoct c hc).trans (by decide)]
  generalize digitsValue 8 body = m at *
  generalize digitsValue 10 body = n at *
  have habs : (withSign neg n).natAbs = n := by cases neg <;> simp [withSign]
  have hsign : withSign neg m = withSign neg n ↔ m = n := by cases neg <;> simp [withSign]
  by_cases hn : InRange 64 (withSign neg n)
  · have hm : InRange 64 (withSign neg m) := by
      revert hn
      cases neg <;> simp [InRange, withSign] <;> omega
    simp [Option.filter_some, hn, saturate_of_inRange hm, hsign, hiff, habs]
  · have hge : ¬ n < 8 := by
      intro hlt
      exact hn (by cases neg <;> simp [InRange, withSign] <;> omega)
    simp [Option.filter_some, hn, habs, hge]

theorem stringToBigint_iff (str : List Byte) :
    stringToBigint (some str) = checkedCast 64 str ↔ BigintFits str := by
  unfold stringToBigint
  rw [strtol_eq]
  unfold BigintFits checkedCast decimal
  generalize (splitSign str).1 = neg
  generalize (splitSign str).2 = body
  by_cases hhex : HexMark body
  · simp [hhex.numeral_ten, hhex.detectBase_iff]
  have hnum : ¬ HexNumeral body := fun h => hhex h.1
  have hbase : detectBase 0 body = if body.head? = some 48 then (8, body) else (10, body) := by
    simp [detectBase, hhex]
  by_cases hzero : body.head? = some 48
  · rw [hbase, and_iff_right hnum]
    simp only [if_pos hzero]
    by_cases hoct : ∀ c ∈ body, digitOf c < 8
    · simp only [if_pos hoct]
      exact octal_iff (by rintro rfl; simp at hzero) hoct
    · simp only [if_neg hoct]
      rw [numeral_eq_none_iff.mpr fun h => hoct h.2]
      cases numeral 10 neg body with
      | none => simp
      | some v => simp [Option.filter_some]
  · rw [hbase, and_iff_right hnum]
    simp only [if_neg hzero]
    exact map_saturate_iff le_rfl (fun _ _ => rfl) _

/-! ### Formatted integers -/

theorem digitOf_of_isDigit {b} (h : IsDigit b) : digitOf b = b.toNat - 48 := by
  have hdec : (48 ≤ b && b ≤ 57) = true := by simpa [BitVec.le_def, IsDigit] using h
  rw [digitOf, if_pos hdec]

theorem numeral_natText {neg n} : numeral 10 neg (natText n) = some (withSign neg n) := by
  have hdigits : ∀ b ∈ natText n, digitOf b = b.toNat - 48 :=
    fun b hb => digitOf_of_isDigit (isDigit_of_mem_natText hb)
  have hvalue : digitsValue 10 (natText n) = n := by
    rw [digitsValue, map_congr_left fun b hb => hdigits b (mem_reverse.mp hb), ofDigits_natText]
  have hlt : ∀ b ∈ natText n, digitOf b < 10 := by
    intro b hb
    have := (isDigit_of_mem_natText hb).2
    rw [hdigits b hb]
    omega
  rw [numeral_eq_some (natText_ne_nil n) hlt, hvalue]

/-- A digit is neither white space nor a sign. -/
theorem splitSign_natText (n : Nat) : splitSign (natText n) = (false, natText n) := by
  obtain ⟨b, rest, heq⟩ := exists_cons_of_ne_nil (natText_ne_nil n)
  obtain ⟨hlo, hhi⟩ : IsDigit b := isDigit_of_mem_natText (heq ▸ mem_cons_self)
  have hspace : isSpace b = false := by
    simp [isSpace, BitVec.le_def, ← BitVec.toNat_inj]
    omega
  have hsign : b ≠ 45#8 ∧ b ≠ 43#8 := by
    simp [← BitVec.toNat_inj]
    omega
  simp [splitSign, heq, hspace, hsign]

theorem splitSign_intText (v : Int) :
    splitSign (intText v) = (decide (v < 0), natText v.natAbs) := by
  unfold intText
  split
  case isTrue hv => simp [splitSign, isSpace, hv]
  case isFalse hv => simp [splitSign_natText, hv]

theorem decimal_intText (v : Int) : decimal (intText v) = some v := by
  rw [decimal, splitSign_intText, numeral_natText, withSign]
  simp only [decide_eq_true_eq, Option.some.injEq]
  split <;> omega

/-- Only zero begins with a zero. -/
theorem eq_zero_of_head?_natText {n} (h : (natText n).head? = some 48) : n = 0 := by
  by_contra hn
  have hne : Nat.digits 10 n ≠ [] := Nat.digits_ne_nil_iff_ne_zero.mpr hn
  rw [natText, if_neg hn, head?_map, head?_reverse, getLast?_eq_some_getLast hne] at h
  have hlast := Nat.getLast_digit_ne_zero 10 hn
  have hlt := Nat.digits_lt_base (by decide) (getLast_mem hne)
  have := congrArg BitVec.toNat (Option.some.inj h)
  rw [digitByte_toNat hlt] at this
  simp at this
  exact hlast this

theorem bigintFits_intText {v} (h : InRange 64 v) : BigintFits (intText v) := by
  have hdec := decimal_intText v
  refine ⟨fun hhex => ?_, ?_⟩
  · rw [decimal, hhex.1.numeral_ten] at hdec
    cases hdec
  · rw [hdec, splitSign_intText]
    rintro _ ⟨⟩
    split
    case isTrue hzero =>
      have h0 := eq_zero_of_head?_natText hzero
      simp [h0, natText, digitByte, digitOf]
    case isFalse => exact h

theorem bmod_of_inRange {w v} (hw : w ≠ 0) (h : InRange w v) : v.bmod (2 ^ w) = v := by
  obtain ⟨k, rfl⟩ := Nat.exists_eq_succ_of_ne_zero hw
  obtain ⟨hlo, hhi⟩ := h
  refine Int.bmod_eq_of_le ?_ ?_ <;> push_cast [pow_succ] <;> rw [Nat.succ_sub_one] at * <;> omega

theorem stringToInt_iff {str} : stringToInt (some str) = checkedCast 32 str ↔ Fits 32 str := by
  rw [stringToInt, strtol_eq]
  exact map_saturate_iff (by decide) (fun v hv => bmod_of_inRange (by decide) hv) _

theorem stringToSmallint_iff {str} :
    stringToSmallint (some str) = checkedCast 16 str ↔ Fits 16 str := by
  rw [stringToSmallint, strtol_eq]
  refine @map_saturate_iff 16 (fun v => (v.bmod _).bmod _) (by decide) (fun v hv => ?_) _
  rw [bmod_of_inRange (by decide) (inRange_mono (by decide : 16 ≤ 32) hv)]
  exact bmod_of_inRange (by decide) hv

theorem checkedCast_intText {w v} (h : InRange w v) : checkedCast w (intText v) = some v := by
  simp [checkedCast, decimal_intText, h]

theorem fits_intText {w v} (h : InRange w v) : Fits w (intText v) := by
  simp [Fits, decimal_intText, h]

/-- Each cast is the checked decimal one for exactly the strings that fit it, and it always reads
back what formatting an integer of its width gives. -/
theorem cast_iff (str : List Byte) :
    (stringToSmallint (some str) = checkedCast 16 str ↔ Fits 16 str) ∧
      (stringToInt (some str) = checkedCast 32 str ↔ Fits 32 str) ∧
      (stringToBigint (some str) = checkedCast 64 str ↔ BigintFits str) ∧
      ∀ v, (InRange 16 v → stringToSmallint (some (intText v)) = some v) ∧
        (InRange 32 v → stringToInt (some (intText v)) = some v) ∧
        (InRange 64 v → stringToBigint (some (intText v)) = some v) := by
  refine ⟨stringToSmallint_iff, stringToInt_iff, stringToBigint_iff str,
    fun v => ⟨fun h => ?_, fun h => ?_, fun h => ?_⟩⟩
  · rw [stringToSmallint_iff.mpr (fits_intText h), checkedCast_intText h]
  · rw [stringToInt_iff.mpr (fits_intText h), checkedCast_intText h]
  · rw [(stringToBigint_iff _).mpr (bigintFits_intText h), checkedCast_intText h]

/-- The text `32768` as a smallint is -32768, and `010` as a bigint is 8. -/
theorem not_cast_checked :
    stringToSmallint (some (ascii ['3', '2', '7', '6', '8'])) ≠
        checkedCast 16 (ascii ['3', '2', '7', '6', '8']) ∧
      stringToBigint (some (ascii ['0', '1', '0'])) ≠ checkedCast 64 (ascii ['0', '1', '0']) := by
  decide

end HybridSE.Udf
