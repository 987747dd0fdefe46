import HybridSE.Lib.Calendar
import HybridSE.Lib.DecimalText

/-!
# HybridSE.Udf.TimeLib

The functions of the C library and of `boost::gregorian` that the conversions of timestamps and
dates call.

They are a parameter of the model (`TimeLib`), and `TimeLib.Lawful` is what their documentation
says of them. Of `strptime` it says less than what an implementation does: a text of plainly
written numbers in their ranges is read (`Written`), and a text that is read has numbers in their
ranges (`Reads`). White space before a number, and numbers that no separator ends, are left open.

`calendarLib` is a library with these properties; its `strptime` skips spaces and reads on as long
as a number can stay in its range.
-/

namespace HybridSE.Udf

open List Option Lib

/-- `struct tm`; `tm_year` counts from 1900 and `tm_mon` from 0. -/
structure Tm where
  year : Int
  mon : Nat
  mday : Nat
  hour : Nat
  min : Nat
  sec : Nat
  deriving DecidableEq

namespace Tm

def date (t : Tm) : CivilDate := ⟨t.year + 1900, t.mon + 1, t.mday⟩

/-- The time that is a number of seconds after 1970-01-01, in the years 1900 to 9999. -/
structure IsTime (t : Tm) (time : Int) : Prop where
  year : 0 ≤ t.year ∧ t.year ≤ 8099
  date : t.date.Exists
  clock : t.hour ≤ 23 ∧ t.min ≤ 59 ∧ t.sec ≤ 59
  seconds : time = t.date.dayNumber * 86400 + t.hour * 3600 + t.min * 60 + t.sec

end Tm

/-! ### Texts -/

/-- The last `k` decimal digits. -/
def fixedDigits : Nat → Nat → List Byte
  | 0, _ => []
  | k + 1, n => digitByte (n / 10 ^ k % 10) :: fixedDigits k n

/-- `YYYY-MM-DD`. -/
def dateText (year month day : Nat) : List Byte :=
  fixedDigits 4 year ++ 45 :: (fixedDigits 2 month ++ 45 :: fixedDigits 2 day)

/-- `YYYYMMDD`. -/
def isoText (year month day : Nat) : List Byte :=
  fixedDigits 4 year ++ (fixedDigits 2 month ++ fixedDigits 2 day)

/-- `HH:MM:SS`. -/
def timeText (hour min sec : Nat) : List Byte :=
  fixedDigits 2 hour ++ 58 :: (fixedDigits 2 min ++ 58 :: fixedDigits 2 sec)

def Tm.text (t : Tm) : List Byte :=
  dateText (t.year + 1900).toNat (t.mon + 1) t.mday ++ 32 :: timeText t.hour t.min t.sec

/-- Reads the digits of a number on. -/
def valueFrom (v : Nat) (digits : List Byte) : Nat :=
  digits.foldl (fun v b => v * 10 + (b.toNat - 48)) v

/-- A number in a range, of at most `n` digits. -/
structure IsNumber (lo hi n v : Nat) (digits : List Byte) : Prop where
  ne_nil : digits ≠ []
  length_le : digits.length ≤ n
  isDigit : ∀ b ∈ digits, IsDigit b
  value : valueFrom 0 digits = v
  range : lo ≤ v ∧ v ≤ hi

/-- A text starts with a number, maybe after white space. -/
def AnyNumber (lo hi n : Nat) (s : List Byte) (v : Nat) (rest : List Byte) : Prop :=
  ∃ spaces digits, s = spaces ++ (digits ++ rest) ∧ (∀ b ∈ spaces, isSpace b) ∧
    IsNumber lo hi n v digits

/-- A text starts with a number that ends there. -/
def PlainNumber (lo hi n : Nat) (s : List Byte) (v : Nat) (rest : List Byte) : Prop :=
  ∃ digits, s = digits ++ rest ∧ IsNumber lo hi n v digits ∧ ∀ b ∈ rest.head?, ¬ IsDigit b

/-- A text starts with a time in the form `%Y-%m-%d %H:%M:%S`; `number` says how its numbers are
written. -/
def DateTime (number : Nat → Nat → Nat → List Byte → Nat → List Byte → Prop) (maxSec : Nat)
    (s : List Byte) (t : Tm) : Prop :=
  ∃ (year : Nat) (s₁ s₂ s₃ s₄ s₅ s₆ : List Byte), t.year = year - 1900 ∧
    number 0 9999 4 s year (45 :: s₁) ∧ number 1 12 2 s₁ (t.mon + 1) (45 :: s₂) ∧
    number 1 31 2 s₂ t.mday s₃ ∧ number 0 23 2 (s₃.dropWhile isSpace) t.hour (58 :: s₄) ∧
    number 0 59 2 s₄ t.min (58 :: s₅) ∧ number 0 maxSec 2 s₅ t.sec s₆

/-- What is plainly written, up to a leap second. -/
def Written : List Byte → Tm → Prop := DateTime PlainNumber 60

/-- What may be read; some libraries have two leap seconds. -/
def Reads : List Byte → Tm → Prop := DateTime AnyNumber 61

/-! ### The library -/

/-- The functions that are called; `none` is a null pointer or an exception. A
`boost::gregorian::date` is its `year_month_day`. -/
structure TimeLib where
  /-- `gmtime_r`. -/
  gmtime : Int → Option Tm
  /-- `mktime(&t) + t.tm_gmtoff`. -/
  timegm : Tm → Int
  /-- `strftime` with `%Y-%m-%d %H:%M:%S`. -/
  strftime : Tm → List Byte
  /-- `strptime` with `%Y-%m-%d %H:%M:%S`. -/
  strptime : List Byte → Option Tm
  /-- `boost::gregorian::date(year, month, day)`. -/
  date : Nat → Nat → Nat → Option CivilDate
  /-- `boost::gregorian::to_tm`. -/
  toTm : CivilDate → Tm
  fromSimpleString : List Byte → Option CivilDate
  dateFromIsoString : List Byte → Option CivilDate

/-- The dates of `boost::gregorian`. -/
structure IsGregorian (d : CivilDate) : Prop where
  year : 1400 ≤ d.year ∧ d.year ≤ 9999
  exists_ : d.Exists

/-- What is documented. -/
structure TimeLib.Lawful (lib : TimeLib) : Prop where
  gmtime : ∀ time, yearStart 1900 ≤ time / 86400 → time / 86400 < yearStart 10000 →
    ∃ t, lib.gmtime time = some t ∧ t.IsTime time
  timegm : ∀ t time, t.IsTime time → lib.timegm t = time
  strftime : ∀ t time, t.IsTime time → lib.strftime t = t.text
  strptime : ∀ s t, Written s t → lib.strptime s = some t
  reads : ∀ s t, lib.strptime s = some t → Reads s t
  date : ∀ d, IsGregorian d → lib.date d.year.toNat d.month d.day = some d
  toTm : ∀ d, IsGregorian d → lib.toTm d = ⟨d.year - 1900, d.month - 1, d.day, 0, 0, 0⟩
  fromSimpleString : ∀ d, IsGregorian d →
    lib.fromSimpleString (dateText d.year.toNat d.month d.day) = some d
  dateFromIsoString : ∀ d, IsGregorian d →
    lib.dateFromIsoString (isoText d.year.toNat d.month d.day) = some d
  fromSimpleString_some : ∀ s d, lib.fromSimpleString s = some d → IsGregorian d
  dateFromIsoString_some : ∀ s d, lib.dateFromIsoString s = some d → IsGregorian d

/-! ### Numbers of a fixed width -/

section Numbers

variable {lo hi k n v : Nat} {b : Byte} {s rest : List Byte}

theorem length_fixedDigits (k n : Nat) : (fixedDigits k n).length = k := by
  induction k with
  | zero => rfl
  | succ k ih => simp [fixedDigits, ih]

theorem isDigit_of_mem_fixedDigits (h : b ∈ fixedDigits k n) : IsDigit b := by
  induction k with
  | zero => cases h
  | succ k ih =>
    rcases mem_cons.mp h with rfl | h
    · exact isDigit_digitByte (Nat.mod_lt _ (by decide))
    · exact ih h

theorem valueFrom_fixedDigits (n k : Nat) : valueFrom (n / 10 ^ k) (fixedDigits k n) = n := by
  induction k with
  | zero => simp [valueFrom, fixedDigits]
  | succ k ih =>
    have hlt : n / 10 ^ k % 10 < 10 := Nat.mod_lt _ (by decide)
    have hdiv : n / 10 ^ (k + 1) * 10 + n / 10 ^ k % 10 = n / 10 ^ k := by
      rw [pow_succ, ← Nat.div_div_eq_div_mul]
      omega
    rw [fixedDigits, valueFrom, foldl_cons, digitByte_toNat hlt, Nat.add_sub_cancel_left, hdiv]
    exact ih

theorem isNumber_fixedDigits (hn : n < 10 ^ (k + 1)) (hlo : lo ≤ n) (hhi : n ≤ hi) :
    IsNumber lo hi (k + 1) n (fixedDigits (k + 1) n) := by
  refine ⟨cons_ne_nil _ _, (length_fixedDigits _ _).le, fun b => isDigit_of_mem_fixedDigits, ?_,
    hlo, hhi⟩
  have h := valueFrom_fixedDigits n (k + 1)
  rwa [Nat.div_eq_of_lt hn] at h

theorem not_isSpace_of_isDigit (h : IsDigit b) : isSpace b = false := by
  unfold IsDigit at h
  simp only [isSpace, Bool.or_eq_false_iff, Bool.and_eq_false_iff, decide_eq_false_iff_not]
  constructor
  · rintro rfl
    exact absurd h.1 (by decide)
  · exact .inr fun hle => absurd h.1 (Nat.not_le.mpr (Nat.lt_of_le_of_lt hle (by decide)))

theorem dropWhile_isSpace_fixedDigits :
    (fixedDigits (k + 1) n ++ rest).dropWhile isSpace = fixedDigits (k + 1) n ++ rest := by
  have hdigit : IsDigit (digitByte (n / 10 ^ k % 10)) :=
    isDigit_digitByte (Nat.mod_lt _ (by decide))
  exact dropWhile_cons_of_neg (by simp [not_isSpace_of_isDigit hdigit])

/-- The text of a date and a time is plainly written. -/
theorem written_text {y m d h mi sec : Nat} (hy : y ≤ 9999) (hm : 1 ≤ m) (hm' : m ≤ 12)
    (hd : 1 ≤ d) (hd' : d ≤ 31) (hh : h ≤ 23) (hmi : mi ≤ 59) (hs : sec ≤ 60) :
    Written (dateText y m d ++ 32 :: timeText h mi sec) ⟨y - 1900, m - 1, d, h, mi, sec⟩ := by
  have hplain {lo hi k n : Nat} {rest} (hn : n < 10 ^ (k + 1)) (hlo : lo ≤ n) (hhi : n ≤ hi)
      (hrest : ∀ b ∈ rest.head?, ¬ IsDigit b) :
      PlainNumber lo hi (k + 1) (fixedDigits (k + 1) n ++ rest) n rest :=
    ⟨_, rfl, isNumber_fixedDigits hn hlo hhi, hrest⟩
  refine ⟨y, fixedDigits 2 m ++ 45 :: (fixedDigits 2 d ++ 32 :: timeText h mi sec),
    fixedDigits 2 d ++ 32 :: timeText h mi sec, 32 :: timeText h mi sec,
    fixedDigits 2 mi ++ 58 :: fixedDigits 2 sec, fixedDigits 2 sec, [], rfl, ?_, ?_, ?_, ?_, ?_, ?_⟩
  · rw [dateText, append_assoc, cons_append, append_assoc, cons_append]
    exact hplain (by omega) (Nat.zero_le _) hy (by simp [IsDigit])
  · rw [Nat.sub_add_cancel hm]
    exact hplain (by omega) hm hm' (by simp [IsDigit])
  · exact hplain (by omega) hd hd' (by simp [IsDigit])
  · rw [dropWhile_cons_of_pos (by decide), timeText, dropWhile_isSpace_fixedDigits]
    exact hplain (by omega) (Nat.zero_le _) hh (by simp [IsDigit])
  · exact hplain (by omega) (Nat.zero_le _) hmi (by simp [IsDigit])
  · have h : PlainNumber 0 60 2 (fixedDigits 2 sec ++ []) sec [] :=
      hplain (by omega) (Nat.zero_le _) hs (by simp)
    rwa [append_nil] at h

end Numbers

/-- The text of a time is plainly written. -/
theorem Tm.IsTime.written {t : Tm} {time : Int} (h : t.IsTime time) : Written t.text t := by
  obtain ⟨⟨hy, hy'⟩, ⟨hm, hm', hd, hd'⟩, ⟨hh, hmi, hs⟩, -⟩ := h
  have hday := daysInMonth_le t.date.year t.date.month
  have htext := written_text (by omega : (t.year + 1900).toNat ≤ 9999) hm hm' hd
    (hd'.trans hday) hh hmi (hs.trans (by decide))
  have hyear : (((t.year + 1900).toNat : Int) - 1900) = t.year := by omega
  rwa [hyear] at htext

/-! ### A library -/

namespace CalendarLib

/-- The time of some seconds. -/
def gmtime (time : Int) : Tm :=
  let d := civil (time / 86400)
  let s := (time % 86400).toNat
  ⟨d.year - 1900, d.month - 1, d.day, s / 3600, s / 60 % 60, s % 60⟩

/-- The digits after the first one: at most `n`, as long as the value can stay in range. -/
def moreDigits (hi : Nat) : Nat → Nat → List Byte → Nat × List Byte
  | n + 1, v, b :: s =>
    if v * 10 ≤ hi ∧ IsDigit b then moreDigits hi n (v * 10 + (b.toNat - 48)) s
    else (v, b :: s)
  | _, v, s => (v, s)

/-- A number of at most `n` digits in a range, after spaces. -/
def getNumber (lo hi n : Nat) (s : List Byte) : Option (Nat × List Byte) :=
  match s.dropWhile (· = 32) with
  | [] => none
  | b :: s =>
    let (v, s) := moreDigits hi (n - 1) (b.toNat - 48) s
    if IsDigit b ∧ lo ≤ v ∧ v ≤ hi then some (v, s) else none

def matchChar (c : Byte) : List Byte → Option (List Byte)
  | b :: s => if b = c then some s else none
  | [] => none

def strptime (s : List Byte) : Option Tm := do
  let (year, s) ← getNumber 0 9999 4 s
  let s ← matchChar 45 s
  let (month, s) ← getNumber 1 12 2 s
  let s ← matchChar 45 s
  let (mday, s) ← getNumber 1 31 2 s
  let (hour, s) ← getNumber 0 23 2 (s.dropWhile isSpace)
  let s ← matchChar 58 s
  let (min, s) ← getNumber 0 59 2 s
  let s ← matchChar 58 s
  let (sec, _) ← getNumber 0 61 2 s
  return ⟨year - 1900, month - 1, mday, hour, min, sec⟩

def date (year month day : Nat) : Option CivilDate :=
  let d : CivilDate := ⟨year, month, day⟩
  if 1400 ≤ year ∧ year ≤ 9999 ∧ d.Exists then some d else none

/-- The date that is written in a text, with the month at `i` and the day at `j`. -/
def parseDate (text : Nat → Nat → Nat → List Byte) (i j : Nat) (s : List Byte) :
    Option CivilDate :=
  let year := valueFrom 0 (s.take 4)
  let month := valueFrom 0 ((s.drop i).take 2)
  let day := valueFrom 0 ((s.drop j).take 2)
  if s = text year month day then date year month day else none

end CalendarLib

open CalendarLib in
def calendarLib : TimeLib where
  gmtime time := some (gmtime time)
  timegm t := t.date.dayNumber * 86400 + t.hour * 3600 + t.min * 60 + t.sec
  strftime := Tm.text
  strptime := strptime
  date := date
  toTm d := ⟨d.year - 1900, d.month - 1, d.day, 0, 0, 0⟩
  fromSimpleString := parseDate dateText 5 8
  dateFromIsoString := parseDate isoText 4 6

namespace CalendarLib

section Strptime

variable {lo hi n v : Nat} {b : Byte} {s rest : List Byte}

theorem moreDigits_spec (hi n v : Nat) (s : List Byte) :
    ∃ digits, s = digits ++ (moreDigits hi n v s).2 ∧ digits.length ≤ n ∧
      (∀ b ∈ digits, IsDigit b) ∧ valueFrom v digits = (moreDigits hi n v s).1 := by
  induction n generalizing v s with
  | zero => exact ⟨[], by simp [moreDigits, valueFrom]⟩
  | succ n ih =>
    cases s with
    | nil => exact ⟨[], by simp [moreDigits, valueFrom]⟩
    | cons b s =>
      rw [moreDigits]
      split
      case isTrue h =>
        obtain ⟨digits, hs, hlen, hdigits, hvalue⟩ := ih (v * 10 + (b.toNat - 48)) s
        refine ⟨b :: digits, congrArg (b :: ·) hs, Nat.succ_le_succ hlen, ?_, hvalue⟩
        exact forall_mem_cons.mpr ⟨h.2, hdigits⟩
      case isFalse => exact ⟨[], by simp [valueFrom]⟩

theorem le_valueFrom (v : Nat) (digits : List Byte) : v ≤ valueFrom v digits := by
  induction digits generalizing v with
  | nil => exact Nat.le_refl v
  | cons b digits ih =>
    have := ih (v * 10 + (b.toNat - 48))
    rw [valueFrom, foldl_cons]
    unfold valueFrom at this
    omega

/-- All the digits are read when the number is in range and ends. -/
theorem moreDigits_append {digits : List Byte} (hlen : digits.length ≤ n)
    (hdigits : ∀ b ∈ digits, IsDigit b) (hrange : valueFrom v digits ≤ hi)
    (hrest : ∀ b ∈ rest.head?, ¬ IsDigit b) :
    moreDigits hi n v (digits ++ rest) = (valueFrom v digits, rest) := by
  induction digits generalizing n v with
  | nil =>
    cases n with
    | zero => rfl
    | succ n =>
      cases rest with
      | nil => rfl
      | cons b rest => exact if_neg fun h => hrest b rfl h.2
  | cons b digits ih =>
    obtain ⟨hb, hdigits⟩ := forall_mem_cons.mp hdigits
    cases n with
    | zero => exact absurd hlen (Nat.not_succ_le_zero _)
    | succ n =>
      have hle := le_valueFrom (v * 10 + (b.toNat - 48)) digits
      have hvalue : valueFrom v (b :: digits) = valueFrom (v * 10 + (b.toNat - 48)) digits := rfl
      rw [hvalue] at hrange ⊢
      rw [cons_append, moreDigits, if_pos ⟨by omega, hb⟩]
      exact ih (Nat.le_of_succ_le_succ hlen) hdigits hrange

theorem valueFrom_cons (b : Byte) (digits : List Byte) :
    valueFrom 0 (b :: digits) = valueFrom (b.toNat - 48) digits := by
  rw [valueFrom, foldl_cons, Nat.zero_mul, Nat.zero_add, valueFrom]

theorem getNumber_some (hn : 1 ≤ n) (h : getNumber lo hi n s = some (v, rest)) :
    AnyNumber lo hi n s v rest := by
  unfold getNumber at h
  split at h
  · cases h
  · rename_i b s' hdrop
    obtain ⟨⟨hb, hrange⟩, heq⟩ := ite_none_right_eq_some.mp h
    obtain ⟨digits, hs', hlen, hdigits, hvalue⟩ := moreDigits_spec hi (n - 1) (b.toNat - 48) s'
    have hpair := Option.some.inj heq
    rw [Prod.mk.injEq] at hpair
    obtain ⟨rfl, rfl⟩ := hpair
    refine ⟨s.takeWhile (· = 32), b :: digits, ?_, ?_, cons_ne_nil _ _, ?_,
      forall_mem_cons.mpr ⟨hb, hdigits⟩, ?_, hrange⟩
    · rw [cons_append, ← hs', ← hdrop, takeWhile_append_dropWhile]
    · intro c hc
      have hspace : c = 32 := by simpa using all_eq_true.mp all_takeWhile c hc
      rw [hspace]
      decide
    · rw [length_cons]
      omega
    · rw [valueFrom_cons, hvalue]

theorem getNumber_plain (h : PlainNumber lo hi n s v rest) :
    getNumber lo hi n s = some (v, rest) := by
  obtain ⟨digits, rfl, ⟨hne, hlen, hdigits, rfl, hrange⟩, hrest⟩ := h
  cases digits with
  | nil => exact absurd rfl hne
  | cons b digits =>
    obtain ⟨hb, hdigits⟩ := forall_mem_cons.mp hdigits
    have hspace : ¬ b = 32 := by
      rintro rfl
      exact absurd hb.1 (by decide)
    rw [length_cons] at hlen
    rw [valueFrom_cons] at hrange ⊢
    rw [cons_append, getNumber, dropWhile_cons_of_neg (by simpa using hspace)]
    simp only [moreDigits_append (by omega : digits.length ≤ n - 1) hdigits hrange.2 hrest]
    exact if_pos ⟨hb, hrange⟩

theorem matchChar_eq_some {c : Byte} {rest : List Byte} :
    matchChar c s = some rest ↔ s = c :: rest := by
  cases s with
  | nil => simp [matchChar]
  | cons b s => simp [matchChar]

theorem strptime_written {t : Tm} (h : Written s t) : strptime s = some t := by
  obtain ⟨year, s₁, s₂, s₃, s₄, s₅, s₆, hyear, h₁, h₂, h₃, h₄, h₅, h₆⟩ := h
  have hsec : getNumber 0 61 2 s₅ = some (t.sec, s₆) := by
    obtain ⟨digits, hs, hnumber, hrest⟩ := h₆
    exact getNumber_plain ⟨digits, hs, { hnumber with
      range := ⟨hnumber.range.1, hnumber.range.2.trans (by decide)⟩ }, hrest⟩
  simp [strptime, getNumber_plain h₁, getNumber_plain h₂, getNumber_plain h₃, getNumber_plain h₄,
    getNumber_plain h₅, hsec, matchChar, ← hyear]

theorem reads_of_strptime {t : Tm} (h : strptime s = some t) : Reads s t := by
  simp only [strptime, Option.bind_eq_bind, Option.bind_eq_some_iff, matchChar_eq_some,
    Prod.exists] at h
  obtain ⟨year, _, h₁, s₁, rfl, month, _, h₂, s₂, rfl, mday, s₃, h₃, hour, _, h₄, s₄, rfl, min, _,
    h₅, s₅, rfl, sec, s₆, h₆, heq⟩ := h
  obtain rfl := Option.some.inj heq
  have hmonth := getNumber_some (by decide) h₂
  obtain ⟨_, _, -, -, hnumber⟩ := hmonth
  refine ⟨year, s₁, s₂, s₃, s₄, s₅, s₆, rfl, getNumber_some (by decide) h₁, ?_,
    getNumber_some (by decide) h₃, getNumber_some (by decide) h₄, getNumber_some (by decide) h₅,
    getNumber_some (by decide) h₆⟩
  simp only [Nat.sub_add_cancel hnumber.range.1]
  exact getNumber_some (by decide) h₂

end Strptime

section Gregorian

variable {d : CivilDate} {s : List Byte} {text : Nat → Nat → Nat → List Byte} {i j : Nat}

theorem date_eq (h : IsGregorian d) : date d.year.toNat d.month d.day = some d := by
  obtain ⟨⟨hy, hy'⟩, hexists⟩ := h
  have hyear : ((d.year.toNat : Int)) = d.year := by omega
  rw [date, hyear]
  exact if_pos ⟨by omega, by omega, hexists⟩

theorem isGregorian_of_parseDate (h : parseDate text i j s = some d) : IsGregorian d := by
  simp only [parseDate, ite_none_right_eq_some, date] at h
  obtain ⟨-, ⟨hy, hy', hexists⟩, heq⟩ := h
  obtain rfl := Option.some.inj heq
  exact ⟨⟨by simpa using hy, by simpa using hy'⟩, hexists⟩

/-- The text of a date is read. -/
theorem parseDate_eq {r₁ r₂ r₃} (h : IsGregorian d)
    (h₁ : text d.year.toNat d.month d.day = fixedDigits 4 d.year.toNat ++ r₁)
    (h₂ : (text d.year.toNat d.month d.day).drop i = fixedDigits 2 d.month ++ r₂)
    (h₃ : (text d.year.toNat d.month d.day).drop j = fixedDigits 2 d.day ++ r₃) :
    parseDate text i j (text d.year.toNat d.month d.day) = some d := by
  have hvalue {k n : Nat} {r : List Byte} (hn : n < 10 ^ k) :
      valueFrom 0 ((fixedDigits k n ++ r).take k) = n := by
    have hdigits := valueFrom_fixedDigits n k
    rw [Nat.div_eq_of_lt hn] at hdigits
    rwa [take_left' (length_fixedDigits k n)]
  obtain ⟨⟨-, hy⟩, hm, hm', hd, hd'⟩ := id h
  have hday := daysInMonth_le d.year d.month
  unfold parseDate
  rw [h₂, h₃, hvalue (by omega), hvalue (by omega), h₁, hvalue (by omega), ← h₁]
  dsimp only
  rw [if_pos rfl, date_eq h]

end Gregorian

/-- A time in the years 1900 to 9999. -/
theorem isTime_gmtime {time : Int} (hlo : yearStart 1900 ≤ time / 86400)
    (hhi : time / 86400 < yearStart 10000) : (gmtime time).IsTime time := by
  obtain ⟨hexists, hday⟩ := dayNumber_civil (time / 86400)
  obtain ⟨hy, hy'⟩ := CivilDate.year_bounds hexists (hday.symm ▸ hlo) (hday.symm ▸ hhi)
  have hdate : (gmtime time).date = civil (time / 86400) := by
    simp only [gmtime, Tm.date, Int.sub_add_cancel, Nat.sub_add_cancel hexists.1]
  refine ⟨?_, hdate ▸ hexists, ?_, ?_⟩
  · simp only [gmtime]
    omega
  · simp only [gmtime]
    omega
  · rw [hdate, hday]
    simp only [gmtime]
    omega

end CalendarLib

open CalendarLib in
theorem calendarLib_lawful : calendarLib.Lawful where
  gmtime _ hlo hhi := ⟨_, rfl, isTime_gmtime hlo hhi⟩
  timegm _ _ h := h.seconds.symm
  strftime _ _ _ := rfl
  strptime _ _ h := strptime_written h
  reads _ _ h := reads_of_strptime h
  date _ h := date_eq h
  toTm _ _ := rfl
  fromSimpleString _ h := parseDate_eq h rfl rfl (append_nil _).symm
  dateFromIsoString _ h := parseDate_eq h rfl rfl (append_nil _).symm
  fromSimpleString_some _ _ h := isGregorian_of_parseDate h
  dateFromIsoString_some _ _ h := isGregorian_of_parseDate h

end HybridSE.Udf
