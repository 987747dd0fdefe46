import HybridSE.Udf.TimeLib

/-!
# HybridSE.Udf.Dates

Model of the conversions between timestamps, dates and strings of `src/udf/udf.cc`, with `Date` of
`include/codec/type_codec.h`, over a library for times and dates (`TimeLib`).

A timestamp is converted to seconds by a division that rounds towards zero: `conversions_iff` says
that before the epoch this is right for whole seconds only. `dateParsing_iff` is about the three
forms of a date: with a time it is read by `strptime`, which takes more than the others.
-/

namespace HybridSE.Udf

open List Option Lib

/-! ### Dates -/

/-- `Date(year, month, day)`: the number `date_`. -/
def Date.new (year : Int) (month day : Nat) : Nat :=
  if year < 1900 ∨ year > 9999 ∨ month < 1 ∨ month > 12 ∨ day < 1 ∨ day > 31 then 0
  else (year - 1900).toNat <<< 16 ||| (month - 1) <<< 8 ||| day

/-- `Date::Decode`; a `date_` is never negative. -/
def Date.decode (date : Nat) : Nat × Nat × Nat :=
  (1900 + date >>> 8 >>> 8, 1 + (date >>> 8 &&& 0xFF), date &&& 0xFF)

def tzOffset : Int := 8 * 3600000

/-- The seconds of a timestamp in the zone of the functions. -/
def localTime (ts : Int) : Int := (ts + tzOffset).tdiv 1000

def civilToDate (d : CivilDate) : Option Nat :=
  if d.year < 1900 then none else some (Date.new d.year d.month d.day)

namespace TimeLib

variable (lib : TimeLib)

/-! Without a result of `gmtime_r` the fields of the time are not set. -/

def dayofmonth (ts : Int) : Option Nat := (lib.gmtime (localTime ts)).map fun t => t.mday

def month (ts : Int) : Option Nat := (lib.gmtime (localTime ts)).map fun t => t.mon + 1

def year (ts : Int) : Option Int := (lib.gmtime (localTime ts)).map fun t => t.year + 1900

/-- `timestamp_to_date`; `none` is NULL. -/
def timestampToDate (ts : Int) : Option Nat :=
  (lib.gmtime (localTime ts)).map fun t => Date.new (t.year + 1900) (t.mon + 1) t.mday

/-- `timestamp_to_string`. -/
def timestampToString (ts : Int) : Option (List Byte) :=
  (lib.gmtime (localTime ts)).map lib.strftime

def tmToTimestamp (t : Tm) : Option Int :=
  if t.year < 0 then none else some (lib.timegm t * 1000 - tzOffset)

/-- `string_to_timestamp`. -/
def stringToTimestamp (s : List Byte) : Option Int :=
  if s.length = 19 then lib.strptime s >>= lib.tmToTimestamp
  else if s.length = 10 then lib.fromSimpleString s >>= fun d => lib.tmToTimestamp (lib.toTm d)
  else if s.length = 8 then lib.dateFromIsoString s >>= fun d => lib.tmToTimestamp (lib.toTm d)
  else none

/-- `date_to_timestamp`. -/
def dateToTimestamp (date : Nat) : Option Int :=
  let (year, month, day) := Date.decode date
  if month = 0 ∨ month > 12 ∨ day = 0 ∨ day > 31 then none
  else lib.date year month day >>= fun d => lib.tmToTimestamp (lib.toTm d)

/-- `string_to_date`. -/
def stringToDate (s : List Byte) : Option Nat :=
  if s.length = 19 then
    lib.strptime s >>= fun t =>
      if t.year < 0 then none else some (Date.new (t.year + 1900) (t.mon + 1) t.mday)
  else if s.length = 10 then lib.fromSimpleString s >>= civilToDate
  else if s.length = 8 then lib.dateFromIsoString s >>= civilToDate
  else none

end TimeLib

/-! ### Dates and their numbers -/

section Civil

variable {d : CivilDate}

/-- The dates that the functions deal with. -/
structure Supported (d : CivilDate) : Prop where
  year : 1900 ≤ d.year ∧ d.year ≤ 9999
  exists_ : d.Exists

theorem Supported.isGregorian (h : Supported d) : IsGregorian d :=
  ⟨⟨by linarith [h.year.1], h.year.2⟩, h.exists_⟩

theorem Tm.IsTime.supported {t : Tm} {time : Int} (h : t.IsTime time) : Supported t.date := by
  refine ⟨?_, h.date⟩
  have hyear := h.year
  simp only [Tm.date]
  omega

theorem Supported.bounds (h : Supported d) :
    ∃ y : Nat, d.year = y ∧ 1900 ≤ y ∧ y ≤ 9999 ∧ 1 ≤ d.month ∧ d.month ≤ 12 ∧ 1 ≤ d.day ∧
      d.day ≤ 31 := by
  obtain ⟨⟨hy, hy'⟩, hm, hm', hd, hd'⟩ := h
  have := daysInMonth_le d.year d.month
  exact ⟨d.year.toNat, by omega, by omega, by omega, hm, hm', hd, by omega⟩

theorem decode_new (h : Supported d) :
    Date.decode (Date.new d.year d.month d.day) = (d.year.toNat, d.month, d.day) := by
  obtain ⟨y, hyear, hy, hy', hm, hm', hd, hd'⟩ := h.bounds
  rw [hyear, Date.new, if_neg (by omega), show ((y : Int) - 1900).toNat = y - 1900 by omega]
  have hhigh : (y - 1900) <<< 16 ||| (d.month - 1) <<< 8 =
      ((y - 1900) * 256 + (d.month - 1)) <<< 8 := by
    rw [← Nat.shiftLeft_add_eq_or_of_lt (by rw [Nat.shiftLeft_eq]; omega)]
    omega
  rw [hhigh, ← Nat.shiftLeft_add_eq_or_of_lt (by omega)]
  simp only [Date.decode,
    show 0xFF = 2 ^ 8 - 1 from rfl, Nat.and_two_pow_sub_one_eq_mod, Prod.mk.injEq]
  omega

theorem Supported.mk_toNat (h : Supported d) :
    (⟨(d.year.toNat : Int), d.month, d.day⟩ : CivilDate) = d := by
  obtain ⟨y, hyear, -⟩ := h.bounds
  rw [hyear, Int.toNat_natCast, ← hyear]

variable {lib : TimeLib} (hlib : lib.Lawful)

include hlib

theorem tmToTimestamp_toTm (h : Supported d) :
    lib.tmToTimestamp (lib.toTm d) = some (d.dayNumber * 86400000 - tzOffset) := by
  obtain ⟨y, hyear, hy, hy', hm, -⟩ := h.bounds
  have hdate : (lib.toTm d).date = d := by
    rw [hlib.toTm d h.isGregorian, Tm.date, Int.sub_add_cancel, Nat.sub_add_cancel hm]
  have htime : (lib.toTm d).IsTime (d.dayNumber * 86400) := by
    refine ⟨?_, hdate.symm ▸ h.exists_, ?_, ?_⟩ <;> rw [hlib.toTm d h.isGregorian] at *
    · simp only
      omega
    · exact ⟨Nat.zero_le _, Nat.zero_le _, Nat.zero_le _⟩
    · simp [hdate]
  rw [TimeLib.tmToTimestamp, if_neg (Int.not_lt.mpr htime.year.1), hlib.timegm _ _ htime]
  simp only [Option.some.injEq]
  omega

theorem dateToTimestamp_new (h : Supported d) :
    lib.dateToTimestamp (Date.new d.year d.month d.day) =
      some (d.dayNumber * 86400000 - tzOffset) := by
  obtain ⟨y, -, -, -, hm, hm', hd, hd'⟩ := h.bounds
  rw [TimeLib.dateToTimestamp, decode_new h]
  simp only
  rw [if_neg (by omega), hlib.date d h.isGregorian]
  exact tmToTimestamp_toTm hlib h

theorem stringToTimestamp_strftime {t : Tm} {time : Int} (h : t.IsTime time) :
    lib.stringToTimestamp (lib.strftime t) = some (time * 1000 - tzOffset) := by
  rw [hlib.strftime t time h, TimeLib.stringToTimestamp, hlib.strptime _ _ h.written]
  refine (if_pos rfl).trans ((if_neg (Int.not_lt.mpr h.year.1)).trans ?_)
  rw [hlib.timegm t time h]

end Civil

/-- The functions describe the day and the second of a timestamp. -/
structure Conversions (lib : TimeLib) (ts : Int) : Prop where
  date : ∃ d : CivilDate, d.Exists ∧ d.dayNumber = (ts + tzOffset) / 86400000 ∧
    (lib.timestampToDate ts).map Date.decode = some (d.year.toNat, d.month, d.day) ∧
    lib.year ts = some d.year ∧ lib.month ts = some d.month ∧ lib.dayofmonth ts = some d.day
  start : ∃ start, lib.timestampToDate ts >>= lib.dateToTimestamp = some start ∧ start ≤ ts ∧
    ts < start + 86400000
  string : lib.timestampToString ts >>= lib.stringToTimestamp = some (ts / 1000 * 1000)

/-- From 1900 to 9999 the conversions are right exactly from the epoch on and for whole seconds. -/
theorem conversions_iff {lib : TimeLib} (hlib : lib.Lawful) {ts : Int}
    (hlo : yearStart 1900 ≤ (ts + tzOffset) / 86400000)
    (hhi : (ts + tzOffset) / 86400000 < yearStart 10000) :
    Conversions lib ts ↔ 0 ≤ ts + tzOffset ∨ 1000 ∣ ts := by
  have hend : yearStart 10000 = 2932897 := by decide
  have htz : tzOffset = 28800000 := rfl
  have htime : localTime ts = (ts + tzOffset) / 1000 +
      if 0 ≤ ts + tzOffset ∨ 1000 ∣ ts then 0 else 1 := by
    have hdvd : 1000 ∣ ts + tzOffset ↔ 1000 ∣ ts := by omega
    rw [localTime, Int.tdiv_eq_ediv]
    simp only [hdvd]
    rfl
  obtain ⟨t, ht, his⟩ := hlib.gmtime (localTime ts) (by split at htime <;> omega)
    (by split at htime <;> omega)
  have hstring : lib.timestampToString ts >>= lib.stringToTimestamp =
      some (localTime ts * 1000 - tzOffset) := by
    rw [TimeLib.timestampToString, ht]
    exact stringToTimestamp_strftime hlib his
  constructor
  · intro h
    have heq := hstring.symm.trans h.string
    by_contra hcond
    simp only [Option.some.injEq] at heq
    omega
  · intro hcond
    have hsup := his.supported
    have hseconds := his.seconds
    have hclock := his.clock
    have hdate : lib.timestampToDate ts = some (Date.new t.date.year t.date.month t.date.day) := by
      rw [TimeLib.timestampToDate, ht]
      rfl
    rw [if_pos hcond] at htime
    refine ⟨⟨t.date, his.date, by omega, ?_, ?_⟩, ⟨t.date.dayNumber * 86400000 - tzOffset, ?_, ?_⟩,
      hstring.trans ?_⟩
    · rw [hdate, Option.map_some, decode_new hsup]
    · simp only [TimeLib.year, TimeLib.month, TimeLib.dayofmonth, ht]
      exact ⟨rfl, rfl, rfl⟩
    · rw [hdate]
      exact dateToTimestamp_new hlib hsup
    · omega
    · congr 1
      omega

/-- The epoch itself. -/
theorem conversions_epoch : Conversions calendarLib 0 :=
  (conversions_iff calendarLib_lawful (by decide) (by decide)).mpr (.inl (by decide))

/-- One millisecond before 1970-01-01 in the zone of the functions. -/
theorem not_conversions_before : ¬ Conversions calendarLib (-28800001) := by
  intro h
  exact absurd h.string (by decide)

/-! ### The forms of a date -/

/-- The text of an existing date from 1900 on. -/
def ExistingDate (s : List Byte) : Prop :=
  ∃ d, Supported d ∧ s = dateText d.year.toNat d.month d.day

/-- A valid `HH:MM:SS`. -/
def ValidTime (s : List Byte) : Prop :=
  ∃ hour min sec, hour < 24 ∧ min < 60 ∧ sec < 60 ∧ s = timeText hour min sec

/-- The three forms of the date `D`, the first one with the time `T`. -/
structure DateParsing (lib : TimeLib) (D T : List Byte) : Prop where
  nonNull_iff : (lib.stringToDate (D ++ 32 :: T)).isSome ↔ ExistingDate D ∧ ValidTime T
  agree : ∀ date ∈ lib.stringToDate (D ++ 32 :: T), lib.stringToDate D = some date ∧
    lib.stringToDate (D.filter (· ≠ 45)) = some date
  timestamp : lib.stringToTimestamp D = lib.stringToDate D >>= lib.dateToTimestamp
  exists_ : ∀ s ∈ [D ++ 32 :: T, D, D.filter (· ≠ 45)], ∀ date ∈ lib.stringToDate s,
    (⟨(Date.decode date).1, (Date.decode date).2.1, (Date.decode date).2.2⟩ : CivilDate).Exists

theorem civilToDate_eq {d : CivilDate} (h : Supported d) :
    civilToDate d = some (Date.new d.year d.month d.day) :=
  if_neg (Int.not_lt.mpr h.year.1)

theorem filter_dateText {y m day : Nat} :
    (dateText y m day).filter (· ≠ 45) = isoText y m day := by
  have hdigits : ∀ k n, (fixedDigits k n).filter (· ≠ 45) = fixedDigits k n := by
    intro k n
    refine filter_eq_self.mpr fun b hb => decide_eq_true ?_
    rintro rfl
    exact absurd (isDigit_of_mem_fixedDigits hb).1 (by decide)
  simp only [dateText, filter_append, filter_cons, hdigits]
  rfl

section Forms

variable {lib : TimeLib} {d : CivilDate} {s : List Byte}

/-- The form with a time, as `strptime` reads it. -/
theorem stringToDate_long {date} (hs : s.length = 19) : lib.stringToDate s = some date ↔
    ∃ t, lib.strptime s = some t ∧ 0 ≤ t.year ∧
      Date.new (t.year + 1900) (t.mon + 1) t.mday = date := by
  rw [TimeLib.stringToDate, if_pos hs]
  simp [Option.bind_eq_some_iff]

variable (hlib : lib.Lawful)

include hlib

theorem stringToDate_dateText (h : Supported d) :
    lib.stringToDate (dateText d.year.toNat d.month d.day) =
      some (Date.new d.year d.month d.day) := by
  rw [TimeLib.stringToDate, hlib.fromSimpleString d h.isGregorian]
  exact civilToDate_eq h

theorem stringToDate_isoText (h : Supported d) :
    lib.stringToDate (isoText d.year.toNat d.month d.day) =
      some (Date.new d.year d.month d.day) := by
  rw [TimeLib.stringToDate, hlib.dateFromIsoString d h.isGregorian]
  exact civilToDate_eq h

/-- A date that is not read by `strptime` exists. -/
theorem stringToDate_some {date} (hs : s.length ≠ 19) (h : lib.stringToDate s = some date) :
    ∃ d, Supported d ∧ date = Date.new d.year d.month d.day := by
  have hcivil : ∀ {found : Option CivilDate}, (∀ d, found = some d → IsGregorian d) →
      (found >>= civilToDate) = some date →
      ∃ d, Supported d ∧ date = Date.new d.year d.month d.day := by
    intro found hfound h
    obtain ⟨d, hd, hdate⟩ := Option.bind_eq_some_iff.mp h
    obtain ⟨⟨-, hyear⟩, hexists⟩ := hfound d hd
    obtain ⟨hlo, heq⟩ := ite_none_left_eq_some.mp hdate
    exact ⟨d, ⟨⟨by omega, hyear⟩, hexists⟩, (Option.some.inj heq).symm⟩
  unfold TimeLib.stringToDate at h
  rw [if_neg hs] at h
  split at h
  · exact hcivil (hlib.fromSimpleString_some s) h
  · split at h
    · exact hcivil (hlib.dateFromIsoString_some s) h
    · cases h

/-- The form with ten bytes gives the same day as a date and as a timestamp. -/
theorem stringToTimestamp_eq (hs : s.length = 10) :
    lib.stringToTimestamp s = lib.stringToDate s >>= lib.dateToTimestamp := by
  have hne : s.length ≠ 19 := by omega
  simp only [TimeLib.stringToTimestamp, TimeLib.stringToDate, if_neg hne, if_pos hs]
  cases hd : lib.fromSimpleString s with
  | none => rfl
  | some d =>
    have hgregorian := hlib.fromSimpleString_some s d hd
    by_cases hlo : d.year < 1900
    · have hneg : (lib.toTm d).year < 0 := by
        rw [hlib.toTm d hgregorian]
        simp only
        omega
      simp [TimeLib.tmToTimestamp, civilToDate, hlo, hneg]
    · have hsup : Supported d := ⟨⟨by omega, hgregorian.year.2⟩, hgregorian.exists_⟩
      simp [civilToDate_eq hsup, tmToTimestamp_toTm hlib hsup, dateToTimestamp_new hlib hsup]

/-- An existing date with a valid time is read by `strptime`. -/
theorem strptime_of_existing {D T : List Byte} (hD : ExistingDate D) (hT : ValidTime T) :
    ∃ d t, Supported d ∧ D = dateText d.year.toNat d.month d.day ∧
      lib.strptime (D ++ 32 :: T) = some t ∧ 0 ≤ t.year ∧
      Date.new (t.year + 1900) (t.mon + 1) t.mday = Date.new d.year d.month d.day := by
  obtain ⟨d, hd, rfl⟩ := hD
  obtain ⟨h, mi, sec, hh, hmi, hs, rfl⟩ := hT
  obtain ⟨y, hyear, hy, hy', hm, hm', hday, hday'⟩ := hd.bounds
  have hread := hlib.strptime _ _ (written_text (by omega : d.year.toNat ≤ 9999) hm hm' hday hday'
    (by omega : h ≤ 23) (by omega : mi ≤ 59) (by omega : sec ≤ 60))
  refine ⟨d, _, hd, rfl, hread, by simp only; omega, ?_⟩
  rw [Nat.sub_add_cancel hm, hyear, Int.toNat_natCast, Int.sub_add_cancel]

/-- The long form gives the date of its first ten bytes, if `strptime` reads existing dates
only. -/
theorem eq_date_of_long {D T : List Byte} (hs : (D ++ 32 :: T).length = 19)
    (hexisting : ∀ t, lib.strptime (D ++ 32 :: T) = some t → 0 ≤ t.year →
      ExistingDate D ∧ ValidTime T) {date}
    (h : lib.stringToDate (D ++ 32 :: T) = some date) :
    ∃ d, Supported d ∧ D = dateText d.year.toNat d.month d.day ∧
      date = Date.new d.year d.month d.day := by
  obtain ⟨t, ht, hyear, rfl⟩ := (stringToDate_long hs).mp h
  obtain ⟨hdate, htime⟩ := hexisting t ht hyear
  obtain ⟨d, t', hd, htext, ht', -, hnew⟩ := strptime_of_existing hlib hdate htime
  obtain rfl := Option.some.inj (ht.symm.trans ht')
  exact ⟨d, hd, htext, hnew⟩

theorem dateParsing_of_existing {D T : List Byte} (hD : D.length = 10)
    (hs : (D ++ 32 :: T).length = 19)
    (hexisting : ∀ t, lib.strptime (D ++ 32 :: T) = some t → 0 ≤ t.year →
      ExistingDate D ∧ ValidTime T) : DateParsing lib D T where
  nonNull_iff := by
    constructor
    · intro h
      obtain ⟨date, h⟩ := isSome_iff_exists.mp h
      obtain ⟨t, ht, hyear, -⟩ := (stringToDate_long hs).mp h
      exact hexisting t ht hyear
    · intro h
      obtain ⟨d, t, -, -, ht, hyear, -⟩ := strptime_of_existing hlib h.1 h.2
      exact isSome_iff_exists.mpr ⟨_, (stringToDate_long hs).mpr ⟨t, ht, hyear, rfl⟩⟩
  agree := by
    intro date h
    obtain ⟨d, hd, rfl, rfl⟩ := eq_date_of_long hlib hs hexisting h
    rw [filter_dateText]
    exact ⟨stringToDate_dateText hlib hd, stringToDate_isoText hlib hd⟩
  timestamp := stringToTimestamp_eq hlib hD
  exists_ := by
    intro s hmem date h
    have hfilter := length_filter_le (· ≠ 45) D
    obtain ⟨d, hd, rfl⟩ : ∃ d, Supported d ∧ date = Date.new d.year d.month d.day := by
      simp only [mem_cons, not_mem_nil, or_false] at hmem
      obtain rfl | rfl | rfl := hmem
      · obtain ⟨d, hd, -, hnew⟩ := eq_date_of_long hlib hs hexisting h
        exact ⟨d, hd, hnew⟩
      · exact stringToDate_some hlib (by omega) h
      · exact stringToDate_some hlib (by omega) h
    rw [decode_new hd]
    exact hd.mk_toNat.symm ▸ hd.exists_

end Forms

/-- The three forms agree if nothing but an existing date with a valid time can be read as a time
from 1900 on. If a time from 1900 on is plainly written, they agree only if it is one. -/
theorem dateParsing_iff {lib : TimeLib} (hlib : lib.Lawful) {D T : List Byte} (hD : D.length = 10)
    (hT : T.length = 8) :
    (((∃ t, Reads (D ++ 32 :: T) t ∧ 0 ≤ t.year) → ExistingDate D ∧ ValidTime T) →
        DateParsing lib D T) ∧
      ((∃ t, Written (D ++ 32 :: T) t ∧ 0 ≤ t.year) →
        (DateParsing lib D T ↔ ExistingDate D ∧ ValidTime T)) := by
  have hs : (D ++ 32 :: T).length = 19 := by simp [hD, hT]
  constructor
  · intro hcond
    exact dateParsing_of_existing hlib hD hs fun t ht hyear =>
      hcond ⟨t, hlib.reads _ t ht, hyear⟩
  · rintro ⟨t, ht, hyear⟩
    have hread : lib.strptime (D ++ 32 :: T) = some t := hlib.strptime _ t ht
    constructor
    · intro h
      exact h.nonNull_iff.mp
        (isSome_iff_exists.mpr ⟨_, (stringToDate_long hs).mpr ⟨t, hread, hyear, rfl⟩⟩)
    · exact fun h => dateParsing_of_existing hlib hD hs fun _ _ _ => h

/-- The date and the time of the epoch. -/
theorem dateParsing_epoch : DateParsing calendarLib (dateText 1970 1 1) (timeText 0 0 0) :=
  (dateParsing_iff calendarLib_lawful rfl rfl).1 fun _ =>
    ⟨⟨⟨1970, 1, 1⟩, ⟨by decide, by decide⟩, rfl⟩, 0, 0, 0, by decide, by decide, by decide, rfl⟩

/-- The text `2021-02-31 00:00:00`. -/
theorem not_dateParsing_february :
    ¬ DateParsing calendarLib (dateText 2021 2 31) (timeText 0 0 0) := by
  intro h
  have hdate : calendarLib.stringToDate (dateText 2021 2 31 ++ 32 :: timeText 0 0 0) =
      some (Date.new 2021 2 31) := by
    decide
  exact absurd (h.exists_ _ mem_cons_self _ hdate) (by decide)

end HybridSE.Udf
