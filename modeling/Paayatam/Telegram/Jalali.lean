/-
  Paayatam.Telegram.Jalali

  The days a host picks from the calendar: what a button carries, and how the
  step reads it back.

  The zone of Tehran is a parameter: an offset at every instant, between three
  and five hours east, as the zone has had it.  A string of the shape of a day
  is read through `Date.UTC`, which carries a day that does not exist over into
  the next month and takes the first hundred years for the twentieth century;
  `Intl` writes the year without padding.  The strings that stand for the day
  they spell are those of the dates from the year 1000 on
  (`parseIsoDay_faithful_iff`).
-/

import Paayatam.Dates
import Paayatam.Lib.Digits
import Mathlib.Data.List.Basic

namespace Paayatam.Jalali

open Lib Lib.Gregorian

/-- The zone, as `Intl` knows it. -/
structure Tehran where
  offset : Int → Int
  east : ∀ time, 10800000 ≤ offset time
  within : ∀ time, offset time ≤ 18000000

/-- The zone as it has been since 2022: 3:30 the whole year. -/
def Tehran.fixed : Tehran where
  offset := fun _ => 12600000
  east := fun _ => by decide
  within := fun _ => by decide

variable {zone : Tehran} {value : List Char} {time : Int}

/-- The number of the day in Tehran. -/
def Tehran.day (zone : Tehran) (time : Int) : Int := (time + zone.offset time) / MS_PER_DAY

def Tehran.date (zone : Tehran) (time : Int) : Date := ofDayNumber (zone.day time)

/-! ## Days as text -/

def PROBE_HOUR_UTC : Int := 8

def dayAt (year month day : Int) : Option Int := utc year month day PROBE_HOUR_UTC 0 0

/-- A date in `Intl`'s fields: a year, and a month and a day of two digits. -/
def dashed (year : List Char) (date : Date) : List Char :=
  year ++ '-' :: (fixedDigits 2 date.month ++ '-' :: fixedDigits 2 date.day)

/-- `2026-09-06`: what a day button carries, and what the step parses back. -/
def isoDay (zone : Tehran) (time : Int) : List Char :=
  let date := zone.date time
  dashed (Nat.toDigits 10 (numericYear date.year).toNat) date

/-- `/^(\d{4})-(\d{2})-(\d{2})$/`. -/
def isoParts : List Char → Option (List Char × List Char × List Char)
  | [y₁, y₂, y₃, y₄, '-', m₁, m₂, '-', d₁, d₂] =>
    if [y₁, y₂, y₃, y₄, m₁, m₂, d₁, d₂].all Char.isDigit then
      some ([y₁, y₂, y₃, y₄], [m₁, m₂], [d₁, d₂])
    else none
  | _ => none

/-- The instant a picked `YYYY-MM-DD` stands for, or null if it is not one. -/
def parseIsoDay (value : List Char) : Option Int :=
  match isoParts value with
  | none => none
  | some (y, m, d) => dayAt (readDigits y) ((readDigits m : Int) - 1) (readDigits d)

/-- The `YYYY-MM-DD` spelling of a date. -/
def spelling (date : Date) : List Char := dashed (fixedDigits 4 date.year.toNat) date

/-- A string that is the spelling of a date that exists. -/
def IsSpelling (value : List Char) : Prop :=
  ∃ date : Date, 0 ≤ date.year ∧ date.year ≤ 9999 ∧ value = spelling date

/-! ## The shape of a day -/

variable {y m d : List Char} {date : Date}

theorem isoParts_spec (h : isoParts value = some (y, m, d)) :
    value = y ++ '-' :: (m ++ '-' :: d) ∧ (y.length = 4 ∧ m.length = 2 ∧ d.length = 2) ∧
      y.all Char.isDigit = true ∧ m.all Char.isDigit = true ∧ d.all Char.isDigit = true := by
  unfold isoParts at h
  split at h
  · split at h
    · rename_i hdigits
      cases h
      simp only [List.all_cons, List.all_nil, Bool.and_true, Bool.and_eq_true] at hdigits ⊢
      exact ⟨rfl, ⟨rfl, rfl, rfl⟩, by tauto⟩
    · cases h
  · cases h

theorem isoParts_dashed (hlength : y.length = 4 ∧ m.length = 2 ∧ d.length = 2)
    (hy : y.all Char.isDigit = true) (hm : m.all Char.isDigit = true)
    (hd : d.all Char.isDigit = true) :
    isoParts (y ++ '-' :: (m ++ '-' :: d)) = some (y, m, d) := by
  obtain ⟨hy4, hm2, hd2⟩ := hlength
  obtain ⟨y₁, tail, rfl⟩ := List.exists_cons_of_length_eq_add_one hy4
  obtain ⟨y₂, y₃, y₄, rfl⟩ := List.length_eq_three.1 (Nat.succ.inj hy4)
  obtain ⟨m₁, m₂, rfl⟩ := List.length_eq_two.1 hm2
  obtain ⟨d₁, d₂, rfl⟩ := List.length_eq_two.1 hd2
  simp only [List.all_cons, List.all_nil, Bool.and_true, Bool.and_eq_true] at hy hm hd
  simp only [List.cons_append, List.nil_append, isoParts, List.all_cons, List.all_nil, hy, hm, hd,
    Bool.and_true, if_true]

theorem isoParts_spelling (date : Date) : isoParts (spelling date) =
    some (fixedDigits 4 date.year.toNat, fixedDigits 2 date.month, fixedDigits 2 date.day) :=
  isoParts_dashed ⟨length_fixedDigits, length_fixedDigits, length_fixedDigits⟩
    all_isDigit_fixedDigits all_isDigit_fixedDigits all_isDigit_fixedDigits

/-- The numbers in the spelling of a date. -/
theorem readDigits_spelling (hlow : 0 ≤ date.year) (hhigh : date.year ≤ 9999) :
    (readDigits (fixedDigits 4 date.year.toNat) : Int) = date.year ∧
      readDigits (fixedDigits 2 date.month) = date.month ∧
      readDigits (fixedDigits 2 date.day) = date.day := by
  have hmonth := date.month_le
  have hday := date.day_le_31
  refine ⟨?_, readDigits_fixedDigits (by omega), readDigits_fixedDigits (by omega)⟩
  rw [readDigits_fixedDigits (by omega)]
  omega

/-! ## Reading a day back -/

theorem yearStart_bounds {n : Int} (hlow : -1 ≤ n) (hhigh : n ≤ 10010) :
    -719893 ≤ yearStart n ∧ yearStart n ≤ 2936550 := by
  have hfrom : yearStart (-1) ≤ yearStart n := yearStart_strictMono.monotone hlow
  have hto : yearStart n ≤ yearStart 10010 := yearStart_strictMono.monotone hhigh
  unfold yearStart at hfrom hto ⊢
  omega

/-- Whatever the fields, the day is in range. -/
theorem dayAt_isSome {year month day : Int} (hyear : 0 ≤ year ∧ year ≤ 9999)
    (hmonth : -1 ≤ month ∧ month ≤ 98) (hday : 0 ≤ day ∧ day ≤ 99) :
    (dayAt year month day).isSome = true := by
  have hfull : 0 ≤ fullYear year ∧ fullYear year ≤ 9999 := by
    unfold fullYear
    split <;> omega
  have hstart := yearStart_bounds (n := fullYear year + month / 12) (by omega) (by omega)
  have hleap := leapDay_bounds (fullYear year + month / 12)
  have hmono := monthStart_mono hleap.1
  have hfrom : 0 ≤ monthStart (leapDay (fullYear year + month / 12)) (month % 12 + 1).toNat :=
    hmono (Nat.zero_le _)
  have hto : monthStart (leapDay (fullYear year + month / 12)) (month % 12 + 1).toNat ≤
      365 + leapDay (fullYear year + month / 12) :=
    hmono (show (month % 12 + 1).toNat ≤ 13 by omega)
  unfold dayAt utc makeDay MS_PER_DAY makeTime PROBE_HOUR_UTC
  rw [timeClip_of_le (by omega) (by omega)]
  rfl

/-- A string of the shape is taken, whether its day exists or not. -/
theorem parseIsoDay_isSome_iff :
    (parseIsoDay value).isSome = true ↔ (isoParts value).isSome = true := by
  unfold parseIsoDay
  cases hparts : isoParts value with
  | none => exact Iff.rfl
  | some parts =>
      obtain ⟨y, m, d⟩ := parts
      obtain ⟨_, ⟨hy, hm, hd⟩, hydigits, hmdigits, hddigits⟩ := isoParts_spec hparts
      have hyear := readDigits_lt hydigits
      have hmonth := readDigits_lt hmdigits
      have hday := readDigits_lt hddigits
      rw [hy] at hyear
      rw [hm] at hmonth
      rw [hd] at hday
      refine iff_of_true ?_ rfl
      exact dayAt_isSome (by omega) (by omega) (by omega)

/-- The spelling of a date is read as the eighth hour of its day. -/
theorem parseIsoDay_spelling (hlow : 100 ≤ date.year) (hhigh : date.year ≤ 9999) :
    parseIsoDay (spelling date) = some (date.dayNumber * MS_PER_DAY + 28800000) := by
  obtain ⟨hy, hm, hd⟩ := readDigits_spelling (by omega) hhigh
  obtain ⟨hfrom, hto⟩ := date.dayNumber_bounds
  have hstart := yearStart_bounds (n := date.year) (by omega) (by omega)
  have hend := yearStart_bounds (n := date.year + 1) (by omega) (by omega)
  unfold parseIsoDay
  rw [isoParts_spelling]
  dsimp only
  rw [hy, hm, hd]
  unfold dayAt utc
  rw [fullYear_of_le hlow, makeDay_date]
  unfold MS_PER_DAY makeTime PROBE_HOUR_UTC
  exact timeClip_of_le (by omega) (by omega)

/-- The probe is on its own day in Tehran. -/
theorem day_probe (zone : Tehran) (n : Int) : zone.day (n * MS_PER_DAY + 28800000) = n := by
  have heast := zone.east (n * MS_PER_DAY + 28800000)
  have hwithin := zone.within (n * MS_PER_DAY + 28800000)
  unfold Tehran.day MS_PER_DAY at *
  omega

/-! ## Writing a day -/

/-- A day of a year of four digits is written as its date is spelled. -/
theorem isoDay_eq_spelling (hlow : 1000 ≤ (zone.date time).year)
    (hhigh : (zone.date time).year ≤ 9999) : isoDay zone time = spelling (zone.date time) := by
  unfold isoDay spelling
  dsimp only
  rw [numericYear_of_pos (by omega), toDigits_eq_fixedDigits
    (show 10 ^ 3 ≤ (zone.date time).year.toNat by omega) (by omega)]

/-- What is written for a day of a year of four digits is read as that day. -/
theorem parseIsoDay_isoDay (hlow : 1000 ≤ (zone.date time).year)
    (hhigh : (zone.date time).year ≤ 9999) :
    ∃ picked, parseIsoDay (isoDay zone time) = some picked ∧ zone.day picked = zone.day time := by
  refine ⟨_, ?_, day_probe zone (zone.day time)⟩
  rw [isoDay_eq_spelling hlow hhigh, parseIsoDay_spelling (by omega) hhigh, Tehran.date,
    dayNumber_ofDayNumber]

/-- The digits before a dash. -/
theorem takeWhile_dash {rest : List Char} (h : y.all Char.isDigit = true) :
    (y ++ '-' :: rest).takeWhile Char.isDigit = y := by
  rw [List.takeWhile_append_of_pos (List.all_eq_true.1 h),
    List.takeWhile_cons_of_neg (by decide), List.append_nil]

/-- Of four digits before the first dash, a written year is of four digits. -/
theorem le_of_isoDay {rest : List Char} (hdigits : y.all Char.isDigit = true)
    (hlength : y.length = 4) (h : isoDay zone time = y ++ '-' :: rest) : 1000 ≤ readDigits y := by
  have hwritten : (Nat.toDigits 10 (numericYear (zone.date time).year).toNat).all Char.isDigit =
      true :=
    List.all_eq_true.2 fun c hc => Nat.isDigit_of_mem_toDigits (by omega) (by omega) hc
  have hyear : Nat.toDigits 10 (numericYear (zone.date time).year).toNat = y := by
    rw [← takeWhile_dash hdigits, ← h]
    exact (takeWhile_dash hwritten).symm
  have hvalue : readDigits y = (numericYear (zone.date time).year).toNat := by
    rw [← hyear]
    exact Nat.ofDigitChars_ten_toDigits
  rw [hvalue]
  have hfour : (Nat.toDigits 10 (numericYear (zone.date time).year).toNat).length = 3 + 1 := by
    rw [hyear, hlength]
  exact le_of_length_toDigits hfour (by omega)

/-- A picked day is read right exactly when a string of the shape spells a date from the year
1000 on. -/
theorem parseIsoDay_faithful_iff (zone : Tehran) (value : List Char) :
    (((parseIsoDay value).isSome = true ↔ IsSpelling value) ∧
      (∀ time, parseIsoDay value = some time → isoDay zone time = value) ∧
      ∀ time, 1000 ≤ (zone.date time).year → (zone.date time).year ≤ 9999 →
        ∃ picked, parseIsoDay (isoDay zone time) = some picked ∧
          zone.day picked = zone.day time) ↔
    ((isoParts value).isSome = true →
      ∃ date : Date, 1000 ≤ date.year ∧ date.year ≤ 9999 ∧ value = spelling date) := by
  rw [parseIsoDay_isSome_iff]
  constructor
  · rintro ⟨hspelled, hback, _⟩ hshape
    obtain ⟨date, hlow, hhigh, hvalue⟩ := hspelled.1 hshape
    obtain ⟨time, htime⟩ := Option.isSome_iff_exists.1 (parseIsoDay_isSome_iff.2 hshape)
    have hyear : 1000 ≤ readDigits (fixedDigits 4 date.year.toNat) := by
      have hwritten := hback time htime
      rw [hvalue, spelling, dashed] at hwritten
      exact le_of_isoDay all_isDigit_fixedDigits length_fixedDigits hwritten
    have hnumber := (readDigits_spelling hlow hhigh).1
    exact ⟨date, by omega, hhigh, hvalue⟩
  · intro hspelled
    refine ⟨⟨fun hshape => ?_, ?_⟩, fun time htime => ?_,
      fun time hlow hhigh => parseIsoDay_isoDay hlow hhigh⟩
    · obtain ⟨date, hlow, hhigh, hvalue⟩ := hspelled hshape
      exact ⟨date, by omega, hhigh, hvalue⟩
    · rintro ⟨date, _, _, rfl⟩
      rw [isoParts_spelling]
      rfl
    · have hshape := parseIsoDay_isSome_iff.1 (Option.isSome_iff_exists.2 ⟨time, htime⟩)
      obtain ⟨date, hlow, hhigh, rfl⟩ := hspelled hshape
      rw [parseIsoDay_spelling (by omega) hhigh] at htime
      cases htime
      have hdate : zone.date (date.dayNumber * MS_PER_DAY + 28800000) = date := by
        rw [Tehran.date, day_probe, ofDayNumber_dayNumber]
      rw [isoDay_eq_spelling (by rw [hdate]; exact hlow) (by rw [hdate]; exact hhigh), hdate]

/-- The last of February and three days: taken, and it stands for the third of March. -/
theorem parseIsoDay_rolls_over :
    (parseIsoDay "2026-02-31".toList).isSome = true ∧ ¬ IsSpelling "2026-02-31".toList ∧
      ∃ time, parseIsoDay "2026-02-31".toList = some time ∧
        isoDay Tehran.fixed time = "2026-03-03".toList := by
  refine ⟨by decide, ?_, _, rfl, by decide⟩
  rintro ⟨date, hlow, hhigh, hvalue⟩
  obtain ⟨hyear, hmonth, hday⟩ := readDigits_spelling hlow hhigh
  have hparts : isoParts "2026-02-31".toList = some ("2026".toList, "02".toList, "31".toList) := rfl
  rw [hvalue, isoParts_spelling, Option.some.injEq, Prod.mk.injEq, Prod.mk.injEq] at hparts
  obtain ⟨hy, hm, hd⟩ := hparts
  have hyear' : date.year = 2026 := by
    rw [← hyear, hy]
    rfl
  have hmonth' : date.month = 2 := by
    rw [← hmonth, hm]
    rfl
  have hday' : date.day = 31 := by
    rw [← hday, hd]
    rfl
  have hle := date.day_le
  rw [hyear', hmonth', hday'] at hle
  revert hle
  decide

end Paayatam.Jalali
