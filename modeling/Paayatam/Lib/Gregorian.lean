/-
  Paayatam.Lib.Gregorian

  The proleptic Gregorian calendar, by the number of a day.

  A day is an integer, 0 for the first of January 1970.  A date is a year, a
  month and a day that exist together; every day has one date and every date one
  day (`ofDayNumber_dayNumber`, `dayNumber_ofDayNumber`).  The year of a day is
  estimated from the length of the cycle of 400 years and put right by one.
-/

import Mathlib.Data.Int.ConditionallyCompleteOrder
import Mathlib.Tactic.IntervalCases

namespace Paayatam.Lib.Gregorian

section Years

variable {year n : Int}

def IsLeap (year : Int) : Prop := year % 4 = 0 ∧ (year % 100 ≠ 0 ∨ year % 400 = 0)

instance (year : Int) : Decidable (IsLeap year) := inferInstanceAs (Decidable (_ ∧ _))

/-- One in a leap year, and zero in another. -/
def leapDay (year : Int) : Int := if IsLeap year then 1 else 0

/-- The number of the first of January. -/
def yearStart (year : Int) : Int :=
  365 * (year - 1970) + (year - 1969) / 4 - (year - 1901) / 100 + (year - 1601) / 400

theorem leapDay_bounds (year : Int) : 0 ≤ leapDay year ∧ leapDay year ≤ 1 := by
  unfold leapDay
  split <;> omega

theorem yearStart_succ (year : Int) :
    yearStart (year + 1) = yearStart year + 365 + leapDay year := by
  by_cases hleap : IsLeap year
  · rw [leapDay, if_pos hleap]
    unfold IsLeap at hleap
    unfold yearStart
    omega
  · rw [leapDay, if_neg hleap]
    unfold IsLeap at hleap
    unfold yearStart
    omega

theorem yearStart_lt_succ (year : Int) : yearStart year < yearStart (year + 1) := by
  have hleap := leapDay_bounds year
  rw [yearStart_succ]
  omega

theorem yearStart_strictMono : StrictMono yearStart :=
  strictMono_int_of_lt_succ yearStart_lt_succ

/-- The year of a day: the cycle of 400 years has 146097 days. -/
def yearAt (n : Int) : Int :=
  let guess := 400 * n / 146097 + 1970
  if n < yearStart guess then guess - 1
  else if n < yearStart (guess + 1) then guess
  else guess + 1

theorem yearAt_spec (n : Int) : yearStart (yearAt n) ≤ n ∧ n < yearStart (yearAt n + 1) := by
  have hlow : yearStart (400 * n / 146097 + 1970 - 1) ≤ n := by
    unfold yearStart
    omega
  have hhigh : n < yearStart (400 * n / 146097 + 1970 + 1 + 1) := by
    unfold yearStart
    omega
  unfold yearAt
  dsimp only
  split
  · rename_i hbefore
    refine ⟨hlow, ?_⟩
    rwa [Int.sub_add_cancel]
  · split
    · rename_i hfrom hto
      exact ⟨by omega, hto⟩
    · rename_i _ hafter
      exact ⟨by omega, hhigh⟩

/-- A day is in one year only. -/
theorem yearAt_eq (hlow : yearStart year ≤ n) (hhigh : n < yearStart (year + 1)) :
    yearAt n = year := by
  obtain ⟨hlow', hhigh'⟩ := yearAt_spec n
  have hle := (yearStart_strictMono.lt_iff_lt).1 (hlow'.trans_lt hhigh)
  have hge := (yearStart_strictMono.lt_iff_lt).1 (hlow.trans_lt hhigh')
  omega

theorem yearAt_mono {a b : Int} (h : a ≤ b) : yearAt a ≤ yearAt b := by
  have ha := (yearAt_spec a).1
  have hb := (yearAt_spec b).2
  have hlt := (yearStart_strictMono.lt_iff_lt).1 ((ha.trans h).trans_lt hb)
  omega

end Years

section Months

variable {leap n : Int} {month : Nat}

/-- The days of a year before its months, from the first, in a year with so many leap days. -/
def monthStart (leap : Int) : Nat → Int
  | 0 => 0
  | 1 => 0
  | 2 => 31
  | 3 => 59 + leap
  | 4 => 90 + leap
  | 5 => 120 + leap
  | 6 => 151 + leap
  | 7 => 181 + leap
  | 8 => 212 + leap
  | 9 => 243 + leap
  | 10 => 273 + leap
  | 11 => 304 + leap
  | 12 => 334 + leap
  | _ => 365 + leap

/-- The month of a day of the year, the day counted from zero. -/
def monthAt (leap n : Int) : Nat := Nat.findGreatest (fun month => monthStart leap month ≤ n) 12

theorem monthAt_bounds (hlow : 0 ≤ n) : 1 ≤ monthAt leap n ∧ monthAt leap n ≤ 12 := by
  exact ⟨Nat.le_findGreatest (by omega) hlow, Nat.findGreatest_le 12⟩

theorem monthAt_spec (hlow : 0 ≤ n) (hhigh : n < 365 + leap) :
    monthStart leap (monthAt leap n) ≤ n ∧ n < monthStart leap (monthAt leap n + 1) := by
  obtain ⟨hpos, hle⟩ : 1 ≤ monthAt leap n ∧ monthAt leap n ≤ 12 := monthAt_bounds hlow
  constructor
  · have hne : monthAt leap n ≠ 0 := by omega
    exact Nat.findGreatest_of_ne_zero (P := fun month => monthStart leap month ≤ n) rfl hne
  · by_cases hlast : monthAt leap n = 12
    · rw [hlast]
      exact hhigh
    · have hnext : monthAt leap n + 1 ≤ 12 := by omega
      exact not_le.1 (Nat.findGreatest_is_greatest (P := fun month => monthStart leap month ≤ n)
        (Nat.lt_succ_self _) hnext)

theorem monthStart_mono (hleap : 0 ≤ leap) : Monotone (monthStart leap) := by
  refine monotone_nat_of_le_succ fun month => ?_
  match month with
  | 0 | 1 | 2 | 3 | 4 | 5 | 6 | 7 | 8 | 9 | 10 | 11 | 12 =>
    simp only [monthStart]
    omega
  | _ + 13 => exact le_refl _

/-- A day is in one month only. -/
theorem monthAt_eq (hleap : 0 ≤ leap) (hlow : 0 ≤ n) (hhigh : n < 365 + leap)
    (hstart : monthStart leap month ≤ n) (hend : n < monthStart leap (month + 1)) :
    monthAt leap n = month := by
  obtain ⟨hstart', hend'⟩ := monthAt_spec hlow hhigh
  have hle := (monthStart_mono hleap).reflect_lt (hstart'.trans_lt hend)
  have hge := (monthStart_mono hleap).reflect_lt (hstart.trans_lt hend')
  omega

end Months

/-- A date that exists. -/
@[ext]
structure Date where
  year : Int
  month : Nat
  day : Nat
  month_pos : 1 ≤ month
  month_le : month ≤ 12
  day_pos : 1 ≤ day
  day_le : monthStart (leapDay year) month + day ≤ monthStart (leapDay year) (month + 1)

namespace Date

variable {date : Date}

def dayNumber (date : Date) : Int :=
  yearStart date.year + monthStart (leapDay date.year) date.month + date.day - 1

/-- The days of its year before a date. -/
theorem dayOfYear_bounds (date : Date) :
    0 ≤ monthStart (leapDay date.year) date.month + date.day - 1 ∧
      monthStart (leapDay date.year) date.month + date.day - 1 < 365 + leapDay date.year := by
  have hleap := leapDay_bounds date.year
  have hmono := monthStart_mono hleap.1
  have hfrom : 0 ≤ monthStart (leapDay date.year) date.month := hmono (Nat.zero_le date.month)
  have hto : monthStart (leapDay date.year) (date.month + 1) ≤ 365 + leapDay date.year :=
    hmono (Nat.succ_le_succ date.month_le)
  have hpos := date.day_pos
  have hle := date.day_le
  exact ⟨by omega, by omega⟩

theorem dayNumber_bounds (date : Date) :
    yearStart date.year ≤ date.dayNumber ∧ date.dayNumber < yearStart (date.year + 1) := by
  obtain ⟨hlow, hhigh⟩ := date.dayOfYear_bounds
  rw [yearStart_succ]
  unfold dayNumber
  exact ⟨by omega, by omega⟩

/-- Days are at most 31. -/
theorem day_le_31 (date : Date) : date.day ≤ 31 := by
  have hle := date.day_le
  have hleap := leapDay_bounds date.year
  have hpos := date.month_pos
  have hmonth := date.month_le
  interval_cases date.month <;> simp only [monthStart] at hle <;> omega

end Date

/-- The day of the year, from zero. -/
def restOf (n : Int) : Int := n - yearStart (yearAt n)

theorem restOf_bounds (n : Int) : 0 ≤ restOf n ∧ restOf n < 365 + leapDay (yearAt n) := by
  obtain ⟨hlow, hhigh⟩ := yearAt_spec n
  rw [yearStart_succ] at hhigh
  unfold restOf
  exact ⟨by omega, by omega⟩

/-- The month of a day, and where it starts. -/
theorem monthOf_spec (n : Int) :
    monthStart (leapDay (yearAt n)) (monthAt (leapDay (yearAt n)) (restOf n)) ≤ restOf n ∧
      restOf n < monthStart (leapDay (yearAt n)) (monthAt (leapDay (yearAt n)) (restOf n) + 1) :=
  monthAt_spec (restOf_bounds n).1 (restOf_bounds n).2

/-- The date of a day. -/
def ofDayNumber (n : Int) : Date where
  year := yearAt n
  month := monthAt (leapDay (yearAt n)) (restOf n)
  day := (restOf n - monthStart (leapDay (yearAt n))
    (monthAt (leapDay (yearAt n)) (restOf n)) + 1).toNat
  month_pos := (monthAt_bounds (restOf_bounds n).1).1
  month_le := (monthAt_bounds (restOf_bounds n).1).2
  day_pos := by
    have hspec := monthOf_spec n
    omega
  day_le := by
    have hspec := monthOf_spec n
    omega

@[simp] theorem ofDayNumber_year (n : Int) : (ofDayNumber n).year = yearAt n := rfl

@[simp] theorem dayNumber_ofDayNumber (n : Int) : (ofDayNumber n).dayNumber = n := by
  have hspec := monthOf_spec n
  have hrest : restOf n = n - yearStart (yearAt n) := rfl
  unfold Date.dayNumber ofDayNumber
  dsimp only
  omega

@[simp] theorem ofDayNumber_dayNumber (date : Date) : ofDayNumber date.dayNumber = date := by
  obtain ⟨hlow, hhigh⟩ := date.dayNumber_bounds
  have hyear : yearAt date.dayNumber = date.year := yearAt_eq hlow hhigh
  obtain ⟨hfrom, hto⟩ := date.dayOfYear_bounds
  have hday := date.day_le
  have hpos := date.day_pos
  have hrest : restOf date.dayNumber =
      monthStart (leapDay date.year) date.month + date.day - 1 := by
    unfold restOf
    rw [hyear, Date.dayNumber]
    omega
  have hmonth : monthAt (leapDay date.year) (restOf date.dayNumber) = date.month := by
    rw [hrest]
    exact monthAt_eq (leapDay_bounds _).1 hfrom hto (by omega) (by omega)
  unfold ofDayNumber
  ext
  · exact hyear
  · dsimp only
    rw [hyear, hmonth]
  · dsimp only
    rw [hyear, hmonth, hrest]
    omega

end Paayatam.Lib.Gregorian
