/-
  Paayatam.Dates

  `Date`, as the language gives it.

  A time is a count of milliseconds from the epoch, and one out of range is an
  invalid date, here `none`.  `Date.UTC` takes any month and any day, carries
  what is over, and reads a year of one or two digits into the twentieth
  century.
-/

import Paayatam.Lib.Gregorian

namespace Paayatam

open Lib.Gregorian

def MS_PER_DAY : Int := 86400000

/-- A time is valid within a hundred million days of the epoch. -/
def timeClip (time : Int) : Option Int :=
  if -8640000000000000 ≤ time ∧ time ≤ 8640000000000000 then some time else none

/-- The years of two digits. -/
def fullYear (year : Int) : Int := if 0 ≤ year ∧ year ≤ 99 then 1900 + year else year

/-- The number of a day; months are counted from zero, and both carry. -/
def makeDay (year month day : Int) : Int :=
  yearStart (year + month / 12) +
    monthStart (leapDay (year + month / 12)) (month % 12 + 1).toNat + day - 1

def makeTime (hour minute second : Int) : Int := ((hour * 60 + minute) * 60 + second) * 1000

/-- `Date.UTC`. -/
def utc (year month day hour minute second : Int) : Option Int :=
  timeClip (makeDay (fullYear year) month day * MS_PER_DAY + makeTime hour minute second)

/-- `Intl` writes a year without its era. -/
def numericYear (year : Int) : Int := if 1 ≤ year then year else 1 - year

section Facts

variable {year time : Int}

theorem fullYear_of_le (h : 100 ≤ year) : fullYear year = year := if_neg (by omega)

theorem numericYear_of_pos (h : 1 ≤ year) : numericYear year = year := if_pos h

theorem timeClip_of_le (hlow : -8640000000000000 ≤ time) (hhigh : time ≤ 8640000000000000) :
    timeClip time = some time := if_pos ⟨hlow, hhigh⟩

/-- A date that exists is the day it says. -/
theorem makeDay_date (date : Date) :
    makeDay date.year ((date.month : Int) - 1) date.day = date.dayNumber := by
  have hpos := date.month_pos
  have hle := date.month_le
  have hyear : date.year + ((date.month : Int) - 1) / 12 = date.year := by omega
  have hmonth : (((date.month : Int) - 1) % 12 + 1).toNat = date.month := by omega
  unfold makeDay Date.dayNumber
  rw [hyear, hmonth]

end Facts

end Paayatam
