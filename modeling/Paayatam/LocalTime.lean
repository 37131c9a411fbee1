/-
  Paayatam.LocalTime

  Local time from the server's clock.

  A zone is an offset at every instant, in whole minutes and under a day, whose
  changes are two days apart or more.  `startOfDayIn` and `zonedTimeToUtc` guess
  an instant with one offset, read the offset there and correct the guess.  The
  second guess is the first instant of the local day unless a change of the
  zone repeats the local midnight or leaps over it (`startOfDayIn_iff`).
-/

import Paayatam.Dates
import Mathlib.Order.Bounds.Basic

namespace Paayatam.LocalTime

open Lib.Gregorian

/-- A zone, as `Intl` knows it. -/
structure Zone where
  offset : Int → Int
  minutes : ∀ time, offset time % 60000 = 0
  within : ∀ time, -MS_PER_DAY < offset time ∧ offset time < MS_PER_DAY
  apart : ∀ s t, offset (s - 1) ≠ offset s → offset (t - 1) ≠ offset t → s < t →
    s + 2 * MS_PER_DAY ≤ t

structure ZonedParts where
  year : Int
  month : Nat
  day : Nat
  hour : Int
  minute : Int
  second : Int

variable {zone : Zone} {time s t u : Int} {parts : ZonedParts}

/-- What the clocks of the zone show, counted as a time. -/
def Zone.wall (zone : Zone) (time : Int) : Int := time + zone.offset time

/-- The number of the local day. -/
def Zone.day (zone : Zone) (time : Int) : Int := zone.wall time / MS_PER_DAY

/-! ## The source -/

/-- The fields of a time on the wall. -/
def partsOf (wall : Int) : ZonedParts where
  year := numericYear (ofDayNumber (wall / MS_PER_DAY)).year
  month := (ofDayNumber (wall / MS_PER_DAY)).month
  day := (ofDayNumber (wall / MS_PER_DAY)).day
  hour := wall % MS_PER_DAY / 3600000
  minute := wall % 3600000 / 60000
  second := wall % 60000 / 1000

def partsIn (instant : Int) (zone : Zone) : ZonedParts := partsOf (zone.wall instant)

/-- `Date.UTC` of the fields. -/
def asIfUtc (parts : ZonedParts) : Option Int :=
  utc parts.year ((parts.month : Int) - 1) parts.day parts.hour parts.minute parts.second

/-- The zone's UTC offset in milliseconds at a given instant, from whole seconds. -/
def offsetMsAt (instant : Int) (zone : Zone) : Option Int :=
  (asIfUtc (partsIn instant zone)).map fun asUtc => asUtc - instant / 1000 * 1000

/-- The UTC instant at which the local day containing `instant` began. -/
def startOfDayIn (instant : Int) (zone : Zone) : Option Int := do
  let parts := partsIn instant zone
  let localMidnightAsUtc ← utc parts.year ((parts.month : Int) - 1) parts.day 0 0 0
  let offset ← offsetMsAt instant zone
  let firstGuess ← timeClip (localMidnightAsUtc - offset)
  let offset ← offsetMsAt firstGuess zone
  timeClip (localMidnightAsUtc - offset)

/-- A wall-clock time in a zone, as the UTC instant it names. -/
def zonedTimeToUtc (year month day hour minute : Int) (zone : Zone) : Option Int := do
  let asUtc ← utc year (month - 1) day hour minute 0
  let offset ← offsetMsAt asUtc zone
  let firstGuess ← timeClip (asUtc - offset)
  let offset ← offsetMsAt firstGuess zone
  timeClip (asUtc - offset)

/-! ## Changes of the offset -/

namespace Zone

/-- The offset of the instant is another than the one before. -/
def Changes (zone : Zone) (time : Int) : Prop := zone.offset (time - 1) ≠ zone.offset time

theorem offset_eq (hle : s ≤ t) (h : ∀ u, s < u → u ≤ t → ¬ zone.Changes u) :
    zone.offset s = zone.offset t := by
  induction t, hle using Int.leInduction with
  | base => rfl
  | succ t hle ih =>
      have hlast := not_not.1 (h (t + 1) (by omega) (by omega))
      rw [ih fun u hlow hhigh => h u hlow (by omega), ← hlast, Int.add_sub_cancel]

/-- Between two offsets there is a change. -/
theorem exists_change (hle : s ≤ t) (h : zone.offset s ≠ zone.offset t) :
    ∃ u, s < u ∧ u ≤ t ∧ zone.Changes u := by
  by_contra hnone
  push Not at hnone
  exact h (offset_eq hle hnone)

/-- Two days before a change the offset is the old one. -/
theorem offset_before (hchange : zone.Changes t) (hlow : t - 2 * MS_PER_DAY ≤ s) (hlt : s < t) :
    zone.offset s = zone.offset (t - 1) := by
  refine offset_eq (by omega) fun u hlow' hhigh' hchange' => ?_
  have hapart := zone.apart u t hchange' hchange (by omega)
  omega

/-- For two days from a change the offset is the new one. -/
theorem offset_after (hchange : zone.Changes s) (hle : s ≤ t) (hhigh : t < s + 2 * MS_PER_DAY) :
    zone.offset t = zone.offset s := by
  refine (offset_eq hle fun u hlow' hhigh' hchange' => ?_).symm
  have hapart := zone.apart s u hchange hchange' hlow'
  omega

/-- Within two days the offsets are those around one change. -/
theorem change_between (hle : s ≤ t) (hhigh : t < s + 2 * MS_PER_DAY)
    (h : zone.offset s ≠ zone.offset t) :
    ∃ u, s < u ∧ u ≤ t ∧ zone.Changes u ∧ zone.offset s = zone.offset (u - 1) ∧
      zone.offset t = zone.offset u := by
  obtain ⟨u, hlow, hle', hchange⟩ := exists_change hle h
  exact ⟨u, hlow, hle', hchange, offset_before hchange (by omega) hlow,
    offset_after hchange hle' (by omega)⟩

end Zone

/-! ## The two guesses -/

/-- The years 101 to 275759: after the years that `Date.UTC` takes for others, and a year from the
last time there is. -/
def OfTheEra (time : Int) : Prop :=
  yearStart 101 * MS_PER_DAY ≤ time ∧ time < yearStart 275760 * MS_PER_DAY

/-- A time whose fields can be read back. -/
def Readable (time : Int) : Prop :=
  yearStart 100 * MS_PER_DAY ≤ time ∧ time ≤ 8640000000000000

theorem utc_partsOf {wall : Int} (h : Readable wall) (hour minute second : Int) :
    utc (partsOf wall).year (((partsOf wall).month : Int) - 1) (partsOf wall).day hour minute
      second = timeClip (wall / MS_PER_DAY * MS_PER_DAY + makeTime hour minute second) := by
  have hyear : 100 ≤ yearAt (wall / MS_PER_DAY) := by
    have hstart : yearAt (yearStart 100) = 100 :=
      yearAt_eq (le_refl _) (yearStart_lt_succ 100)
    have hmono : yearAt (yearStart 100) ≤ yearAt (wall / MS_PER_DAY) := by
      refine yearAt_mono ?_
      have hlow := h.1
      unfold MS_PER_DAY at *
      omega
    omega
  have hmake := makeDay_date (ofDayNumber (wall / MS_PER_DAY))
  rw [dayNumber_ofDayNumber, ofDayNumber_year] at hmake
  unfold utc partsOf
  dsimp only
  rw [ofDayNumber_year, numericYear_of_pos (by omega), fullYear_of_le hyear, hmake]

theorem asIfUtc_partsOf {wall : Int} (h : Readable wall) :
    asIfUtc (partsOf wall) = some (wall / 1000 * 1000) := by
  have hsplit : wall / MS_PER_DAY * MS_PER_DAY +
      makeTime (wall % MS_PER_DAY / 3600000) (wall % 3600000 / 60000) (wall % 60000 / 1000) =
      wall / 1000 * 1000 := by
    unfold MS_PER_DAY makeTime
    omega
  have hyear : -8640000000000000 ≤ yearStart 100 * MS_PER_DAY := by decide
  obtain ⟨hlow, hhigh⟩ := h
  unfold asIfUtc
  rw [utc_partsOf ⟨hlow, hhigh⟩]
  show timeClip (_ + makeTime (wall % MS_PER_DAY / 3600000) (wall % 3600000 / 60000)
    (wall % 60000 / 1000)) = _
  rw [hsplit]
  exact timeClip_of_le (by omega) (by omega)

theorem offsetMsAt_eq (h : Readable (zone.wall time)) :
    offsetMsAt time zone = some (zone.offset time) := by
  have hminutes := zone.minutes time
  unfold offsetMsAt partsIn
  rw [asIfUtc_partsOf h, Option.map_some, Option.some.injEq]
  unfold Zone.wall
  omega

theorem ofTheEra_bounds (h : OfTheEra time) (hlow : time - 3 * MS_PER_DAY ≤ u)
    (hhigh : u ≤ time + 3 * MS_PER_DAY) :
    yearStart 100 * MS_PER_DAY + MS_PER_DAY ≤ u ∧ u + MS_PER_DAY ≤ 8640000000000000 := by
  have hfrom : yearStart 100 * MS_PER_DAY + 4 * MS_PER_DAY ≤ yearStart 101 * MS_PER_DAY := by
    decide
  have hto : yearStart 275760 * MS_PER_DAY + 4 * MS_PER_DAY ≤ 8640000000000000 := by decide
  obtain ⟨hera, hera'⟩ := h
  exact ⟨by omega, by omega⟩

theorem readable_near (h : OfTheEra time) (hlow : time - 3 * MS_PER_DAY ≤ u)
    (hhigh : u ≤ time + 3 * MS_PER_DAY) : Readable (zone.wall u) := by
  obtain ⟨hfrom, hto⟩ := ofTheEra_bounds h hlow hhigh
  obtain ⟨hwithin, hwithin'⟩ := zone.within u
  unfold Readable Zone.wall
  exact ⟨by omega, by omega⟩

theorem timeClip_near (h : OfTheEra time) (hlow : time - 3 * MS_PER_DAY ≤ u)
    (hhigh : u ≤ time + 3 * MS_PER_DAY) : timeClip u = some u := by
  obtain ⟨hfrom, hto⟩ := ofTheEra_bounds h hlow hhigh
  have hyear : -8640000000000000 ≤ yearStart 100 * MS_PER_DAY := by decide
  have hday : 0 ≤ MS_PER_DAY := by decide
  exact timeClip_of_le (by omega) (by omega)

/-- The local midnight before an instant, on the wall. -/
def Zone.midnight (zone : Zone) (time : Int) : Int := zone.day time * MS_PER_DAY

theorem midnight_spec (zone : Zone) (time : Int) :
    zone.midnight time ≤ zone.wall time ∧ zone.wall time < zone.midnight time + MS_PER_DAY := by
  unfold Zone.midnight Zone.day MS_PER_DAY
  omega

theorem day_eq_iff : zone.day u = zone.day time ↔
    zone.midnight time ≤ zone.wall u ∧ zone.wall u < zone.midnight time + MS_PER_DAY := by
  unfold Zone.midnight Zone.day MS_PER_DAY
  omega

/-- The local midnight by the offset of the instant, and the offset there. -/
def Zone.firstGuess (zone : Zone) (time : Int) : Int := zone.midnight time - zone.offset time

theorem firstGuess_bounds (zone : Zone) (time : Int) :
    zone.firstGuess time ≤ time ∧ time < zone.firstGuess time + MS_PER_DAY := by
  have hspec := midnight_spec zone time
  unfold Zone.wall at hspec
  unfold Zone.firstGuess
  omega

theorem startOfDayIn_eq (h : OfTheEra time) : startOfDayIn time zone =
    some (zone.midnight time - zone.offset (zone.firstGuess time)) := by
  have hspec := midnight_spec zone time
  have hguess := firstGuess_bounds zone time
  have hwithin := zone.within time
  have hwithin' := zone.within (zone.firstGuess time)
  have hday : MS_PER_DAY = 86400000 := rfl
  have hwall : zone.wall time = time + zone.offset time := rfl
  have hfirst : zone.midnight time - zone.offset time = zone.firstGuess time := rfl
  have hmidnight : timeClip (zone.midnight time) = some (zone.midnight time) :=
    timeClip_near h (by omega) (by omega)
  have hutc : utc (partsIn time zone).year (((partsIn time zone).month : Int) - 1)
      (partsIn time zone).day 0 0 0 = some (zone.midnight time) := by
    unfold partsIn
    rw [utc_partsOf (readable_near h (by omega) (by omega))]
    show timeClip (zone.midnight time + 0) = _
    rw [Int.add_zero, hmidnight]
  have hoffset : offsetMsAt time zone = some (zone.offset time) :=
    offsetMsAt_eq (readable_near h (by omega) (by omega))
  have hclip : timeClip (zone.firstGuess time) = some (zone.firstGuess time) :=
    timeClip_near h (by omega) (by omega)
  have hoffset' : offsetMsAt (zone.firstGuess time) zone =
      some (zone.offset (zone.firstGuess time)) :=
    offsetMsAt_eq (readable_near h (by omega) (by omega))
  unfold startOfDayIn
  simp only [Option.bind_eq_bind, hutc, hoffset, hfirst, hclip, hoffset', Option.bind_some]
  exact timeClip_near h (by omega) (by omega)

/-! ## The start of the day -/

/-- No change up to the instant repeats its local midnight, or leaps over it from before; and
none that left the clock past it is two days old. -/
def Zone.MidnightKept (zone : Zone) (time : Int) : Prop :=
  ∀ change, change ≤ time → zone.Changes change →
    ¬ (change + zone.offset change ≤ zone.midnight time ∧
        zone.midnight time < change + zone.offset (change - 1)) ∧
      ¬ (change + zone.offset (change - 1) < zone.midnight time ∧
        zone.midnight time < change + zone.offset change) ∧
      ¬ (zone.midnight time < change + zone.offset change ∧ change + 2 * MS_PER_DAY ≤ time)

/-- The instants of the local day of an instant. -/
def Zone.localDay (zone : Zone) (time : Int) : Set Int := {u | zone.day u = zone.day time}

theorem mem_localDay : u ∈ zone.localDay time ↔
    zone.midnight time ≤ u + zone.offset u ∧
      u + zone.offset u < zone.midnight time + MS_PER_DAY := day_eq_iff

/-- An instant of the day before one that reads midnight was followed by a change that repeats the
midnight. -/
theorem first_of_midnight (h : zone.MidnightKept time) (hle : s ≤ time)
    (hmidnight : s + zone.offset s = zone.midnight time) : IsLeast (zone.localDay time) s := by
  have hday : MS_PER_DAY = 86400000 := rfl
  refine ⟨mem_localDay.2 ⟨by omega, by omega⟩, fun u hu => ?_⟩
  obtain ⟨hlow, hhigh⟩ := mem_localDay.1 hu
  by_contra hlt
  have hwithin := zone.within u
  have hwithin' := zone.within s
  have hdiffers : zone.offset u ≠ zone.offset s := by omega
  obtain ⟨change, hlow', hle', hchange, hbefore, hafter⟩ :=
    Zone.change_between (by omega) (by omega) hdiffers
  exact (h change (by omega) hchange).1 ⟨by omega, by omega⟩

theorem first_of_kept (h : zone.MidnightKept time) :
    IsLeast (zone.localDay time) (zone.midnight time - zone.offset (zone.firstGuess time)) := by
  have hday : MS_PER_DAY = 86400000 := rfl
  have hguess := firstGuess_bounds zone time
  have hfirst : zone.firstGuess time = zone.midnight time - zone.offset time := rfl
  have hspec := midnight_spec zone time
  unfold Zone.wall at hspec
  by_cases hsame : zone.offset (zone.firstGuess time) = zone.offset time
  · exact first_of_midnight h (by omega) (by rw [hsame, ← hfirst, hsame]; omega)
  -- A change after the guess: the day began before it, or with it.
  obtain ⟨change, hlow, hle, hchange, hbefore, hafter⟩ :=
    Zone.change_between hguess.1 (by omega) hsame
  obtain ⟨_, hgap, _⟩ := h change hle hchange
  have hwithin := zone.within time
  have hwithin' := zone.within (zone.firstGuess time)
  by_cases hlt : zone.midnight time - zone.offset (zone.firstGuess time) < change
  · -- Between the start and that change there is no other.
    have hoffset : zone.offset (zone.midnight time - zone.offset (zone.firstGuess time)) =
        zone.offset (change - 1) := by
      refine Zone.offset_eq (by omega) fun other hother hother' hchange' => ?_
      have hapart := zone.apart other change hchange' hchange (by omega)
      obtain ⟨_, _, hold⟩ := h other (by omega) hchange'
      have hbetween : zone.offset other = zone.offset (change - 1) := by
        refine Zone.offset_eq (by omega) fun last hlast hlast' hchange'' => ?_
        have hfirst' := zone.apart other last hchange' hchange'' hlast
        have hlast'' := zone.apart last change hchange'' hchange (by omega)
        omega
      exact hold ⟨by omega, by omega⟩
    exact first_of_midnight h (by omega) (by omega)
  · have hstart : zone.midnight time - zone.offset (zone.firstGuess time) = change := by omega
    rw [hstart]
    refine ⟨mem_localDay.2 ⟨by omega, by omega⟩, fun u hu => ?_⟩
    obtain ⟨hlow', hhigh'⟩ := mem_localDay.1 hu
    by_contra hbefore'
    have hwithin'' := zone.within u
    have hoffset := Zone.offset_before (s := u) hchange (by omega) (by omega)
    omega

theorem kept_of_first (h : IsLeast (zone.localDay time)
    (zone.midnight time - zone.offset (zone.firstGuess time))) : zone.MidnightKept time := by
  have hday : MS_PER_DAY = 86400000 := rfl
  have hguess := firstGuess_bounds zone time
  have hfirst : zone.firstGuess time = zone.midnight time - zone.offset time := rfl
  have hspec := midnight_spec zone time
  unfold Zone.wall at hspec
  obtain ⟨hmem, hleast⟩ := h
  obtain ⟨hlow, hhigh⟩ := mem_localDay.1 hmem
  intro change hle hchange
  have hold := zone.within (change - 1)
  have hnew := zone.within change
  have hwithin := zone.within time
  refine ⟨?_, ?_, ?_⟩
  · -- The first midnight is of the day, and the guess finds the second.
    rintro ⟨hafter, hbefore⟩
    have hoffset := Zone.offset_before
      (s := zone.midnight time - zone.offset (change - 1)) hchange (by omega) (by omega)
    have hread : zone.midnight time - zone.offset (change - 1) ∈ zone.localDay time :=
      mem_localDay.2 ⟨by omega, by omega⟩
    have hearly := hleast hread
    by_cases hlate : change ≤ zone.firstGuess time
    · have hguessed := Zone.offset_after hchange hlate (by omega)
      omega
    · have htime := Zone.offset_after hchange hle (by omega)
      omega
  · -- The change itself is of the day, and the guess falls beside it.
    rintro ⟨hbefore, hafter⟩
    by_cases hlate : change ≤ zone.firstGuess time
    · have hguessed := Zone.offset_after hchange hlate (by omega)
      have hoffset := Zone.offset_before
        (s := zone.midnight time - zone.offset (zone.firstGuess time)) hchange (by omega)
        (by omega)
      omega
    · have htime := Zone.offset_after hchange hle (by omega)
      have hguessed := Zone.offset_before (s := zone.firstGuess time) hchange
        (by omega) (by omega)
      have hread : change ∈ zone.localDay time := mem_localDay.2 ⟨by omega, by omega⟩
      have hearly := hleast hread
      omega
  · -- The guess is two days late for the change before which the day began.
    rintro ⟨hafter, hlate⟩
    have hguessed := Zone.offset_after (t := zone.firstGuess time) hchange
      (by omega) (by omega)
    have hoffset := Zone.offset_before
      (s := zone.midnight time - zone.offset (zone.firstGuess time)) hchange (by omega) (by omega)
    have hearly' := Zone.offset_before
      (s := zone.midnight time - zone.offset (change - 1)) hchange (by omega) (by omega)
    have hread : zone.midnight time - zone.offset (change - 1) ∈ zone.localDay time :=
      mem_localDay.2 ⟨by omega, by omega⟩
    have hearly := hleast hread
    have hne : zone.offset (change - 1) ≠ zone.offset change := hchange
    omega

/-! ## The instant of a time on the wall -/

/-- The offset at the guess is the one that reads the wall, when some instant does. -/
theorem offset_at_guess {wall : Int} (hread : zone.wall time = wall) :
    zone.offset (wall - zone.offset (wall - zone.offset wall)) =
      zone.offset (wall - zone.offset wall) := by
  have hday : MS_PER_DAY = 86400000 := rfl
  have hwithin := zone.within wall
  have hwithin' := zone.within (wall - zone.offset wall)
  have htime := zone.within time
  unfold Zone.wall at hread
  by_cases hsame : zone.offset (wall - zone.offset wall) = zone.offset wall
  · rw [hsame, hsame]
  by_cases hwest : wall - zone.offset wall ≤ wall
  · obtain ⟨change, hlow, hle, hchange, hbefore, hafter⟩ :=
      Zone.change_between hwest (by omega) hsame
    rw [hbefore]
    refine Zone.offset_before hchange (by omega) ?_
    by_contra hlate
    by_cases hearly : time < change
    · have hoffset := Zone.offset_before hchange (by omega) hearly
      omega
    · have hoffset := Zone.offset_after (t := time) hchange (by omega) (by omega)
      omega
  · obtain ⟨change, hlow, hle, hchange, hbefore, hafter⟩ :=
      Zone.change_between (by omega) (by omega) (Ne.symm hsame)
    rw [hafter]
    refine Zone.offset_after hchange ?_ (by omega)
    by_contra hlate
    by_cases hearly : time < change
    · have hoffset := Zone.offset_before hchange (by omega) hearly
      omega
    · have hoffset := Zone.offset_after (t := time) hchange (by omega) (by omega)
      omega

/-- The two guesses from a time on the wall. -/
theorem zonedTimeToUtc_eq {year month day hour minute wall : Int} (h : OfTheEra time)
    (hlow : time - MS_PER_DAY ≤ wall) (hhigh : wall ≤ time + MS_PER_DAY)
    (hutc : utc year (month - 1) day hour minute 0 = some wall) :
    zonedTimeToUtc year month day hour minute zone =
      some (wall - zone.offset (wall - zone.offset wall)) := by
  have hday : MS_PER_DAY = 86400000 := rfl
  have hwithin := zone.within wall
  have hwithin' := zone.within (wall - zone.offset wall)
  have hoffset : offsetMsAt wall zone = some (zone.offset wall) :=
    offsetMsAt_eq (readable_near h (by omega) (by omega))
  have hclip : timeClip (wall - zone.offset wall) = some (wall - zone.offset wall) :=
    timeClip_near h (by omega) (by omega)
  have hoffset' : offsetMsAt (wall - zone.offset wall) zone =
      some (zone.offset (wall - zone.offset wall)) :=
    offsetMsAt_eq (readable_near h (by omega) (by omega))
  unfold zonedTimeToUtc
  simp only [Option.bind_eq_bind, hutc, hoffset, hclip, hoffset', Option.bind_some]
  exact timeClip_near h (by omega) (by omega)

/-- A time that a clock shows at a whole minute is found. -/
theorem zonedTimeToUtc_reads (h : OfTheEra time) (hminute : time % 60000 = 0) :
    ∃ named, zonedTimeToUtc (partsIn time zone).year (partsIn time zone).month
        (partsIn time zone).day (partsIn time zone).hour (partsIn time zone).minute zone =
        some named ∧ partsIn named zone = partsIn time zone := by
  have hday : MS_PER_DAY = 86400000 := rfl
  have hwithin := zone.within time
  have hminutes := zone.minutes time
  have hwall : zone.wall time = time + zone.offset time := rfl
  have hmake : zone.wall time / MS_PER_DAY * MS_PER_DAY +
      makeTime (partsIn time zone).hour (partsIn time zone).minute 0 = zone.wall time := by
    show _ + makeTime (zone.wall time % MS_PER_DAY / 3600000)
      (zone.wall time % 3600000 / 60000) 0 = _
    unfold makeTime
    rw [hday]
    omega
  have hutc : utc (partsIn time zone).year (((partsIn time zone).month : Int) - 1)
      (partsIn time zone).day (partsIn time zone).hour (partsIn time zone).minute 0 =
      some (zone.wall time) := by
    have hreadable : Readable (zone.wall time) := readable_near h (by omega) (by omega)
    have hparts := utc_partsOf hreadable (partsIn time zone).hour (partsIn time zone).minute 0
    rw [hmake, timeClip_near h (by omega) (by omega)] at hparts
    exact hparts
  refine ⟨_, zonedTimeToUtc_eq h (by omega) (by omega) hutc, ?_⟩
  have hread := offset_at_guess (rfl : zone.wall time = zone.wall time)
  unfold partsIn Zone.wall
  rw [← hwall, hread, Int.sub_add_cancel]

/-- A year of one or two digits is taken for one of the twentieth century. -/
theorem zonedTimeToUtc_mistaken {year month day hour minute named : Int}
    (hyear : 0 ≤ year ∧ year ≤ 99) (hmonth : 1 ≤ month ∧ month ≤ 12) (hday : 1 ≤ day ∧ day ≤ 31)
    (hhour : 0 ≤ hour ∧ hour ≤ 23) (hminute : 0 ≤ minute ∧ minute ≤ 59)
    (h : zonedTimeToUtc year month day hour minute zone = some named) :
    (partsIn named zone).year ≠ year := by
  have hmsday : MS_PER_DAY = 86400000 := rfl
  have hfull : fullYear year = 1900 + year := if_pos hyear
  have hmonths : (month - 1) / 12 = 0 := by omega
  have hleap := leapDay_bounds (1900 + year)
  have hstart : yearStart 1900 ≤ yearStart (1900 + year) :=
    yearStart_strictMono.monotone (by omega)
  have hend : yearStart (1900 + year) ≤ yearStart 1999 := yearStart_strictMono.monotone (by omega)
  have hfrom : 0 ≤ monthStart (leapDay (1900 + year)) ((month - 1) % 12 + 1).toNat :=
    monthStart_mono hleap.1 (Nat.zero_le _)
  have hto : monthStart (leapDay (1900 + year)) ((month - 1) % 12 + 1).toNat ≤
      365 + leapDay (1900 + year) :=
    monthStart_mono hleap.1 (show ((month - 1) % 12 + 1).toNat ≤ 13 by omega)
  have hfirst : yearStart 1900 = -25567 := by decide
  have hlast : yearStart 1999 = 10592 := by decide
  have hera : yearStart 101 * MS_PER_DAY ≤ yearStart 1900 * MS_PER_DAY := by decide
  have hera' : (yearStart 1999 + 400) * MS_PER_DAY < yearStart 275760 * MS_PER_DAY := by decide
  obtain ⟨wall, hwall, hlow, hhigh⟩ : ∃ wall, utc year (month - 1) day hour minute 0 = some wall ∧
      yearStart 1900 * MS_PER_DAY ≤ wall ∧ wall ≤ (yearStart 1999 + 400) * MS_PER_DAY := by
    refine ⟨_, timeClip_of_le ?_ ?_, ?_, ?_⟩ <;>
    · unfold makeDay makeTime
      rw [hfull, hmonths, hmsday, Int.add_zero]
      omega
  have hwallera : OfTheEra wall := ⟨by omega, by omega⟩
  rw [zonedTimeToUtc_eq hwallera (by omega) (by omega) hwall] at h
  cases h
  have hwithin := zone.within (wall - zone.offset (wall - zone.offset wall))
  have hwithin' := zone.within (wall - zone.offset wall)
  show numericYear (yearAt (zone.wall (wall - zone.offset (wall - zone.offset wall)) /
    MS_PER_DAY)) ≠ year
  have hago : yearAt (yearStart 1899) ≤ yearAt (zone.wall (wall -
      zone.offset (wall - zone.offset wall)) / MS_PER_DAY) := by
    have hbefore : yearStart 1899 = -25932 := by decide
    refine yearAt_mono ?_
    rw [hfirst, hmsday] at hlow
    unfold Zone.wall
    rw [hbefore, hmsday]
    omega
  rw [yearAt_eq (le_refl _) (yearStart_lt_succ 1899)] at hago
  rw [numericYear_of_pos (by omega)]
  omega

/-- The start of the day is right exactly when no change of the zone touches its midnight; the
time that a clock shows is found, but for the years of two digits. -/
theorem localTime_right_iff (zone : Zone) (time : Int) (h : OfTheEra time) :
    (((∃ start, startOfDayIn time zone = some start ∧ IsLeast (zone.localDay time) start) ∧
      (time % 60000 = 0 → ∃ named, zonedTimeToUtc (partsIn time zone).year
        (partsIn time zone).month (partsIn time zone).day (partsIn time zone).hour
        (partsIn time zone).minute zone = some named ∧ partsIn named zone = partsIn time zone)) ↔
      zone.MidnightKept time) ∧
    ∀ year month day hour minute named, (0 ≤ year ∧ year ≤ 99) → (1 ≤ month ∧ month ≤ 12) →
      (1 ≤ day ∧ day ≤ 31) → (0 ≤ hour ∧ hour ≤ 23) → (0 ≤ minute ∧ minute ≤ 59) →
      zonedTimeToUtc year month day hour minute zone = some named →
      (partsIn named zone).year ≠ year := by
  refine ⟨⟨?_, fun hkept => ?_⟩, fun _ _ _ _ _ _ => zonedTimeToUtc_mistaken⟩
  · rintro ⟨⟨start, hstart, hleast⟩, _⟩
    rw [startOfDayIn_eq h] at hstart
    cases hstart
    exact kept_of_first hleast
  · exact ⟨⟨_, startOfDayIn_eq h, first_of_kept hkept⟩,
      fun hminute => zonedTimeToUtc_reads h hminute⟩

/-- Havana in the autumn of 2026: at one in the morning of the first of November the clocks are
set back to midnight. -/
def havana : Zone where
  offset := fun time => if time < 1793509200000 then -14400000 else -18000000
  minutes := fun _ => by split <;> rfl
  within := fun _ => by split <;> decide
  apart := fun s t hs ht hlt => by
    split at hs <;> split at hs <;> split at ht <;> split at ht <;> omega

/-- At noon of that day the second midnight is given, an hour after the first. -/
theorem startOfDayIn_repeated :
    startOfDayIn 1793552400000 havana = some 1793509200000 ∧
      havana.day 1793505600000 = havana.day 1793552400000 ∧
      ¬ IsLeast (havana.localDay 1793552400000) 1793509200000 := by
  refine ⟨by decide, by decide, fun h => ?_⟩
  have hfirst : (1793505600000 : Int) ∈ havana.localDay 1793552400000 :=
    show havana.day 1793505600000 = havana.day 1793552400000 by decide
  exact absurd (h.2 hfirst) (by decide)

/-- The day before, in the same zone. -/
theorem localTime_right_before : ∃ start, startOfDayIn 1793466000000 havana = some start ∧
    IsLeast (havana.localDay 1793466000000) start := by
  have hera : OfTheEra 1793466000000 := ⟨by decide, by decide⟩
  have hkept : havana.MidnightKept 1793466000000 := by
    intro change hle hchange
    have hsame : havana.offset (change - 1) = havana.offset change := by
      show (if change - 1 < 1793509200000 then (-14400000 : Int) else -18000000) =
        if change < 1793509200000 then -14400000 else -18000000
      rw [if_pos (by omega), if_pos (by omega)]
    exact absurd hsame hchange
  exact ((localTime_right_iff havana 1793466000000 hera).1.2 hkept).1

end Paayatam.LocalTime
