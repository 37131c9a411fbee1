/-
  Paayatam.Telegram.Calendar

  The grid of a Persian month, and the walk that finds its days.

  The Persian calendar is a parameter: it numbers the days of Tehran month by
  month, a month having 29 to 31 of them.  The month of a day is found by walking
  back to its first and forward to its last; the grid is laid out from a
  Saturday, one week a row, and every cell is a day that can be picked or a
  blank (`calendarKeyboard_grid`).
-/

import Paayatam.Conversation.Wizards
import Paayatam.Lib.Rows
import Paayatam.Telegram.Callbacks
import Paayatam.Telegram.Jalali

namespace Paayatam.Jalali

open Lib Callbacks

structure JalaliDate where
  year : Int
  month : Int
  day : Int

def JalaliDate.SameMonth (a b : JalaliDate) : Prop := a.year = b.year ∧ a.month = b.month

/-- The month after. -/
def JalaliDate.NextMonth (a b : JalaliDate) : Prop :=
  (b.year = a.year ∧ b.month = a.month + 1) ∨ (b.year = a.year + 1 ∧ a.month = 12 ∧ b.month = 1)

/-- The Persian calendar, by the number of the day. -/
structure Persian where
  date : Int → JalaliDate
  monthName : Int → String
  month_pos : ∀ n, 1 ≤ (date n).month
  month_le : ∀ n, (date n).month ≤ 12
  day_pos : ∀ n, 1 ≤ (date n).day
  day_le : ∀ n, (date n).day ≤ 31
  follows : ∀ n, ((date (n + 1)).day = (date n).day + 1 ∧ (date (n + 1)).SameMonth (date n)) ∨
    ((date (n + 1)).day = 1 ∧ 29 ≤ (date n).day ∧ (date n).NextMonth (date (n + 1)))

variable {zone : Tehran} {cal : Persian}

/-! ## The source -/

def toJalali (zone : Tehran) (cal : Persian) (date : Int) : JalaliDate := cal.date (zone.day date)

def jalaliMonthName (zone : Tehran) (cal : Persian) (date : Int) : String :=
  cal.monthName (zone.day date)

/-- The same instant, `days` later. -/
def addDays (date days : Int) : Int := date + days * MS_PER_DAY

/-- `while (toJalali(first).day > 1) first = addDays(first, -1)`. -/
def walkBack (zone : Tehran) (cal : Persian) : Nat → Int → Option Int
  | 0, _ => none
  | fuel + 1, first =>
    if (toJalali zone cal first).day > 1 then walkBack zone cal fuel (addDays first (-1))
    else some first

/-- The days from a cursor on while the month is the same, and no more than the guard lets. -/
def walkOn (zone : Tehran) (cal : Persian) (month : Int) : Nat → Int → List Int
  | 0, _ => []
  | guard + 1, cursor =>
    if (toJalali zone cal cursor).month = month then
      cursor :: walkOn zone cal month guard (addDays cursor 1)
    else []

/-- Every day belonging to the Jalali month that `anchor` falls in. -/
def jalaliMonthDays (zone : Tehran) (cal : Persian) (fuel : Nat) (anchor : Int) :
    Option (List Int) :=
  (walkBack zone cal fuel anchor).map fun first =>
    walkOn zone cal (toJalali zone cal first).month 32 first

/-- A day in the Jalali month after the one `anchor` is in. -/
def nextJalaliMonth (zone : Tehran) (cal : Persian) (fuel : Nat) (anchor : Int) : Option Int := do
  let days ← jalaliMonthDays zone cal fuel anchor
  let last ← days.getLast?
  return addDays last 1

/-- A day in the Jalali month before it. -/
def previousJalaliMonth (zone : Tehran) (cal : Persian) (fuel : Nat) (anchor : Int) :
    Option Int := do
  let days ← jalaliMonthDays zone cal fuel anchor
  let first ← days.head?
  return addDays first (-1)

/-- `getUTCDay`, from Sunday. -/
def getUTCDay (date : Int) : Int := (date / MS_PER_DAY + 4) % 7

/-- Which column a date sits in, with Saturday as 0. -/
def persianWeekday (date : Int) : Nat := ((getUTCDay date + 1) % 7).toNat

/-- شنبه … جمعه, in grid order. -/
def PERSIAN_WEEKDAYS : List String := ["ش", "ی", "د", "س", "چ", "پ", "ج"]

structure InlineButton where
  text : String
  callbackData : Option Data

abbrev Row := List InlineButton

/-- A button of the wizard; the encoder may throw. -/
def button (text : String) (action value : Data) : Option InlineButton :=
  (encodeWizardCallback action value).map fun data => ⟨text, some data⟩

/-- A blank cell. -/
def filler : Option InlineButton := button " " "page".toList ['0']

def dayButton (zone : Tehran) (cal : Persian) (step : Data) (day : Int) : Option InlineButton :=
  button (Conversation.toPersianDigits (toJalali zone cal day).day) step (isoDay zone day)

/-- A cell of the month: nothing is offered before the earliest day. -/
def cell (zone : Tehran) (cal : Persian) (step : Data) (earliest day : Int) :
    Option InlineButton :=
  if day < earliest then filler else dayButton zone cal step day

/-- Whether something in the week answers the step. -/
def hasDay (step : Data) (week : Row) : Bool :=
  week.any fun button => button.callbackData.any fun data =>
    ("wz".toList ++ ':' :: (step ++ [':'])).isPrefixOf data

/-- The weeks of a month: its cells in rows of seven, after the blanks before the first. -/
def weeksOf (blank : InlineButton) (indent : Nat) (cells : Row) : List Row :=
  let laid := cells.foldl (pushRow 7) ([], List.replicate indent blank)
  if laid.2.length > 0 then laid.1 ++ [laid.2 ++ List.replicate (7 - laid.2.length) blank]
  else laid.1

def calendarKeyboard (zone : Tehran) (cal : Persian) (fuel : Nat) (step : Data)
    (anchor earliest : Int) (trailer : Row) : Option (List Row) := do
  let days ← jalaliMonthDays zone cal fuel anchor
  let first ← days.head?
  let last ← days.getLast?
  let header ← PERSIAN_WEEKDAYS.mapM fun label => button label "page".toList ['0']
  let blank ← filler
  let cells ← days.mapM (cell zone cal step earliest)
  let weeks := (weeksOf blank (persianWeekday first) cells).dropWhile fun week => !hasDay step week
  let next ← button "ماه بعد ◀️" "goto".toList (isoDay zone (addDays last 1))
  let month ← button (jalaliMonthName zone cal first) "page".toList ['0']
  let previous ←
    if earliest ≤ addDays first (-1) then
      (button "▶️ ماه قبل" "goto".toList (isoDay zone (addDays first (-1)))).map fun b => [b]
    else some []
  return header :: weeks ++ [next :: month :: previous] ++
    (if trailer.length > 0 then [trailer] else [])

/-! ## Months -/

/-- The months of the calendar, in one row. -/
def JalaliDate.monthIndex (date : JalaliDate) : Int := 12 * date.year + date.month

theorem monthIndex_next {a b : JalaliDate} (h : a.NextMonth b) :
    b.monthIndex = a.monthIndex + 1 := by
  unfold JalaliDate.monthIndex
  rcases h with ⟨hyear, hmonth⟩ | ⟨hyear, hlast, hfirst⟩
  · omega
  · omega

theorem monthIndex_same {a b : JalaliDate} (h : a.SameMonth b) : a.monthIndex = b.monthIndex := by
  obtain ⟨hyear, hmonth⟩ := h
  unfold JalaliDate.monthIndex
  rw [hyear, hmonth]

namespace Persian

variable {n m first : Int} {length : Nat}

theorem sameMonth_iff (cal : Persian) (m n : Int) : (cal.date m).SameMonth (cal.date n) ↔
    (cal.date m).monthIndex = (cal.date n).monthIndex := by
  refine ⟨monthIndex_same, fun h => ?_⟩
  have hm := cal.month_pos m
  have hm' := cal.month_le m
  have hn := cal.month_pos n
  have hn' := cal.month_le n
  unfold JalaliDate.monthIndex at h
  exact ⟨by omega, by omega⟩

theorem month_ne (h : (cal.date m).monthIndex = (cal.date n).monthIndex + 1) :
    (cal.date m).month ≠ (cal.date n).month := by
  have hm := cal.month_pos m
  have hm' := cal.month_le m
  have hn := cal.month_pos n
  have hn' := cal.month_le n
  unfold JalaliDate.monthIndex at h
  omega

theorem monthIndex_mono (h : m ≤ n) : (cal.date m).monthIndex ≤ (cal.date n).monthIndex := by
  induction n, h using Int.leInduction with
  | base => exact le_refl _
  | succ n _ ih =>
      rcases cal.follows n with ⟨_, hsame⟩ | ⟨_, _, hnext⟩
      · rw [monthIndex_same hsame]
        exact ih
      · rw [monthIndex_next hnext]
        omega

/-- Before a day its month counts down to the first. -/
theorem counts_down (k : Nat) (h : (k : Int) < (cal.date n).day) :
    (cal.date (n - k)).day = (cal.date n).day - k ∧
      (cal.date (n - k)).monthIndex = (cal.date n).monthIndex := by
  induction k with
  | zero => simp
  | succ k ih =>
      obtain ⟨hday, hindex⟩ := ih (by omega)
      have hsucc : n - ((k + 1 : Nat) : Int) + 1 = n - k := by omega
      rcases cal.follows (n - ((k + 1 : Nat) : Int)) with ⟨hnext, hsame⟩ | ⟨hone, _, _⟩
      · rw [hsucc] at hnext hsame
        exact ⟨by omega, by rw [← monthIndex_same hsame, hindex]⟩
      · rw [hsucc] at hone
        omega

/-- From a day its month counts up to the last, and the next one follows. -/
theorem counts_up (cal : Persian) (n : Int) : ∃ k : Nat, 29 ≤ (cal.date n).day + k ∧
    (cal.date n).day + k ≤ 31 ∧ (∀ i : Nat, i ≤ k → (cal.date (n + i)).day = (cal.date n).day + i ∧
      (cal.date (n + i)).monthIndex = (cal.date n).monthIndex) ∧
    (cal.date (n + k + 1)).monthIndex = (cal.date n).monthIndex + 1 := by
  induction hleft : (31 - (cal.date n).day).toNat using Nat.strongRecOn generalizing n with
  | ind left ih =>
      have hle := cal.day_le n
      rcases cal.follows n with ⟨hnext, hsame⟩ | ⟨_, hmin, hnext⟩
      · have hle' := cal.day_le (n + 1)
        obtain ⟨k, hmin, hmax, hcount, hafter⟩ := ih _ (by omega) (n + 1) rfl
        have hindex := monthIndex_same hsame
        refine ⟨k + 1, by omega, by omega, fun i hi => ?_, ?_⟩
        · cases i with
          | zero => simp
          | succ i =>
              obtain ⟨hday, hmonth⟩ := hcount i (by omega)
              have hstep : n + ((i + 1 : Nat) : Int) = n + 1 + i := by omega
              rw [hstep]
              exact ⟨by omega, by omega⟩
        · rw [show n + ((k + 1 : Nat) : Int) + 1 = n + 1 + k + 1 by omega]
          omega
      · refine ⟨0, by omega, by omega, fun i hi => ?_, ?_⟩
        · rw [Nat.le_zero.1 hi]
          simp
        · rw [show n + ((0 : Nat) : Int) + 1 = n + 1 by omega]
          exact monthIndex_next hnext

/-- The days of the month of a day. -/
structure MonthOf (cal : Persian) (n first : Int) (length : Nat) : Prop where
  start_le : first ≤ n
  lt_end : n < first + length
  min : 29 ≤ length
  max : length ≤ 31
  numbered : ∀ i : Nat, i < length → (cal.date (first + i)).day = i + 1
  same : ∀ m, (cal.date m).SameMonth (cal.date n) ↔ first ≤ m ∧ m < first + length
  before : (cal.date (first - 1)).monthIndex = (cal.date n).monthIndex - 1
  after : (cal.date (first + length)).monthIndex = (cal.date n).monthIndex + 1

theorem exists_monthOf (cal : Persian) (n : Int) :
    ∃ length, MonthOf cal n (n - ((cal.date n).day - 1)) length := by
  have hpos := cal.day_pos n
  obtain ⟨d, hd⟩ := Int.eq_ofNat_of_zero_le (a := (cal.date n).day - 1) (by omega)
  obtain ⟨hfirst, hindex⟩ := @counts_down cal n d (by omega)
  obtain ⟨k, hmin, hmax, hcount, hafter⟩ := counts_up cal (n - d)
  have hbefore : (cal.date (n - d - 1)).monthIndex = (cal.date n).monthIndex - 1 := by
    have hsucc : n - d - 1 + 1 = n - d := by omega
    have hpos' := cal.day_pos (n - d - 1)
    rcases cal.follows (n - d - 1) with ⟨hnext, _⟩ | ⟨_, _, hnext⟩
    · rw [hsucc] at hnext
      omega
    · have hnext' := monthIndex_next hnext
      rw [hsucc] at hnext'
      omega
  rw [hd]
  have hlast : ∀ m, n - d ≤ m → m ≤ n - d + k →
      (cal.date m).monthIndex = (cal.date n).monthIndex := by
    intro m hlow hhigh
    have hm := (hcount (m - (n - d)).toNat (by omega)).2
    rw [show n - (d : Int) + ((m - (n - d)).toNat : Int) = m by omega] at hm
    omega
  have hreach : n ≤ n - d + k := by
    by_contra hlt
    have hmono := @monthIndex_mono cal _ _ (show n - d + k + 1 ≤ n by omega)
    omega
  refine ⟨k + 1, ⟨by omega, by omega, by omega, by omega, fun i hi => ?_, fun m => ?_, hbefore, ?_⟩⟩
  · have hi' := (hcount i (by omega)).1
    omega
  · rw [sameMonth_iff]
    constructor
    · intro hsame
      by_contra hout
      by_cases hearly : m < n - d
      · have hmono := @monthIndex_mono cal _ _ (show m ≤ n - d - 1 by omega)
        omega
      · have hmono := @monthIndex_mono cal _ _ (show n - d + k + 1 ≤ m by omega)
        omega
    · rintro ⟨hlow, hhigh⟩
      exact hlast m hlow (by omega)
  · rw [show n - (d : Int) + ((k + 1 : Nat) : Int) = n - d + k + 1 by omega]
    omega

end Persian

/-! ## The walk -/

variable {n m first earliest : Int} {length fuel : Nat}

/-- The eighth hour of a day, on which it is anchored. -/
def probe (n : Int) : Int := n * MS_PER_DAY + 28800000

@[simp] theorem toJalali_probe (zone : Tehran) (cal : Persian) (n : Int) :
    toJalali zone cal (probe n) = cal.date n := congrArg cal.date (day_probe zone n)

theorem addDays_probe (n days : Int) : addDays (probe n) days = probe (n + days) := by
  unfold addDays probe
  rw [Int.add_mul]
  omega

theorem walkBack_probe (h : (cal.date n).day ≤ fuel) :
    walkBack zone cal fuel (probe n) = some (probe (n - ((cal.date n).day - 1))) := by
  induction fuel generalizing n with
  | zero =>
      have hpos := cal.day_pos n
      omega
  | succ fuel ih =>
      have hpos := cal.day_pos n
      rw [walkBack, toJalali_probe]
      by_cases hfirst : (cal.date n).day > 1
      · obtain ⟨hday, _⟩ := @Persian.counts_down cal n 1 (by omega)
        have hstep : n + -1 = n - ((1 : Nat) : Int) := by omega
        rw [if_pos hfirst, addDays_probe, hstep, ih (by omega), hday]
        exact congrArg (fun n => some (probe n)) (by omega)
      · rw [if_neg hfirst]
        exact congrArg (fun n => some (probe n)) (by omega)

theorem walkOn_probe {month : Int} {k guard : Nat} (hlt : k < guard)
    (hsame : ∀ i : Nat, i < k → (cal.date (n + i)).month = month)
    (hend : (cal.date (n + k)).month ≠ month) :
    walkOn zone cal month guard (probe n) = cells (fun i => probe (n + i)) 0 k := by
  induction k generalizing n guard with
  | zero =>
      obtain ⟨guard, rfl⟩ := Nat.exists_eq_add_of_lt hlt
      rw [walkOn, toJalali_probe, if_neg (by simpa using hend)]
      rfl
  | succ k ih =>
      obtain ⟨guard, rfl⟩ : ∃ g, guard = g + 1 := ⟨guard - 1, by omega⟩
      have hfirst := hsame 0 (by omega)
      have hrest : walkOn zone cal month guard (probe (n + 1)) =
          cells (fun i => probe (n + 1 + i)) 0 k := by
        refine ih (by omega) (fun i hi => ?_) ?_
        · rw [← hsame (i + 1) (by omega)]
          exact congrArg (fun n => (cal.date n).month) (by omega)
        · rw [show n + 1 + (k : Int) = n + ((k + 1 : Nat) : Int) by omega]
          exact hend
      rw [walkOn, toJalali_probe, if_pos (by simpa using hfirst), addDays_probe, hrest, cells_cons]
      refine congrArg₂ List.cons (by simp) ?_
      unfold cells
      refine List.map_congr_left fun i _ => congrArg probe ?_
      omega

theorem jalaliMonthDays_probe (hmonth : cal.MonthOf n first length)
    (hfirst : first = n - ((cal.date n).day - 1)) (hfuel : 31 ≤ fuel) :
    jalaliMonthDays zone cal fuel (probe n) =
      some (cells (fun i => probe (first + i)) 0 length) := by
  have hle := cal.day_le n
  have hmin := hmonth.min
  have hmax := hmonth.max
  have hhere := (hmonth.same first).2 ⟨by omega, by omega⟩
  unfold jalaliMonthDays
  rw [walkBack_probe (by omega), ← hfirst, Option.map_some, toJalali_probe]
  refine congrArg some (walkOn_probe (by omega) (fun i hi => ?_) ?_)
  · have hi' := (hmonth.same (first + i)).2 ⟨by omega, by omega⟩
    rw [hi'.2, hhere.2]
  · have hafter := hmonth.after
    rw [← monthIndex_same hhere] at hafter
    exact Persian.month_ne hafter

theorem head_cells {β : Type _} {f : Nat → β} (hpos : 0 < length) :
    (cells f 0 length).head? = some (f 0) := by
  obtain ⟨rest, rfl⟩ : ∃ rest, length = rest + 1 := ⟨length - 1, by omega⟩
  rw [cells_cons, List.head?_cons]

theorem getLast_cells {β : Type _} {f : Nat → β} (hpos : 0 < length) :
    (cells f 0 length).getLast? = some (f (length - 1)) := by
  obtain ⟨rest, rfl⟩ : ∃ rest, length = rest + 1 := ⟨length - 1, by omega⟩
  rw [cells_succ, List.getLast?_concat, Nat.zero_add, Nat.add_sub_cancel]

/-- The month after starts behind the last day, and the month before ends ahead of the first. -/
theorem turn_probe (hmonth : cal.MonthOf n first length)
    (hfirst : first = n - ((cal.date n).day - 1)) (hfuel : 31 ≤ fuel) :
    nextJalaliMonth zone cal fuel (probe n) = some (probe (first + length)) ∧
      previousJalaliMonth zone cal fuel (probe n) = some (probe (first - 1)) := by
  have hmin := hmonth.min
  have hlast : first + ((length - 1 : Nat) : Int) + 1 = first + length := by omega
  unfold nextJalaliMonth previousJalaliMonth
  simp only [Option.bind_eq_bind, jalaliMonthDays_probe hmonth hfirst hfuel, Option.bind_some,
    head_cells (show 0 < length by omega), getLast_cells (show 0 < length by omega),
    addDays_probe, hlast, Int.add_neg_one]
  exact ⟨rfl, by simp⟩

/-- A month forward and a month back. -/
theorem turn_back (zone : Tehran) (cal : Persian) (n : Int) (hfuel : 31 ≤ fuel) :
    (∃ m, nextJalaliMonth zone cal fuel (probe n) = some (probe m) ∧
      (cal.date m).monthIndex = (cal.date n).monthIndex + 1 ∧
      ∃ back, previousJalaliMonth zone cal fuel (probe m) = some (probe back) ∧
        (cal.date back).SameMonth (cal.date n)) ∧
    ∃ m, previousJalaliMonth zone cal fuel (probe n) = some (probe m) ∧
      (cal.date m).monthIndex = (cal.date n).monthIndex - 1 ∧
      ∃ back, nextJalaliMonth zone cal fuel (probe m) = some (probe back) ∧
        (cal.date back).SameMonth (cal.date n) := by
  obtain ⟨length, hmonth⟩ := cal.exists_monthOf n
  obtain ⟨hnext, hprevious⟩ := @turn_probe zone _ _ _ _ _ hmonth rfl hfuel
  refine ⟨⟨_, hnext, hmonth.after, ?_⟩, ⟨_, hprevious, hmonth.before, ?_⟩⟩
  · obtain ⟨length', hmonth'⟩ := cal.exists_monthOf (n - ((cal.date n).day - 1) + length)
    refine ⟨_, (turn_probe hmonth' rfl hfuel).2, (cal.sameMonth_iff _ _).2 ?_⟩
    rw [hmonth'.before, hmonth.after, Int.add_sub_cancel]
  · obtain ⟨length', hmonth'⟩ := cal.exists_monthOf (n - ((cal.date n).day - 1) - 1)
    refine ⟨_, (turn_probe hmonth' rfl hfuel).1, (cal.sameMonth_iff _ _).2 ?_⟩
    rw [hmonth'.after, hmonth.before, Int.sub_add_cancel]

/-! ## The grid -/

variable {step : Data}

def dayCell (zone : Tehran) (cal : Persian) (step : Data) (n : Int) : InlineButton where
  text := Conversation.toPersianDigits (cal.date n).day
  callbackData := some (Callbacks.joined "wz".toList step (isoDay zone (probe n)))

def blankCell : InlineButton where
  text := " "
  callbackData := some (Callbacks.joined "wz".toList "page".toList ['0'])

/-- What the grid shows for a day: it can be picked in its month from the earliest day on. -/
def gridCell (zone : Tehran) (cal : Persian) (step : Data) (first : Int) (length : Nat)
    (earliest n : Int) : InlineButton :=
  if (first ≤ n ∧ n < first + length) ∧ earliest ≤ probe n then dayCell zone cal step n
  else blankCell

/-- The value with which a button answers a step. -/
def answer (step : Data) (b : InlineButton) : Option Data :=
  (b.callbackData.bind parseWizardCallback).bind fun x => if x.1 = step then some x.2 else none

theorem weeksOf_stream {f : Nat → InlineButton} {blank : InlineButton} {indent : Nat}
    (hindent : indent < 7) (hbefore : ∀ i, i < indent → f i = blank)
    (hafter : ∀ i, indent + length ≤ i → f i = blank) :
    weeksOf blank indent (cells f indent length) = laidRows 7 f ((indent + length + 6) / 7) := by
  have hopen : ([], List.replicate indent blank) = laid 7 f indent := by
    unfold laid
    rw [Nat.div_eq_of_lt hindent, Nat.mod_eq_of_lt hindent]
    refine congrArg (Prod.mk _) (List.eq_replicate_iff.2 ⟨length_cells, fun b hb => ?_⟩).symm
    obtain ⟨i, hi, rfl⟩ := List.mem_map.1 hb
    rw [Nat.mul_zero, Nat.zero_add]
    exact hbefore i (List.mem_range.1 hi)
  unfold weeksOf
  dsimp only
  rw [hopen, foldl_pushRow (by omega)]
  unfold laid
  dsimp only
  rw [length_cells]
  by_cases hrest : (indent + length) % 7 > 0
  · have hpad : List.replicate (7 - (indent + length) % 7) blank =
        cells f (7 * ((indent + length) / 7) + (indent + length) % 7)
          (7 - (indent + length) % 7) := by
      refine (List.eq_replicate_iff.2 ⟨length_cells, fun b hb => ?_⟩).symm
      obtain ⟨i, hi, rfl⟩ := List.mem_map.1 hb
      exact hafter _ (by omega)
    rw [if_pos hrest, hpad, ← cells_append, show (indent + length) % 7 +
      (7 - (indent + length) % 7) = 7 by omega, ← laidRows_succ]
    exact congrArg (laidRows 7 f) (by omega)
  · rw [if_neg hrest]
    exact congrArg (laidRows 7 f) (by omega)

/-- A day of a `Date` is written in few characters, all of which a button can carry. -/
theorem isEncodable_isoDay (zone : Tehran) (hlow : -100000000 ≤ n) (hhigh : n ≤ 100000000) :
    isEncodable (isoDay zone (probe n)) = true := by
  have hday : (zone.date (probe n)).year = Lib.Gregorian.yearAt n := by
    unfold Tehran.date probe
    rw [day_probe, Lib.Gregorian.ofDayNumber_year]
  have hfrom : Lib.Gregorian.yearAt (Lib.Gregorian.yearStart (-300000)) ≤
      Lib.Gregorian.yearAt n := by
    have hstart : Lib.Gregorian.yearStart (-300000) ≤ -100000000 := by decide
    exact Lib.Gregorian.yearAt_mono (by omega)
  have hto : Lib.Gregorian.yearAt n ≤ Lib.Gregorian.yearAt (Lib.Gregorian.yearStart 300000) := by
    have hstart : 100000000 ≤ Lib.Gregorian.yearStart 300000 := by decide
    exact Lib.Gregorian.yearAt_mono (by omega)
  rw [Lib.Gregorian.yearAt_eq (le_refl _) (Lib.Gregorian.yearStart_lt_succ _)] at hfrom hto
  have hnumber : (numericYear (zone.date (probe n)).year).toNat < 10 ^ 6 := by
    rw [hday]
    unfold numericYear
    split <;> omega
  have hlength : (Nat.toDigits 10 (numericYear (zone.date (probe n)).year).toNat).length ≤ 6 :=
    (Nat.length_toDigits_le_iff (by omega) (by omega)).2 hnumber
  have hdigits : ∀ c : Char, c.isDigit = true → (isLowerOrDigit c || (decide ('A' ≤ c) &&
      decide (c ≤ 'Z')) || c == '_' || c == '-' || c == '.') = true := by
    intro c hc
    rw [isLowerOrDigit, hc]
    rfl
  unfold isEncodable isoDay dashed
  rw [Bool.and_eq_true, decide_eq_true_eq, List.all_eq_true]
  refine ⟨?_, fun c hc => ?_⟩
  · simp only [List.length_append, List.length_cons, length_fixedDigits]
    omega
  · simp only [List.mem_append, List.mem_cons] at hc
    rcases hc with hc | rfl | hc | rfl | hc
    · exact hdigits c (Nat.isDigit_of_mem_toDigits (by omega) (by omega) hc)
    · decide
    · exact hdigits c (List.all_eq_true.1 all_isDigit_fixedDigits c hc)
    · decide
    · exact hdigits c (List.all_eq_true.1 all_isDigit_fixedDigits c hc)

theorem button_eq {text : String} {action value : Data} (haction : isToken action = true)
    (hvalue : isEncodable value = true) :
    button text action value = some ⟨text, some (Callbacks.joined "wz".toList action value)⟩ := by
  unfold button
  rw [(encodeWizard_eq haction hvalue).1, Option.map_some]

theorem filler_eq : filler = some blankCell := button_eq (by decide) (by decide)

theorem cell_eq (hstep : isToken step = true) (hlow : -100000000 ≤ n) (hhigh : n ≤ 100000000) :
    cell zone cal step earliest (probe n) =
      some (if earliest ≤ probe n then dayCell zone cal step n else blankCell) := by
  unfold cell
  by_cases hbefore : probe n < earliest
  · rw [if_pos hbefore, filler_eq, if_neg (by omega)]
  · rw [if_neg hbefore, if_pos (by omega), dayButton, toJalali_probe]
    exact button_eq hstep (isEncodable_isoDay zone hlow hhigh)

theorem mapM_cells {α β : Type} {g : α → Option β} {f : Nat → α} {h : Nat → β} {j k m : Nat}
    (hall : ∀ i, i < m → g (f (j + i)) = some (h (k + i))) :
    (cells f j m).mapM g = some (cells h k m) := by
  induction m generalizing j k with
  | zero => rfl
  | succ m ih =>
      have hfirst := hall 0 (by omega)
      rw [Nat.add_zero, Nat.add_zero] at hfirst
      have hrest : (cells f (j + 1) m).mapM g = some (cells h (k + 1) m) := by
        refine ih fun i hi => ?_
        rw [Nat.add_assoc, Nat.add_assoc, Nat.add_comm 1]
        exact hall (i + 1) (by omega)
      rw [cells_cons, List.mapM_cons, hfirst, hrest, cells_cons]
      rfl

/-- What is said with one action does not answer a step of another name. -/
theorem answer_ne {text : String} {action value : Data} (haction : isToken action = true)
    (hvalue : isEncodable value = true) (hne : step ≠ action) :
    answer step ⟨text, some (Callbacks.joined "wz".toList action value)⟩ = none := by
  unfold answer
  rw [Option.bind_some, parseWizard_iff.2 ⟨rfl, haction, hvalue⟩, Option.bind_some,
    if_neg fun h => hne h.symm]

theorem answer_dayCell (hstep : isToken step = true) (hlow : -100000000 ≤ n)
    (hhigh : n ≤ 100000000) :
    answer step (dayCell zone cal step n) = some (isoDay zone (probe n)) := by
  unfold answer dayCell
  dsimp only
  rw [Option.bind_some, parseWizard_iff.2 ⟨rfl, hstep, isEncodable_isoDay zone hlow hhigh⟩,
    Option.bind_some, if_pos rfl]

theorem hasDay_of_mem {week : Row} (h : dayCell zone cal step n ∈ week) :
    hasDay step week = true := by
  refine List.any_eq_true.2 ⟨_, h, ?_⟩
  unfold dayCell
  dsimp only
  rw [Option.any_some, List.isPrefixOf_iff_prefix]
  exact ⟨isoDay zone (probe n), by simp [Callbacks.joined]⟩

/-- Saturday is in the first column, and a day is one column after the day before. -/
theorem persianWeekday_probe (n : Int) : persianWeekday (probe n) = ((n + 5) % 7).toNat := by
  unfold persianWeekday getUTCDay probe MS_PER_DAY
  omega

/-! ## The keyboard -/

/-- The weeks from a day on. -/
def weeksFrom (zone : Tehran) (cal : Persian) (step : Data) (first : Int) (length : Nat)
    (earliest start : Int) (rows : Nat) : List Row :=
  (List.range rows).map fun row => (List.range 7).map fun column =>
    gridCell zone cal step first length earliest (start + (7 * row + column : Nat))

/-- The weeks of a month that are left are seven days each, from a Saturday, and no day that can
be picked is before them or behind. -/
theorem weeks_of_month (zone : Tehran) (cal : Persian) (step : Data) (first earliest : Int)
    (length : Nat) : ∃ start rows,
      (weeksOf blankCell (persianWeekday (probe first))
        (cells (fun i => gridCell zone cal step first length earliest
          (first - persianWeekday (probe first) + (i : Nat))) (persianWeekday (probe first))
          length)).dropWhile (fun week => !hasDay step week) =
        weeksFrom zone cal step first length earliest start rows ∧
      (∀ i : Nat, persianWeekday (probe (start + i)) = i % 7) ∧
      ∀ m, first ≤ m → m < first + length → earliest ≤ probe m →
        start ≤ m ∧ m < start + 7 * rows := by
  generalize hindent : persianWeekday (probe first) = indent
  rw [persianWeekday_probe] at hindent
  have hbefore : ∀ i, i < indent →
      gridCell zone cal step first length earliest (first - indent + (i : Nat)) = blankCell :=
    fun i hi => if_neg fun h => absurd h.1.1 (by omega)
  have hafter : ∀ i, indent + length ≤ i →
      gridCell zone cal step first length earliest (first - indent + (i : Nat)) = blankCell :=
    fun i hi => if_neg fun h => absurd h.1.2 (by omega)
  rw [weeksOf_stream (f := fun i => gridCell zone cal step first length earliest
    (first - indent + (i : Nat))) (by omega) hbefore hafter]
  obtain ⟨dropped, hle, hrows, hdropped⟩ := @dropWhile_laidRows _ 7
    (fun i => gridCell zone cal step first length earliest (first - indent + (i : Nat)))
    ((indent + length + 6) / 7) fun week => !hasDay step week
  refine ⟨first - indent + 7 * dropped, (indent + length + 6) / 7 - dropped, ?_, fun i => ?_,
    fun m hlow hhigh hoffered => ?_⟩
  · rw [hrows]
    unfold laidRows cells weeksFrom
    refine List.map_congr_left fun row _ => List.map_congr_left fun column _ => ?_
    exact congrArg (gridCell zone cal step first length earliest) (by omega)
  · rw [persianWeekday_probe]
    omega
  · refine ⟨?_, by omega⟩
    by_contra hearly
    -- The week of the day was dropped, though it has the day.
    have hweek := hdropped ((m - (first - indent)).toNat / 7) (by omega)
    have hmem : dayCell zone cal step m ∈ cells (fun i => gridCell zone cal step first length
        earliest (first - indent + (i : Nat))) (7 * ((m - (first - indent)).toNat / 7)) 7 := by
      refine List.mem_map.2 ⟨(m - (first - indent)).toNat % 7, List.mem_range.2 (by omega), ?_⟩
      rw [Nat.div_add_mod]
      show gridCell zone cal step first length earliest
        (first - indent + ((m - (first - indent)).toNat : Int)) = _
      rw [show first - indent + ((m - (first - indent)).toNat : Int) = m by omega]
      exact if_pos ⟨⟨hlow, hhigh⟩, hoffered⟩
    rw [hasDay_of_mem hmem] at hweek
    exact absurd hweek (by decide)

theorem calendarKeyboard_eq (hmonth : cal.MonthOf n first length)
    (hfirst : first = n - ((cal.date n).day - 1)) (hfuel : 31 ≤ fuel)
    (hlow : -99999000 ≤ n) (hhigh : n ≤ 99999000) (hstep : isToken step = true)
    (hpage : step ≠ "page".toList) (hgoto : step ≠ "goto".toList) (trailer : Row) :
    ∃ header nav, calendarKeyboard zone cal fuel step (probe n) earliest trailer =
        some (header :: (weeksOf blankCell (persianWeekday (probe first))
          (cells (fun i => gridCell zone cal step first length earliest
            (first - persianWeekday (probe first) + (i : Nat))) (persianWeekday (probe first))
            length)).dropWhile (fun week => !hasDay step week) ++ [nav] ++
          (if trailer.length > 0 then [trailer] else [])) ∧
      ∀ b ∈ header ++ nav, answer step b = none := by
  have hmin := hmonth.min
  have hmax := hmonth.max
  have hstart := hmonth.start_le
  have hend := hmonth.lt_end
  have hzero : isEncodable ['0'] = true := by decide
  have hpagetoken : isToken "page".toList = true := by decide
  have hgototoken : isToken "goto".toList = true := by decide
  have hcells : (cells (fun i => probe (first + (i : Nat))) 0 length).mapM
      (cell zone cal step earliest) =
      some (cells (fun i => gridCell zone cal step first length earliest
        (first - persianWeekday (probe first) + (i : Nat))) (persianWeekday (probe first))
        length) := by
    refine mapM_cells fun i hi => ?_
    rw [Nat.zero_add, cell_eq hstep (by omega) (by omega), show first -
      (persianWeekday (probe first) : Int) + ((persianWeekday (probe first) + i : Nat) : Int) =
      first + i by omega]
    refine congrArg some ?_
    unfold gridCell
    by_cases hoffered : earliest ≤ probe (first + i)
    · rw [if_pos hoffered, if_pos ⟨⟨by omega, by omega⟩, hoffered⟩]
    · rw [if_neg hoffered, if_neg fun h => hoffered h.2]
  have hheader : PERSIAN_WEEKDAYS.mapM (fun label => button label "page".toList ['0']) =
      some (PERSIAN_WEEKDAYS.map fun label =>
        ⟨label, some (Callbacks.joined "wz".toList "page".toList ['0'])⟩) := by
    unfold PERSIAN_WEEKDAYS
    simp only [List.mapM_cons, List.mapM_nil, button_eq hpagetoken hzero]
    rfl
  have hlast : first + ((length - 1 : Nat) : Int) + 1 = first + length := by omega
  have hturn : ∀ text k, first - 1 ≤ k → k ≤ first + length →
      button text "goto".toList (isoDay zone (probe k)) =
        some ⟨text, some (Callbacks.joined "wz".toList "goto".toList (isoDay zone (probe k)))⟩ :=
    fun text k hk hk' => button_eq hgototoken (isEncodable_isoDay zone (by omega) (by omega))
  have hsilent : ∀ text k, first - 1 ≤ k → k ≤ first + length → answer step
      ⟨text, some (Callbacks.joined "wz".toList "goto".toList (isoDay zone (probe k)))⟩ = none :=
    fun text k hk hk' =>
      answer_ne hgototoken (isEncodable_isoDay zone (by omega) (by omega)) hgoto
  have hlabel : ∀ text, answer step
      ⟨text, some (Callbacks.joined "wz".toList "page".toList ['0'])⟩ = none :=
    fun text => answer_ne hpagetoken hzero hpage
  have hblank : filler = some blankCell := filler_eq
  unfold calendarKeyboard
  simp only [Option.bind_eq_bind, jalaliMonthDays_probe hmonth hfirst hfuel, Option.bind_some,
    head_cells (show 0 < length by omega), getLast_cells (show 0 < length by omega), hheader,
    hblank, addDays_probe, Int.natCast_zero, Int.add_zero, hlast, Int.add_neg_one]
  rw [hcells, Option.bind_some, hturn _ _ (by omega) (le_refl _), Option.bind_some,
    button_eq hpagetoken hzero, Option.bind_some]
  have hheading : ∀ b ∈ PERSIAN_WEEKDAYS.map fun label =>
      (⟨label, some (Callbacks.joined "wz".toList "page".toList ['0'])⟩ : InlineButton),
      answer step b = none := by
    intro b hb
    obtain ⟨label, _, rfl⟩ := List.mem_map.1 hb
    exact hlabel label
  by_cases hprevious : earliest ≤ probe (first - 1)
  · rw [if_pos hprevious, hturn _ _ (le_refl _) (by omega), Option.map_some, Option.bind_some]
    refine ⟨_, _, rfl, fun b hb => ?_⟩
    simp only [List.mem_append, List.mem_cons, List.not_mem_nil, or_false] at hb
    rcases hb with hb | rfl | rfl | rfl
    · exact hheading b hb
    · exact hsilent _ _ (by omega) (le_refl _)
    · exact hlabel _
    · exact hsilent _ _ (le_refl _) (by omega)
  · rw [if_neg hprevious]
    refine ⟨_, _, rfl, fun b hb => ?_⟩
    simp only [List.mem_append, List.mem_cons, List.not_mem_nil, or_false] at hb
    rcases hb with hb | rfl | rfl
    · exact hheading b hb
    · exact hsilent _ _ (by omega) (le_refl _)
    · exact hlabel _

/-- The solar calendar of the years from 1404 to 1407, none of them a leap year: six months of 31
days, five of 30 and one of 29.  The year 1405 begins on the 21st of March 2026. -/
def solarDate (n : Int) : JalaliDate :=
  let year := 1405 + (n - 20533) / 365
  let rest := (n - 20533) % 365
  if rest < 186 then ⟨year, rest / 31 + 1, rest % 31 + 1⟩
  else ⟨year, (rest - 186) / 30 + 7, (rest - 186) % 30 + 1⟩

theorem solarDate_early (n : Int) (h : (n - 20533) % 365 < 186) : solarDate n =
    ⟨1405 + (n - 20533) / 365, (n - 20533) % 365 / 31 + 1, (n - 20533) % 365 % 31 + 1⟩ := if_pos h

theorem solarDate_late (n : Int) (h : ¬ (n - 20533) % 365 < 186) : solarDate n =
    ⟨1405 + (n - 20533) / 365, ((n - 20533) % 365 - 186) / 30 + 7,
      ((n - 20533) % 365 - 186) % 30 + 1⟩ := if_neg h

theorem solarDate_bounds (n : Int) : (1 ≤ (solarDate n).month ∧ (solarDate n).month ≤ 12) ∧
    1 ≤ (solarDate n).day ∧ (solarDate n).day ≤ 31 := by
  by_cases h : (n - 20533) % 365 < 186
  · rw [solarDate_early n h]
    dsimp only
    omega
  · rw [solarDate_late n h]
    dsimp only
    omega

theorem solarDate_follows (n : Int) :
    ((solarDate (n + 1)).day = (solarDate n).day + 1 ∧
      (solarDate (n + 1)).SameMonth (solarDate n)) ∨
    ((solarDate (n + 1)).day = 1 ∧ 29 ≤ (solarDate n).day ∧
      (solarDate n).NextMonth (solarDate (n + 1))) := by
  unfold JalaliDate.SameMonth JalaliDate.NextMonth
  by_cases h : (n - 20533) % 365 < 186
  · by_cases h' : (n + 1 - 20533) % 365 < 186
    · rw [solarDate_early n h, solarDate_early (n + 1) h']
      dsimp only
      omega
    · rw [solarDate_early n h, solarDate_late (n + 1) h']
      dsimp only
      omega
  · by_cases h' : (n + 1 - 20533) % 365 < 186
    · rw [solarDate_late n h, solarDate_early (n + 1) h']
      dsimp only
      omega
    · rw [solarDate_late n h, solarDate_late (n + 1) h']
      dsimp only
      omega

def solar : Persian where
  date := solarDate
  monthName := fun n => ["فروردین", "اردیبهشت", "خرداد", "تیر", "مرداد", "شهریور", "مهر", "آبان",
    "آذر", "دی", "بهمن", "اسفند"].getD ((solarDate n).month - 1).toNat ""
  month_pos := fun n => (solarDate_bounds n).1.1
  month_le := fun n => (solarDate_bounds n).1.2
  day_pos := fun n => (solarDate_bounds n).2.1
  day_le := fun n => (solarDate_bounds n).2.2
  follows := solarDate_follows

end Paayatam.Jalali
