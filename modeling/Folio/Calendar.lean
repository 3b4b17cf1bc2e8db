import Folio.Decimal.Shortest
import Folio.Text.Quoted

/-!
# The calendar

Days, clocks and zones are what settings say about time. A `Day` is three numbers, and the calendar
has it if `Day.isDay` holds. A `Clock` is a time of the day. A `Zone` says by how many minutes a
clock is ahead of universal time, and **has the name it was given**, so that two zones may differ
although their clocks agree.

* `Day.text`, `Clock.text` and `Zone.text` are their texts.
* `Day.ordinal` counts the days of the calendar.

Main results: `isDay_next`, the day after a day of the calendar is one unless the last year ends;
`ordinal_next`, it has the next number.
-/

namespace Folio

/-! ## Days -/

/-- A day of the calendar; months and days of the month are counted from 1. -/
structure Day where
  year : Nat
  month : Nat
  day : Nat
deriving DecidableEq

namespace Day

/-- The day as its year, month and day. -/
def text (d : Day) : Text :=
  Decimal.padded 4 d.year ++ '-' :: Decimal.padded 2 d.month ++ '-' :: Decimal.padded 2 d.day

/-- Whether a year has a day more in February. -/
def isLeap (year : Nat) : Bool := year % 4 == 0 && (year % 100 != 0 || year % 400 == 0)

/-- The number of days of a month. -/
def monthLength (year month : Nat) : Nat :=
  if month = 2 then (if isLeap year then 29 else 28)
  else if month = 4 ∨ month = 6 ∨ month = 9 ∨ month = 11 then 30
  else 31

/-- The last year of the calendar. -/
def lastYear : Nat := 9999

/-- Whether the calendar has the day. -/
def isDay (d : Day) : Bool :=
  1 ≤ d.year && d.year ≤ lastYear && 1 ≤ d.month && d.month ≤ 12 && 1 ≤ d.day &&
    d.day ≤ monthLength d.year d.month

def next (d : Day) : Day :=
  if d.day < monthLength d.year d.month then ⟨d.year, d.month, d.day + 1⟩
  else if d.month < 12 then ⟨d.year, d.month + 1, 1⟩
  else ⟨d.year + 1, 1, 1⟩

/-- The number of days in the first months of a year. -/
def daysBefore (year : Nat) : Nat → Nat
  | 0 => 0
  | month + 1 => daysBefore year month + monthLength year (month + 1)

theorem one_le_monthLength (year month : Nat) : 1 ≤ monthLength year month := by
  unfold monthLength
  split
  · split <;> decide
  · split <;> decide

theorem isDay_next {d : Day} (h : d.isDay = true) (hy : d.year < lastYear) :
    d.next.isDay = true := by
  have h1 := one_le_monthLength d.year (d.month + 1)
  have h2 := one_le_monthLength (d.year + 1) 1
  simp only [isDay, Bool.and_eq_true, decide_eq_true_eq] at h ⊢
  unfold next
  split
  · simp only; omega
  · split
    · simp only; omega
    · simp only; omega

theorem daysBefore_twelve (year : Nat) :
    daysBefore year 12 = if isLeap year then 366 else 365 := by
  by_cases h : isLeap year = true <;> simp [daysBefore, monthLength, h]

/-- The number of leap days up to the end of a year. -/
def leapDays (years : Nat) : Nat := years / 4 + years / 400 - years / 100

theorem leapDays_succ (y : Nat) :
    leapDays (y + 1) = leapDays y + if isLeap (y + 1) then 1 else 0 := by
  have h4 : (y + 1) / 4 = y / 4 + if (y + 1) % 4 = 0 then 1 else 0 := by split <;> omega
  have h100 : (y + 1) / 100 = y / 100 + if (y + 1) % 100 = 0 then 1 else 0 := by split <;> omega
  have h400 : (y + 1) / 400 = y / 400 + if (y + 1) % 400 = 0 then 1 else 0 := by split <;> omega
  have hle : y / 100 ≤ y / 4 := Nat.div_le_div_left (by omega) (by omega)
  have h1 : (y + 1) % 100 = 0 → (y + 1) % 4 = 0 := by omega
  have h2 : (y + 1) % 400 = 0 → (y + 1) % 100 = 0 := by omega
  unfold leapDays isLeap
  rw [h4, h100, h400]
  by_cases c4 : (y + 1) % 4 = 0 <;> by_cases c100 : (y + 1) % 100 = 0 <;>
    by_cases c400 : (y + 1) % 400 = 0 <;> simp_all <;> omega

/-- The number of a day, counted from the day before the first one of the calendar. -/
def ordinal (d : Day) : Nat :=
  365 * (d.year - 1) + leapDays (d.year - 1) + daysBefore d.year (d.month - 1) + d.day

theorem ordinal_next {d : Day} (h : d.isDay = true) : d.next.ordinal = d.ordinal + 1 := by
  simp only [isDay, Bool.and_eq_true, decide_eq_true_eq] at h
  obtain ⟨year, month, day⟩ := d
  simp only at h
  unfold next
  split
  · simp only [ordinal]; omega
  · rename_i hd
    simp only at hd
    split
    · rename_i hm
      simp only at hm
      obtain ⟨m, rfl⟩ : ∃ m, month = m + 1 := ⟨month - 1, by omega⟩
      simp only [ordinal, daysBefore, Nat.add_sub_cancel]
      omega
    · rename_i hm
      simp only at hm
      obtain rfl : month = 12 := by omega
      obtain ⟨y, rfl⟩ : ∃ y, year = y + 1 := ⟨year - 1, by omega⟩
      have ht : daysBefore (y + 1) 11 + monthLength (y + 1) 12 =
          if isLeap (y + 1) then 366 else 365 := daysBefore_twelve (y + 1)
      have h0 : daysBefore (y + 1 + 1) 0 = 0 := rfl
      simp only [ordinal, Nat.add_sub_cancel, Nat.sub_self, Nat.reduceSub, leapDays_succ, h0]
      by_cases hl : isLeap (y + 1) = true
      · rw [if_pos hl] at ht ⊢
        omega
      · rw [if_neg hl] at ht ⊢
        omega

end Day

/-! ## Clocks -/

/-- A time of the day, in hours, minutes, seconds and millionths of a second. -/
structure Clock where
  hour : Nat
  minute : Nat
  second : Nat
  micro : Nat
deriving DecidableEq

namespace Clock

/-- The time with its seconds, and their millionth part if there is one. -/
def text (c : Clock) : Text :=
  Decimal.padded 2 c.hour ++ ':' :: Decimal.padded 2 c.minute ++ ':' :: Decimal.padded 2 c.second ++
    (if c.micro = 0 then [] else '.' :: Decimal.padded 6 c.micro)

/-- The parts of the time, without the zeros at their end. -/
def parts (c : Clock) : List Nat :=
  if c.micro ≠ 0 then [c.hour, c.minute, c.second, c.micro]
  else if c.second ≠ 0 then [c.hour, c.minute, c.second]
  else [c.hour, c.minute]

/-- Whether a day has the time. -/
def isTime (c : Clock) : Bool := c.hour < 24 && c.minute < 60 && c.second < 60

end Clock

/-! ## Zones -/

/-- How a clock stands to universal time: by how many minutes it is ahead, and the name of the zone.
-/
structure Zone where
  ahead : Int
  name : Text
deriving DecidableEq

namespace Zone

/-- The difference from universal time as hours and minutes with a sign. -/
def text (z : Zone) : Text :=
  (if z.ahead < 0 then '-' else '+') ::
    Decimal.padded 2 (z.ahead.natAbs / 60) ++ ':' :: Decimal.padded 2 (z.ahead.natAbs % 60)

/-- Whether the difference from universal time is less than a day. -/
def isZone (z : Zone) : Bool := z.ahead.natAbs < 24 * 60

end Zone

/-- What two moments have in common just if they are the same: the minute in universal time, counted
from the beginning of the calendar, the second and its millionth part. -/
def instant (d : Day) (c : Clock) (z : Zone) : Int × Nat × Nat :=
  (((24 * d.ordinal + c.hour) * 60 + c.minute : Nat) - z.ahead, c.second, c.micro)

end Folio
