/-!
# The calendar

Days are counted from the beginning of 1970 in the proleptic Gregorian calendar.  For both
directions years begin in March, so that the leap day is the last day of a year, and are grouped
into cycles of four hundred years, which all have the same length.
-/

namespace ItemMapper.Calendar

structure Day where
  year : Int
  month : Nat
  day : Nat
deriving DecidableEq, Repr

/-- The days between the first of March of the year 0 and the beginning of 1970. -/
def daysBeforeEpoch : Int := 719468

/-- The days of a cycle of four hundred years. -/
def daysPerCycle : Int := 146097

/-- The day of the year, from the first of March, on which a month begins; March is month 0. -/
def monthStart (month : Int) : Int :=
  (153 * month + 2) / 5

/-- The day of a cycle on which one of its years begins. -/
def yearStart (year : Int) : Int :=
  365 * year + year / 4 - year / 100

/-- The number of days from the beginning of 1970 to a day. -/
def toDays (d : Day) : Int :=
  let year := if d.month ≤ 2 then d.year - 1 else d.year
  let month : Int := if d.month ≤ 2 then d.month + 9 else d.month - 3
  year / 400 * daysPerCycle + yearStart (year % 400) + monthStart month + (d.day - 1) -
    daysBeforeEpoch

/-- The day that many days after the beginning of 1970. -/
def ofDays (days : Int) : Day :=
  let fromMarch := days + daysBeforeEpoch
  let dayOfCycle := fromMarch % daysPerCycle
  let year := (dayOfCycle - dayOfCycle / 1460 + dayOfCycle / 36524 - dayOfCycle / 146096) / 365
  let dayOfYear := dayOfCycle - yearStart year
  let month := (5 * dayOfYear + 2) / 153
  let day := dayOfYear - monthStart month + 1
  let january := 10 ≤ month
  { year := year + fromMarch / daysPerCycle * 400 + if january then 1 else 0
    month := (if january then month - 9 else month + 3).toNat
    day := day.toNat }

/-- A year with a twenty-ninth of February. -/
def isLeapYear (year : Int) : Bool :=
  year % 4 = 0 && (year % 100 != 0 || year % 400 = 0)

/-- The number of days of a month; zero if there is no such month. -/
def daysInMonth (year : Int) (month : Nat) : Nat :=
  match month with
  | 2 => if isLeapYear year then 29 else 28
  | 4 | 6 | 9 | 11 => 30
  | 1 | 3 | 5 | 7 | 8 | 10 | 12 => 31
  | _ => 0

/-- The day with this year, month and day of the month, if the calendar has it. -/
def day? (year : Int) (month day : Nat) : Option Day :=
  if 1 ≤ day && day ≤ daysInMonth year month then some ⟨year, month, day⟩ else none

end ItemMapper.Calendar
