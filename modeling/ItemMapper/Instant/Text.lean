import ItemMapper.Instant
import ItemMapper.Instant.Calendar
import ItemMapper.Number.Decimal

/-!
# Dates as text

Dates are written in the profile of the ISO format that timestamps on the internet use: date and
time joined by a `T`, an optional fraction of the second, and an offset from universal time.  The
stored form has three places and the offset `Z`; messages show as many places as are needed, in
steps of three, and the offset `+00:00`.  Reading accepts any number of places and any offset
below a day.  A leap second is the sixtieth second of its minute.
-/

namespace ItemMapper.Instant

/-- The decimal digits of a number, filled up with zeros to a width. -/
def padded (width n : Nat) : List Char :=
  let chars := Nat.toDigits 10 n
  List.replicate (width - chars.length) '0' ++ chars

/-- Four digits; other years have a sign. -/
def yearText (year : Int) : List Char :=
  if 0 ≤ year && year ≤ 9999 then padded 4 year.toNat
  else (if year < 0 then '-' else '+') :: padded 4 year.natAbs

/-- Date and time without fraction and offset. -/
def secondsText (t : Instant) : List Char :=
  let date := Calendar.ofDays (t.seconds / 86400)
  let second := (t.seconds % 86400).toNat
  let leap := if 1000000000 ≤ t.nanos then 1 else 0
  yearText date.year ++ ['-'] ++ padded 2 date.month ++ ['-'] ++ padded 2 date.day ++ ['T'] ++
    padded 2 (second / 3600) ++ [':'] ++ padded 2 (second / 60 % 60) ++ [':'] ++
    padded 2 (second % 60 + leap)

/-- The fraction of the second with as many places as it needs, in steps of three. -/
def shortestFraction (nanos : Nat) : List Char :=
  if nanos = 0 then []
  else if nanos % 1000000 = 0 then '.' :: padded 3 (nanos / 1000000)
  else if nanos % 1000 = 0 then '.' :: padded 6 (nanos / 1000)
  else '.' :: padded 9 nanos

/-- The stored text of a date, to the millisecond. -/
def isoText (t : Instant) : String :=
  String.ofList
    (secondsText t ++ ['.'] ++ padded 3 (t.nanos % 1000000000 / 1000000) ++ ['Z'])

def text (t : Instant) : String :=
  String.ofList (secondsText t ++ shortestFraction (t.nanos % 1000000000)) ++ "+00:00"

/-- A number of exactly `count` digits, and what follows it. -/
def readNumber? (count : Nat) (chars : List Char) : Option (Nat × List Char) :=
  let digits := chars.take count
  if digits.length = count && digits.all Char.isDigit then
    some (Decimal.ofDigits digits, chars.drop count)
  else
    none

/-- What follows one of the given marks. -/
def readMark? (marks : List Char) : List Char → Option (List Char)
  | c :: rest => if c ∈ marks then some rest else none
  | [] => none

/-- The fraction of a second in nanoseconds: at least one digit, of which nine count. -/
def readFraction? : List Char → Option (Nat × List Char)
  | '.' :: chars =>
    let (digits, rest) := Decimal.spanDigits chars
    if digits = [] then none
    else
      let kept := digits.take 9
      some (Decimal.ofDigits kept * Decimal.power (9 - kept.length), rest)
  | chars => some (0, chars)

/-- An offset from universal time in seconds, which must end the text. -/
def readOffset? : List Char → Option Int
  | ['Z'] | ['z'] => some 0
  | mark :: chars => do
    let negative ← if mark = '+' then some false
      else if mark = '-' || mark = '\u2212' then some true
      else none
    let (hours, chars) ← readNumber? 2 chars
    let chars ← readMark? [':'] chars
    let (minutes, chars) ← readNumber? 2 chars
    if hours ≤ 23 && minutes ≤ 59 && chars = [] then
      let seconds : Int := (hours * 60 + minutes) * 60
      some (if negative then -seconds else seconds)
    else
      none
  | [] => none

def parse? (text : String) : Option Instant := do
  let (year, chars) ← readNumber? 4 text.toList
  let chars ← readMark? ['-'] chars
  let (month, chars) ← readNumber? 2 chars
  let chars ← readMark? ['-'] chars
  let (day, chars) ← readNumber? 2 chars
  let chars ← readMark? ['T', 't', ' '] chars
  let (hour, chars) ← readNumber? 2 chars
  let chars ← readMark? [':'] chars
  let (minute, chars) ← readNumber? 2 chars
  let chars ← readMark? [':'] chars
  let (second, chars) ← readNumber? 2 chars
  let (nanos, chars) ← readFraction? chars
  let offset ← readOffset? chars
  let date ← Calendar.day? year month day
  if hour ≤ 23 && minute ≤ 59 && second ≤ 60 then
    let leap := second = 60
    let secondOfDay : Int := (hour * 60 + minute) * 60 + if leap then 59 else second
    ofParts? (Calendar.toDays date * 86400 + secondOfDay - offset)
      (if leap then nanos + 1000000000 else nanos)
  else
    none

end ItemMapper.Instant
