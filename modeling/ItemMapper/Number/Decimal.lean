import ItemMapper.Number.Binary64

/-!
# Decimal numerals

Numbers are stored as decimal text.  `Decimal.parse?` reads such a text as the nearest number of
the binary format: an optional sign, digits with an optional point, and an optional exponent, or
one of the words for infinity and not-a-number in any case.  There are no blanks and no other
marks, and at least one digit.
-/

namespace ItemMapper.Decimal

def power (exponent : Nat) : Nat :=
  Nat.pow 10 exponent

/-- How many decimal digits a number has; zero has none. -/
def digitCount (n : Nat) : Nat :=
  if n = 0 then 0 else (Nat.toDigits 10 n).length

/-- The number nearest to `digits · 10 ^ exponent`.  An order of magnitude far outside the format
is decided without computing the power. -/
def toBinary64 (negative : Bool) (digits : Nat) (exponent : Int) : Binary64 :=
  let order := (digitCount digits : Int) + exponent
  if digits = 0 || order < -400 then .zero negative
  else if 400 < order then .infinite negative
  else if 0 ≤ exponent then .ofRatio negative (digits * power exponent.toNat) 1
  else .ofRatio negative digits (power (-exponent).toNat)

/-- The value of a text of decimal digits. -/
def ofDigits (chars : List Char) : Nat :=
  Nat.ofDigitChars 10 chars 0

/-- A text split after its leading digits. -/
def spanDigits (chars : List Char) : List Char × List Char :=
  (chars.takeWhile Char.isDigit, chars.dropWhile Char.isDigit)

/-- A text with its leading sign taken off: whether that was a minus, and the rest. -/
def splitSign : List Char → Bool × List Char
  | '-' :: rest => (true, rest)
  | '+' :: rest => (false, rest)
  | chars => (false, chars)

/-- The exponent that a numeral ends with, zero if nothing is left of it. -/
def parseExponent? : List Char → Option Int
  | [] => some 0
  | mark :: rest =>
    let (negative, digits) := splitSign rest
    if (mark = 'e' || mark = 'E') && digits ≠ [] && digits.all Char.isDigit then
      some (if negative then -(ofDigits digits : Int) else ofDigits digits)
    else
      none

def parseUnsigned? (negative : Bool) (chars : List Char) : Option Binary64 :=
  let (whole, afterWhole) := spanDigits chars
  let (fraction, rest) :=
    match afterWhole with
    | '.' :: more => spanDigits more
    | other => ([], other)
  if whole = [] && fraction = [] then
    none
  else
    (parseExponent? rest).map fun exponent =>
      toBinary64 negative (ofDigits (whole ++ fraction)) (exponent - fraction.length)

/-- The number that a text denotes, if it is a numeral or a word for a number. -/
def parse? (text : String) : Option Binary64 :=
  let (negative, chars) := splitSign text.toList
  let word := String.ofList (chars.map Char.toLower)
  if word = "nan" then some .nan
  else if word = "inf" || word = "infinity" then some (.infinite negative)
  else parseUnsigned? negative chars

/-- A natural number with an optional plus sign that fits in 64 bits, as list positions are
written. -/
def parseIndex? (text : String) : Option Nat :=
  let digits := match text.toList with
    | '+' :: rest => rest
    | chars => chars
  if digits ≠ [] && digits.all Char.isDigit && ofDigits digits < 1 <<< 64 then
    some (ofDigits digits)
  else
    none

end ItemMapper.Decimal
