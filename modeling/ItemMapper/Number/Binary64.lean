/-!
# Numbers in binary floating point

The numbers of native values are those of the 64-bit binary format: not-a-number, two infinities,
and finite numbers with a sign, a mantissa of at most 53 bits and a power of two.  All arithmetic
is exact arithmetic on natural numbers followed by one rounding, `Binary64.ofRatio`, to the nearest
number of the format, where a tie goes to the even mantissa.

A finite number is `mantissa · 2 ^ scale` *units*, one unit being `2 ^ (-1074)`, the smallest
positive number.  Each number has one such form (`Binary64.Canonical`), except that zero has two
signs.
-/

namespace ItemMapper

/-- The number of units in one. -/
def Binary64.one : Nat := 1 <<< 1074

/-- A mantissa and a scale in their only allowed form: all 53 bits are used, or the scale is the
smallest one. -/
def Binary64.Canonical (mantissa scale : Nat) : Prop :=
  mantissa < 1 <<< 53 ∧ scale ≤ 2045 ∧ (scale = 0 ∨ 1 <<< 52 ≤ mantissa)

instance (mantissa scale : Nat) : Decidable (Binary64.Canonical mantissa scale) :=
  inferInstanceAs (Decidable (_ ∧ _ ∧ (_ ∨ _)))

/-- A number of the 64-bit binary floating-point format. -/
inductive Binary64 where
  /-- The result of an operation without a numeric value. -/
  | nan
  /-- A number beyond every finite one. -/
  | infinite (negative : Bool)
  /-- The number `mantissa · 2 ^ (scale - 1074)`, with its sign. -/
  | finite (negative : Bool) (mantissa scale : Nat)
      (canonical : Binary64.Canonical mantissa scale)
deriving DecidableEq

namespace Binary64

/-- Zero with the given sign. -/
def zero (negative : Bool) : Binary64 :=
  .finite negative 0 0 ⟨by decide, by decide, .inl rfl⟩

instance : Inhabited Binary64 := ⟨zero false⟩

/-- The number with this mantissa and scale; what lies beyond the format is infinite. -/
def ofParts (negative : Bool) (mantissa scale : Nat) : Binary64 :=
  if canonical : Canonical mantissa scale then
    .finite negative mantissa scale canonical
  else
    .infinite negative

/-- The nearest natural number to `num / den`, the even one of two that are equally near. -/
def roundDiv (num den : Nat) : Nat :=
  let quotient := num / den
  let rest := 2 * (num % den)
  if rest < den then quotient
  else if den < rest then quotient + 1
  else if quotient % 2 = 0 then quotient
  else quotient + 1

/-- The number of the format nearest to `num / den`, with the given sign. -/
def ofRatio (negative : Bool) (num den : Nat) : Binary64 :=
  let units := num * one
  let scale := Nat.log2 (units / den) - 52
  let mantissa := roundDiv units (den <<< scale)
  if mantissa = 1 <<< 53 then
    ofParts negative (1 <<< 52) (scale + 1)
  else
    ofParts negative mantissa scale

/-- The number nearest to an integer. -/
def ofInt (n : Int) : Binary64 :=
  ofRatio (decide (n < 0)) n.natAbs 1

/-- Numeric equality: not-a-number differs from everything, the two zeros are equal. -/
def equal : Binary64 → Binary64 → Bool
  | .finite negative mantissa scale _, .finite negative' mantissa' scale' _ =>
    mantissa == mantissa' && scale == scale' && (negative == negative' || mantissa == 0)
  | .infinite negative, .infinite negative' => negative == negative'
  | _, _ => false

/-- Neither infinite nor not-a-number. -/
def isFinite : Binary64 → Bool
  | .finite .. => true
  | _ => false

/-- Greater than zero. -/
def isPositive : Binary64 → Bool
  | .finite negative mantissa _ _ => !negative && mantissa != 0
  | .infinite negative => !negative
  | .nan => false

/-- The integer that a number is, if it is one. -/
def toInt? : Binary64 → Option Int
  | .finite negative mantissa scale _ =>
    let units := mantissa <<< scale
    if units % one = 0 then
      some (if negative then -(units / one : Nat) else (units / one : Nat))
    else
      none
  | _ => none

/-- The least 64-bit integer. -/
def leastInt64 : Int := -9223372036854775808

def greatestInt64 : Int := 9223372036854775807

/-- The nearest integer in the 64-bit range. -/
def clampInt64 (n : Int) : Int :=
  if n < leastInt64 then leastInt64
  else if greatestInt64 < n then greatestInt64
  else n

/-- The nearest 64-bit integer, halves going away from zero.  Numbers beyond the range give the
end of the range that they lie at, and not-a-number gives zero. -/
def roundToInt64 : Binary64 → Int
  | .nan => 0
  | .infinite negative => if negative then leastInt64 else greatestInt64
  | .finite negative mantissa scale _ =>
    let magnitude := (2 * mantissa <<< scale + one) / (2 * one)
    clampInt64 (if negative then -(magnitude : Int) else magnitude)

def mulNat (x : Binary64) (factor : Nat) : Binary64 :=
  match x with
  | .finite negative mantissa scale _ =>
    ofRatio negative (mantissa <<< scale * factor) one
  | other => other

/-- The units of a finite number with their sign. -/
def signedUnits (negative : Bool) (mantissa scale : Nat) : Int :=
  if negative then -(mantissa <<< scale : Nat) else (mantissa <<< scale : Nat)

/-- The sum.  A sum of zero is negative only if both numbers are. -/
def add : Binary64 → Binary64 → Binary64
  | .finite negative mantissa scale _, .finite negative' mantissa' scale' _ =>
    let sum := signedUnits negative mantissa scale + signedUnits negative' mantissa' scale'
    if sum = 0 then zero (negative && negative')
    else ofRatio (decide (sum < 0)) sum.natAbs one
  | .infinite negative, .infinite negative' =>
    if negative = negative' then .infinite negative else .nan
  | .infinite negative, .finite .. => .infinite negative
  | .finite .., .infinite negative => .infinite negative
  | _, _ => .nan

/-- The exact value of a finite number; zero for the others. -/
def toRat : Binary64 → Rat
  | .finite negative mantissa scale _ =>
    let magnitude : Rat :=
      (mantissa <<< (scale - 1074) : Nat) / (1 <<< (1074 - scale) : Nat)
    if negative then -magnitude else magnitude
  | _ => 0

/-- The value of the finite number nearest to a rational number. -/
def nearest (x : Rat) : Rat :=
  (ofRatio (decide (x < 0)) x.num.natAbs x.den).toRat

/-- The number with this bit pattern: one bit of sign, eleven of exponent, 52 of mantissa. -/
def ofBits (bits : Nat) : Binary64 :=
  let negative := bits >>> 63 % 2 == 1
  let exponent := bits >>> 52 % 2048
  let fraction := bits % 1 <<< 52
  if exponent = 0 then ofParts negative fraction 0
  else if exponent = 2047 then
    if fraction = 0 then .infinite negative else .nan
  else ofParts negative (fraction + 1 <<< 52) (exponent - 1)

/-- The bit pattern of a number; not-a-number has the quiet pattern without a sign. -/
def toBits : Binary64 → Nat
  | .nan => 4095 <<< 51
  | .infinite negative => negative.toNat <<< 63 + 2047 <<< 52
  | .finite negative mantissa scale _ =>
    negative.toNat <<< 63 +
      if mantissa < 1 <<< 52 then mantissa else (scale + 1) <<< 52 + (mantissa - 1 <<< 52)

end Binary64

end ItemMapper
