import ItemMapper.Number.Decimal

/-!
# The fewest digits that read back

A number is written with as few decimal digits as identify it.  For one digit, two digits, and so
on, `Shortest.atCount?` looks at the two decimals of that length on either side of the number and
keeps one that reads back as the number; the nearer one if both do.  Which of two equally near ones
it is, the caller decides.  The first length with a hit is the result.
-/

namespace ItemMapper

/-- The decimal number `digits · 10 ^ exponent`. -/
structure Shortest where
  digits : Nat
  exponent : Int
deriving DecidableEq, Repr

/-- Which of two equally near decimals is taken. -/
inductive Tie where
  | greater
  /-- The one whose last digit is even. -/
  | even
deriving DecidableEq, Repr

namespace Shortest

/-- The integer nearest to `below + rest / den`, where `rest` is less than `den`. -/
def nearest (tie : Tie) (below rest den : Nat) : Nat :=
  if 2 * rest < den then below
  else if den < 2 * rest then below + 1
  else
    match tie with
    | .greater => below + 1
    | .even => if below % 2 = 0 then below else below + 1

/-- The order of magnitude of `num / den`: the `k` with `10 ^ (k - 1) ≤ num / den < 10 ^ k`. -/
def order (num den : Nat) : Int :=
  if den ≤ num then Decimal.digitCount (num / den)
  else 1 - (Decimal.digitCount ((den - 1) / num) : Int)

/-- The decimal with `count` digits, where a power of ten one digit longer is written shorter. -/
def ofCount (digits count : Nat) (exponent : Int) : Shortest :=
  if digits = Decimal.power count then ⟨Decimal.power (count - 1), exponent + 1⟩
  else ⟨digits, exponent⟩

/-- The decimal with this many digits next to `num / den` that reads back as `x`. -/
def atCount? (tie : Tie) (x : Binary64) (num den count : Nat) : Option Shortest :=
  let exponent := order num den - count
  let top := num * Decimal.power (-exponent).toNat
  let bottom := den * Decimal.power exponent.toNat
  let below := top / bottom
  let readsBack (digits : Nat) : Bool := Decimal.toBinary64 false digits exponent = x
  match readsBack below, readsBack (below + 1) with
  | true, true => some (ofCount (nearest tie below (top % bottom) bottom) count exponent)
  | true, false => some (ofCount below count exponent)
  | false, true => some (ofCount (below + 1) count exponent)
  | false, false => none

def exact (units : Nat) : Shortest :=
  ⟨units * Nat.pow 5 1074, -1074⟩

/-- The shortest decimal that reads back as the positive number `mantissa · 2 ^ (scale - 1074)`.
Seventeen digits are always enough. -/
def ofParts (tie : Tie) (mantissa scale : Nat) : Shortest :=
  let x := Binary64.ofParts false mantissa scale
  let units := mantissa <<< scale
  ((List.range 17).findSome? fun i => atCount? tie x units Binary64.one (i + 1)).getD (exact units)

end Shortest

end ItemMapper
