import ItemMapper.Number.Shortest

/-!
# The text of a number

On the wire an integral number below `10 ^ 15` is written as an integer and every other finite
number with the fewest digits that read back, always in positional notation.  Messages about JSON
texts write large and small numbers with a signed exponent instead.  Of two equally near decimals
the wire has the greater one and a message the one that ends in an even digit.
-/

namespace ItemMapper

/-- A decimal with all its places before and after the point. -/
def Shortest.positional (decimal : Shortest) : String :=
  let chars := Nat.toDigits 10 decimal.digits
  if 0 ≤ decimal.exponent then
    String.ofList (chars ++ List.replicate decimal.exponent.toNat '0')
  else
    let places := (-decimal.exponent).toNat
    if chars.length ≤ places then
      String.ofList (['0', '.'] ++ List.replicate (places - chars.length) '0' ++ chars)
    else
      let whole := chars.length - places
      String.ofList (chars.take whole ++ ['.'] ++ chars.drop whole)

/-- A decimal as JSON messages show it: positional up to sixteen places before the point and four
zeros after it, always with a point, otherwise with an exponent. -/
def Shortest.scientific (decimal : Shortest) : String :=
  let chars := Nat.toDigits 10 decimal.digits
  let order := (chars.length : Int) + decimal.exponent
  if -5 < order && order ≤ 16 then
    decimal.positional ++ if 0 ≤ decimal.exponent then ".0" else ""
  else
    let fraction := if chars.length = 1 then [] else '.' :: chars.drop 1
    let sign := if order < 1 then '-' else '+'
    String.ofList (chars.take 1 ++ fraction ++ ['e', sign] ++
      Nat.toDigits 10 (order - 1).natAbs)

namespace Binary64

/-- Integers from here on are written like other numbers. -/
def integerBound : Int := 1000000000000000

def text (x : Binary64) : String :=
  match x with
  | .nan => "NaN"
  | .infinite negative => if negative then "-inf" else "inf"
  | .finite negative mantissa scale _ =>
    let positional := (Shortest.ofParts .greater mantissa scale).positional
    let signed := if negative then "-" ++ positional else positional
    match x.toInt? with
    | some n => if -integerBound < n && n < integerBound then toString n else signed
    | none => signed

/-- The text of a number that a JSON text holds. -/
def jsonText : Binary64 → String
  | .finite negative mantissa scale _ =>
    let magnitude :=
      if mantissa = 0 then "0.0" else (Shortest.ofParts .even mantissa scale).scientific
    if negative then "-" ++ magnitude else magnitude
  | x => x.text

end Binary64

end ItemMapper
