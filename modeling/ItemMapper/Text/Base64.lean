/-!
# Base64

Binary data is written in the standard alphabet with padding.  Reading accepts canonical text
only: whole groups of four characters, padding exactly where it is needed, and no stray bits
before it.
-/

namespace ItemMapper.Base64

/-- The sixty-four characters, in the order of their values. -/
def alphabet : List Char :=
  "ABCDEFGHIJKLMNOPQRSTUVWXYZabcdefghijklmnopqrstuvwxyz0123456789+/".toList

/-- The character for a value below sixty-four. -/
def digit (value : Nat) : Char :=
  alphabet.getD (value % 64) 'A'

/-- The value of a character of the alphabet. -/
def digitValue? (c : Char) : Option Nat :=
  alphabet.idxOf? c

/-- Three bytes become four characters; one or two bytes at the end are padded with `=`. -/
def encodeBytes : List UInt8 → List Char
  | [] => []
  | [a] =>
    let n := a.toNat * 16
    [digit (n / 64), digit n, '=', '=']
  | [a, b] =>
    let n := (a.toNat * 256 + b.toNat) * 4
    [digit (n / 4096), digit (n / 64), digit n, '=']
  | a :: b :: c :: rest =>
    let n := (a.toNat * 256 + b.toNat) * 256 + c.toNat
    digit (n / 262144) :: digit (n / 4096) :: digit (n / 64) :: digit n :: encodeBytes rest

/-- The bytes of canonical text: a padded group may only stand at the end, and the bits that the
padding leaves over must be zero. -/
def decodeChars : List Char → Option (List UInt8)
  | [] => some []
  | [a, b, '=', '='] => do
    let n := (← digitValue? a) * 64 + (← digitValue? b)
    if n % 16 = 0 then some [UInt8.ofNat (n / 16)] else none
  | [a, b, c, '='] => do
    let n := ((← digitValue? a) * 64 + (← digitValue? b)) * 64 + (← digitValue? c)
    if n % 4 = 0 then some [UInt8.ofNat (n / 1024), UInt8.ofNat (n / 4)] else none
  | a :: b :: c :: d :: rest => do
    let n := (((← digitValue? a) * 64 + (← digitValue? b)) * 64 + (← digitValue? c)) * 64 +
      (← digitValue? d)
    let bytes ← decodeChars rest
    some (UInt8.ofNat (n / 65536) :: UInt8.ofNat (n / 256) :: UInt8.ofNat n :: bytes)
  | _ => none

def encode (bytes : List UInt8) : String :=
  String.ofList (encodeBytes bytes)

/-- The bytes that a canonical text stands for. -/
def decode? (text : String) : Option (List UInt8) :=
  decodeChars text.toList

end ItemMapper.Base64
