import ItemMapper.Json
import ItemMapper.Number.Decimal

/-!
# JSON texts as far as they can be read

A reader that stops at the first fault needs to know what stands before a malformed place.  A
`Scan` is the tree of a JSON text up to that place: an array or object whose end was not reached
is not closed, and a value that could not be read at all is broken.  `Scan.ofText` reads a text
from the left and never looks past the first value.
-/

namespace ItemMapper

/-- A JSON value as far as its text could be read. -/
inductive Scan where
  | null
  | bool (value : Bool)
  | integer (value : Int)
  | float (value : Binary64)
  | string (value : String)
  | array (items : List Scan) (closed : Bool)
  | object (members : List (String × Scan)) (closed : Bool)
  | broken

namespace Scan

mutual

/-- A JSON value is read as a whole. -/
def ofJson : Json → Scan
  | .null => .null
  | .bool value => .bool value
  | .number value => .float value
  | .string value => .string value
  | .array items => .array (ofItems items) true
  | .object members => .object (ofMembers members) true

def ofItems : List Json → List Scan
  | [] => []
  | item :: rest => ofJson item :: ofItems rest

def ofMembers : List (String × Json) → List (String × Scan)
  | [] => []
  | (key, value) :: rest => (key, ofJson value) :: ofMembers rest

end

/-- What follows the blanks that a text begins with. -/
def skipBlanks (chars : List Char) : List Char :=
  chars.dropWhile fun c => c = ' ' || c = '\n' || c = '\t' || c = '\r'

/-- What follows a given beginning. -/
def skipWord? : List Char → List Char → Option (List Char)
  | [], chars => some chars
  | c :: word, d :: chars => if c = d then skipWord? word chars else none
  | _, [] => none

def hexDigit? (c : Char) : Option Nat :=
  if c.isDigit then some (c.toNat - '0'.toNat)
  else if 'a' ≤ c && c ≤ 'f' then some (c.toNat - 'a'.toNat + 10)
  else if 'A' ≤ c && c ≤ 'F' then some (c.toNat - 'A'.toNat + 10)
  else none

/-- The value of four hexadecimal digits. -/
def hexQuad? (a b c d : Char) : Option Nat := do
  some ((((← hexDigit? a) * 16 + (← hexDigit? b)) * 16 + (← hexDigit? c)) * 16 + (← hexDigit? d))

/-- The character that a backslash and this letter stand for. -/
def escaped? : Char → Option Char
  | '"' => some '"'
  | '\\' => some '\\'
  | '/' => some '/'
  | 'b' => some '\x08'
  | 'f' => some '\x0c'
  | 'n' => some '\n'
  | 'r' => some '\r'
  | 't' => some '\t'
  | _ => none

/-- The first half of a code point beyond the first plane. -/
def isHighSurrogate (code : Nat) : Bool := 0xd800 ≤ code && code < 0xdc00

/-- The second half of a code point beyond the first plane. -/
def isLowSurrogate (code : Nat) : Bool := 0xdc00 ≤ code && code < 0xe000

def joinSurrogates (high low : Nat) : Nat :=
  0x10000 + (high - 0xd800) * 0x400 + (low - 0xdc00)

/-- The characters of a string up to its closing quote, and what follows it. -/
def stringTail? : List Char → Option (List Char × List Char)
  | [] => none
  | '"' :: rest => some ([], rest)
  | '\\' :: 'u' :: a :: b :: c :: d :: rest =>
    match hexQuad? a b c d with
    | none => none
    | some code =>
      if isLowSurrogate code then none
      else if isHighSurrogate code then
        match rest with
        | '\\' :: 'u' :: a' :: b' :: c' :: d' :: rest' =>
          match hexQuad? a' b' c' d' with
          | none => none
          | some low =>
            if isLowSurrogate low then
              (stringTail? rest').map fun (chars, after) =>
                (Char.ofNat (joinSurrogates code low) :: chars, after)
            else none
        | _ => none
      else (stringTail? rest).map fun (chars, after) => (Char.ofNat code :: chars, after)
  | '\\' :: c :: rest =>
    match escaped? c with
    | none => none
    | some d => (stringTail? rest).map fun (chars, after) => (d :: chars, after)
  | c :: rest =>
    if c = '\\' || c.toNat < 0x20 then none
    else (stringTail? rest).map fun (chars, after) => (c :: chars, after)

/-- The optional fraction of a number: its digits, and what follows. -/
def fractionTail? : List Char → Option (Option (List Char) × List Char)
  | '.' :: chars =>
    let (digits, rest) := Decimal.spanDigits chars
    if digits = [] then none else some (some digits, rest)
  | chars => some (none, chars)

/-- The optional exponent of a number, and what follows. -/
def exponentTail? : List Char → Option (Option Int × List Char)
  | [] => some (none, [])
  | mark :: chars =>
    if mark = 'e' || mark = 'E' then
      let (negative, more) := Decimal.splitSign chars
      let (digits, rest) := Decimal.spanDigits more
      let exponent : Int := Decimal.ofDigits digits
      if digits = [] then none else some (some (if negative then -exponent else exponent), rest)
    else
      some (none, mark :: chars)

/-- The number that a text of digits, fraction and exponent denotes.  Integers that fit in 64 bits
stay integers; numbers beyond the finite ones are malformed. -/
def ofNumeral (negative : Bool) (whole : List Char) (fraction : Option (List Char))
    (exponent : Option Int) : Scan :=
  let n := Decimal.ofDigits whole
  let isInteger := fraction = none && exponent = none
  if isInteger && !negative && n < 1 <<< 64 then .integer n
  else if isInteger && negative && 0 < n && n ≤ 1 <<< 63 then .integer (-(n : Int))
  else
    let places := fraction.getD []
    let value := Decimal.toBinary64 negative (Decimal.ofDigits (whole ++ places))
      (exponent.getD 0 - places.length)
    if value.isFinite then .float value else .broken

/-- A number at the beginning of a text. -/
def ofNumberText (chars : List Char) : Scan × Option (List Char) :=
  let (negative, unsigned) := match chars with
    | '-' :: rest => (true, rest)
    | _ => (false, chars)
  let (whole, rest) := Decimal.spanDigits unsigned
  if whole = [] || (whole.length ≠ 1 && whole.head? = some '0') then (.broken, none)
  else
    match fractionTail? rest with
    | none => (.broken, none)
    | some (fraction, rest) =>
      match exponentTail? rest with
      | none => (.broken, none)
      | some (exponent, rest) =>
        match ofNumeral negative whole fraction exponent with
        | .broken => (.broken, none)
        | number => (number, some rest)

/-- A word at the beginning of a text. -/
def ofWord (word : String) (value : Scan) (chars : List Char) : Scan × Option (List Char) :=
  match skipWord? word.toList chars with
  | some rest => (value, some rest)
  | none => (.broken, none)

/-- How deep arrays and objects may usually be nested. -/
def depthLimit : Nat := 127

mutual

/-- The value that a text begins with, and what follows it unless it is broken.  The first number
bounds the steps, the second one the depth of arrays and objects. -/
def valueAt : Nat → Nat → List Char → Scan × Option (List Char)
  | 0, _, _ => (.broken, none)
  | fuel + 1, depth, chars =>
    match skipBlanks chars with
    | '{' :: rest =>
      match depth with
      | 0 => (.object [] false, none)
      | depth + 1 =>
        let (members, after) := membersAt fuel depth true rest
        (.object members after.isSome, after)
    | '[' :: rest =>
      match depth with
      | 0 => (.array [] false, none)
      | depth + 1 =>
        let (items, after) := itemsAt fuel depth true rest
        (.array items after.isSome, after)
    | '"' :: rest =>
      match stringTail? rest with
      | some (text, after) => (.string (String.ofList text), some after)
      | none => (.broken, none)
    | 't' :: rest => ofWord "true" (.bool true) ('t' :: rest)
    | 'f' :: rest => ofWord "false" (.bool false) ('f' :: rest)
    | 'n' :: rest => ofWord "null" .null ('n' :: rest)
    | rest => ofNumberText rest

/-- The items of an array up to its end. -/
def itemsAt : Nat → Nat → Bool → List Char → List Scan × Option (List Char)
  | 0, _, _, _ => ([], none)
  | fuel + 1, depth, first, chars =>
    match skipBlanks chars with
    | ']' :: rest => ([], some rest)
    | rest =>
      let start := match first, rest with
        | true, _ => some rest
        | false, ',' :: more =>
          if (skipBlanks more).head? = some ']' then none else some more
        | false, _ => none
      match start with
      | none => ([], none)
      | some text =>
        if skipBlanks text = [] then ([], none)
        else
          match valueAt fuel depth text with
          | (value, none) => ([value], none)
          | (value, some after) =>
            let (values, done) := itemsAt fuel depth false after
            (value :: values, done)

/-- The members of an object up to its end. -/
def membersAt : Nat → Nat → Bool → List Char → List (String × Scan) × Option (List Char)
  | 0, _, _, _ => ([], none)
  | fuel + 1, depth, first, chars =>
    match skipBlanks chars with
    | '}' :: rest => ([], some rest)
    | rest =>
      let start := match first, rest with
        | true, _ => some rest
        | false, ',' :: more => some (skipBlanks more)
        | false, _ => none
      match start with
      | some ('"' :: text) =>
        match stringTail? text with
        | none => ([], none)
        | some (key, afterKey) =>
          match skipBlanks afterKey with
          | ':' :: afterColon =>
            match valueAt fuel depth afterColon with
            | (value, none) => ([(String.ofList key, value)], none)
            | (value, some after) =>
              let (members, done) := membersAt fuel depth false after
              ((String.ofList key, value) :: members, done)
          | _ => ([(String.ofList key, .broken)], none)
      | _ => ([], none)

end

/-- The first value of a text, with arrays and objects nested to a given depth at most.  Every step
but one in two takes a character away, so the bound on the steps is never reached. -/
def ofNestedText (depth : Nat) (text : String) : Scan :=
  let chars := text.toList
  (valueAt (2 * chars.length + 2) depth chars).1

/-- The first value of a text. -/
def ofText (text : String) : Scan :=
  ofNestedText depthLimit text

end Scan

end ItemMapper
