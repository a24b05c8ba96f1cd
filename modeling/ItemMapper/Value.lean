import ItemMapper.Instant
import ItemMapper.Json
import ItemMapper.Number.Text

/-!
# Native values

A native value is what an application works with before it is stored and after it is read.  A
document is a whole item or a nested object on the native side.  Besides the usual kinds of data
there is the value `undefined`, which stands for a field that is to have no value.
-/

namespace ItemMapper

inductive Value where
  | undefined
  | null
  | bool (value : Bool)
  | number (value : Binary64)
  | string (text : String)
  | binary (bytes : List UInt8)
  | date (instant : Instant)
  | list (items : List Value)
  | set (members : List Value)
  | map (fields : List (String × Value))

/-- Attribute names with native values. -/
abbrev Document := Fields Value

namespace Value

instance : Inhabited Value := ⟨undefined⟩

def typeName : Value → String
  | .undefined => "undefined"
  | .null => "null"
  | .bool _ => "boolean"
  | .number _ => "number"
  | .string _ => "string"
  | .binary _ => "buffer"
  | .date _ => "date"
  | .list _ => "array"
  | .set _ => "set"
  | .map _ => "object"

/-- The value that stands for none. -/
def isUndefined : Value → Bool
  | .undefined => true
  | _ => false

/-- A map, which may be a document of its own. -/
def isDocument : Value → Bool
  | .map _ => true
  | _ => false

def string? : Value → Option String
  | .string text => some text
  | _ => none

def map? : Value → Option Document
  | .map fields => some fields
  | _ => none

def boolText (value : Bool) : String :=
  if value then "true" else "false"

/-- A scalar as it appears inside a combined attribute.  Containers, null, binary data and the
undefined value can not be combined. -/
def combinedText? : Value → Option String
  | .string text => some text
  | .number value => some value.text
  | .bool value => some (boolText value)
  | .date instant => some (toString instant.millis)
  | _ => none

/-- A value read as a date: dates as they are, finite numbers as milliseconds. -/
def date? : Value → Option Instant
  | .date instant => some instant
  | .number millis => if millis.isFinite then Instant.ofNumber? millis else none
  | _ => none

/-! ### Equality -/

mutual

/-- Equality of values, where numbers are compared by `Binary64.equal`. -/
def equal : Value → Value → Bool
  | .undefined, .undefined => true
  | .null, .null => true
  | .bool a, .bool b => a == b
  | .number a, .number b => a.equal b
  | .string a, .string b => a == b
  | .binary a, .binary b => a == b
  | .date a, .date b => a == b
  | .list a, .list b => equalItems a b
  | .set a, .set b => equalItems a b
  | .map a, .map b => equalFields a b
  | _, _ => false

def equalItems : List Value → List Value → Bool
  | [], [] => true
  | a :: as, b :: bs => equal a b && equalItems as bs
  | _, _ => false

def equalFields : List (String × Value) → List (String × Value) → Bool
  | [], [] => true
  | (k, a) :: as, (l, b) :: bs => k == l && equal a b && equalFields as bs
  | _, _ => false

end

instance : BEq Value := ⟨equal⟩

/-! ### Well-formed values -/

mutual

/-- The fields of every map, at every depth, have each key once and in order. -/
def WellFormed : Value → Prop
  | .list items | .set items => AllWellFormed items
  | .map fields => Fields.Sorted fields ∧ FieldsWellFormed fields
  | _ => True

def AllWellFormed : List Value → Prop
  | [] => True
  | item :: rest => WellFormed item ∧ AllWellFormed rest

def FieldsWellFormed : List (String × Value) → Prop
  | [] => True
  | (_, value) :: rest => WellFormed value ∧ FieldsWellFormed rest

end

/-! ### From JSON -/

mutual

/-- A JSON value as a native value: objects become maps and arrays become lists. -/
def ofJson : Json → Value
  | .null => .null
  | .bool value => .bool value
  | .number value => .number value
  | .string text => .string text
  | .array items => .list (ofItems items)
  | .object members => .map (ofMembers members)

def ofItems : List Json → List Value
  | [] => []
  | item :: rest => ofJson item :: ofItems rest

def ofMembers : List (String × Json) → List (String × Value)
  | [] => []
  | (key, value) :: rest => (key, ofJson value) :: ofMembers rest

end

end Value

/-- A JSON object as a document; other JSON values give the empty document. -/
def Document.ofJson (json : Json) : Document :=
  ((Value.ofJson json).map?).getD []

end ItemMapper
