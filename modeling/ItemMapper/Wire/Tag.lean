/-!
# Wire type tags

A stored value is an object with a single key, which is one of ten tags and says what form the
content has.
-/

namespace ItemMapper

inductive WireType where
  | string
  | number
  | binary
  | stringSet
  | numberSet
  | binarySet
  | boolean
  | null
  | list
  | map
deriving DecidableEq, Repr

namespace WireType

def all : List WireType :=
  [.string, .number, .binary, .stringSet, .numberSet, .binarySet, .boolean, .null, .list, .map]

def tag : WireType → String
  | .string => "S"
  | .number => "N"
  | .binary => "B"
  | .stringSet => "SS"
  | .numberSet => "NS"
  | .binarySet => "BS"
  | .boolean => "BOOL"
  | .null => "NULL"
  | .list => "L"
  | .map => "M"

def tags : List String := all.map tag

/-- The type with a given tag.  Tags are case-sensitive. -/
def ofTag? (text : String) : Option WireType :=
  all.find? fun type => type.tag == text

def typeName : WireType → String
  | .string => "string"
  | .number => "number"
  | .binary => "buffer"
  | .stringSet | .numberSet | .binarySet => "set"
  | .boolean => "boolean"
  | .null => "null"
  | .list => "array"
  | .map => "object"

def isSet : WireType → Bool
  | .stringSet | .numberSet | .binarySet => true
  | _ => false

theorem mem_all (type : WireType) : type ∈ all := by
  cases type <;> decide

theorem ofTag?_tag (type : WireType) : ofTag? type.tag = some type := by
  cases type <;> rfl

theorem tag_of_ofTag? {text : String} {type : WireType} (h : ofTag? text = some type) :
    type.tag = text := by
  simpa using List.find?_some h

end WireType

end ItemMapper
