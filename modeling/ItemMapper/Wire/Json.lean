import ItemMapper.Json.Scan
import ItemMapper.Number.Text
import ItemMapper.Text.Base64
import ItemMapper.Text.Quoted
import ItemMapper.Wire.Value

/-!
# Stored values as JSON

A stored value is written as an object whose only key is the tag of its type; binary content is
written in Base64.  `WireValue.ofScan` reads a JSON text from the left and reports the first fault
that it meets, be it in the text or in what the text says.  `WireValue.isItem?` tells objects that
already have the shape of an item from others.
-/

namespace ItemMapper

/-- Why a JSON text is no stored value. -/
inductive WireError where
  /-- The text is not JSON. -/
  | malformed
  /-- Where a stored value should be stands something else. -/
  | notAnObject (found : String)
  /-- The key of the object is no tag. -/
  | unknownTag (tag : String)
  /-- The object has no key or more than one. -/
  | notOneKey
  /-- The content does not have the form that the tag asks for. -/
  | badContent
deriving DecidableEq, Repr

namespace WireError

/-- The fault in words, where it has a fixed wording. -/
def message? : WireError → Option String
  | .malformed | .badContent => none
  | .notAnObject found =>
    some ("invalid type: " ++ found ++
      ", expected a DynamoDB AttributeValue object with exactly one type key")
  | .unknownTag tag =>
    some ("unknown field `" ++ tag ++ "`, expected one of " ++
      String.intercalate ", " (WireType.tags.map fun known => "`" ++ known ++ "`"))
  | .notOneKey => some "AttributeValue must have exactly one key"

end WireError

namespace WireValue

/-! ### Writing -/

/-- An object whose only key is the tag of a type. -/
def tagged (type : WireType) (content : Json) : Json :=
  .object [(type.tag, content)]

mutual

/-- The JSON form of a stored value. -/
def toJson : WireValue → Json
  | .string text => tagged .string (.string text)
  | .number text => tagged .number (.string text)
  | .binary bytes => tagged .binary (.string (Base64.encode bytes))
  | .stringSet members => tagged .stringSet (.array (members.map .string))
  | .numberSet members => tagged .numberSet (.array (members.map .string))
  | .binarySet members =>
    tagged .binarySet (.array (members.map fun bytes => .string (Base64.encode bytes)))
  | .boolean value => tagged .boolean (.bool value)
  | .null value => tagged .null (.bool value)
  | .list items => tagged .list (.array (itemsToJson items))
  | .map fields => tagged .map (.object (fieldsToJson fields))

def itemsToJson : List WireValue → List Json
  | [] => []
  | item :: rest => toJson item :: itemsToJson rest

def fieldsToJson : List (String × WireValue) → List (String × Json)
  | [] => []
  | (key, value) :: rest => (key, toJson value) :: fieldsToJson rest

end

/-! ### Reading -/

/-- What a value is in the words of a message. -/
def describeScan : Scan → String
  | .null => "null"
  | .bool value => "boolean `" ++ toString value ++ "`"
  | .integer value => "integer `" ++ toString value ++ "`"
  | .float value => "floating point `" ++ value.jsonText ++ "`"
  | .string text => "string " ++ Text.quote text
  | .array .. => "sequence"
  | .object .. => "map"
  | .broken => ""

/-- The result of reading a container whose end was not reached is lost. -/
def closing {α : Type} (closed : Bool) (value : α) : Except WireError α :=
  if closed then .ok value else .error .malformed

/-- The text that some content must be. -/
def textOf : Scan → Except WireError String
  | .string text => .ok text
  | .broken => .error .malformed
  | _ => .error .badContent

/-- The truth value that some content must be. -/
def boolOf : Scan → Except WireError Bool
  | .bool value => .ok value
  | .broken => .error .malformed
  | _ => .error .badContent

/-- The list of texts that some content must be. -/
def textsOf : Scan → Except WireError (List String)
  | .array items closed => do closing closed (← items.mapM textOf)
  | .broken => .error .malformed
  | _ => .error .badContent

/-- The bytes that a text must stand for. -/
def bytesOf (text : String) : Except WireError (List UInt8) :=
  match Base64.decode? text with
  | some bytes => .ok bytes
  | none => .error .badContent

mutual

/-- The stored value that a JSON text holds, or the first fault in it. -/
def ofScan : Scan → Except WireError WireValue
  | .object [] closed => if closed then .error .notOneKey else .error .malformed
  | .object ((tag, content) :: rest) closed =>
    match WireType.ofTag? tag with
    | none => .error (.unknownTag tag)
    | some type => do
      let value ← ofContent type content
      if rest.isEmpty then closing closed value else .error .notOneKey
  | .broken => .error .malformed
  | other => .error (.notAnObject (describeScan other))

/-- The stored value with this type and content. -/
def ofContent (type : WireType) : Scan → Except WireError WireValue
  | .array items closed =>
    match type with
    | .stringSet => return .stringSet (← textsOf (.array items closed))
    | .numberSet => return .numberSet (← textsOf (.array items closed))
    | .binarySet => do
      let texts ← textsOf (.array items closed)
      return .binarySet (← texts.mapM bytesOf)
    | .list => do closing closed (.list (← itemsOfScan items))
    | _ => .error .badContent
  | .object members closed =>
    match type with
    | .map => do closing closed (.map (Fields.ofList (← fieldsOfScan members)))
    | _ => .error .badContent
  | scalar =>
    match type with
    | .string => return .string (← textOf scalar)
    | .number => return .number (← textOf scalar)
    | .binary => return .binary (← bytesOf (← textOf scalar))
    | .boolean => return .boolean (← boolOf scalar)
    | .null => return .null (← boolOf scalar)
    | _ => match scalar with
      | .broken => .error .malformed
      | _ => .error .badContent

def itemsOfScan : List Scan → Except WireError (List WireValue)
  | [] => .ok []
  | item :: rest => do
    let value ← ofScan item
    return value :: (← itemsOfScan rest)

def fieldsOfScan : List (String × Scan) → Except WireError (List (String × WireValue))
  | [] => .ok []
  | (key, item) :: rest => do
    let value ← ofScan item
    return (key, value) :: (← fieldsOfScan rest)

end

/-- The stored value that a JSON value is the form of. -/
def ofJson (json : Json) : Except WireError WireValue :=
  ofScan (.ofJson json)

/-- The stored value at the beginning of a text. -/
def ofText (text : String) : Except WireError WireValue :=
  ofScan (.ofText text)

/-- The item that a JSON object is the form of. -/
def itemOfJson (json : Json) : Except WireError Item :=
  match json with
  | .object members => return Fields.ofList (← fieldsOfScan (Scan.ofMembers members))
  | other => .error (.notAnObject (describeScan (.ofJson other)))

/-! ### Recognising items -/

mutual

/-- The shape of a stored value: one key, which is a tag, and in lists and maps the same again.
The content of the other types is not looked at. -/
def hasShape : Json → Bool
  | .object [(tag, content)] =>
    match WireType.ofTag? tag with
    | none => false
    | some type => contentHasShape type content
  | _ => false

/-- The content that a tag asks for, as far as its shape goes. -/
def contentHasShape (type : WireType) : Json → Bool
  | .object members =>
    match type with
    | .map => allMembersHaveShape members
    | .list => false
    | _ => true
  | .array items =>
    match type with
    | .list => allHaveShape items
    | .map => false
    | _ => true
  | _ =>
    match type with
    | .map | .list => false
    | _ => true

def allHaveShape : List Json → Bool
  | [] => true
  | item :: rest => hasShape item && allHaveShape rest

def allMembersHaveShape : List (String × Json) → Bool
  | [] => true
  | (_, value) :: rest => hasShape value && allMembersHaveShape rest

end

/-- Whether the members of an object are those of a stored item.  An object without members may
be either. -/
def isItem? (members : Fields Json) : Option Bool :=
  if members.isEmpty then none else some (allMembersHaveShape members)

end WireValue

end ItemMapper
