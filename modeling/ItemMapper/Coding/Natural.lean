import ItemMapper.Coding.Set

/-!
# Natural forms

Without a schema a value is stored by its own kind.  Dates become numbers of milliseconds.  The
undefined value, empty sets and sets of unlike members have no stored form; they are left out of
the lists and maps that hold them.
-/

namespace ItemMapper

mutual

/-- The stored form that a native value has by itself. -/
def Value.natural? : Value → Option WireValue
  | .undefined => none
  | .null => some (.null true)
  | .bool value => some (.boolean value)
  | .number value => some (.number value.text)
  | .string text => some (.string text)
  | .binary bytes => some (.binary bytes)
  | .date instant => some (.ofDate instant .milliseconds)
  | .list items => some (.list (Value.naturalItems items))
  | .set [] => none
  | .set (first :: rest) =>
    match (SetElement.ofFirst first).encode (first :: rest) with
    | .ok stored => stored
    | .error _ => none
  | .map fields => some (.map (Value.naturalFields fields))

def Value.naturalItems : List Value → List WireValue
  | [] => []
  | item :: rest =>
    match Value.natural? item with
    | some stored => stored :: Value.naturalItems rest
    | none => Value.naturalItems rest

def Value.naturalFields : List (String × Value) → List (String × WireValue)
  | [] => []
  | (key, value) :: rest =>
    match Value.natural? value with
    | some stored => (key, stored) :: Value.naturalFields rest
    | none => Value.naturalFields rest

end

/-- The number that a stored text denotes; not-a-number if it denotes none. -/
def Value.ofNumberText (text : String) : Value :=
  .number ((Decimal.parse? text).getD .nan)

mutual

/-- The native value that a stored value is by itself. -/
def WireValue.natural : WireValue → Value
  | .string text => .string text
  | .number text => .ofNumberText text
  | .binary bytes => .binary bytes
  | .stringSet members => .set (members.map .string)
  | .numberSet members => .set (members.map .ofNumberText)
  | .binarySet members => .set (members.map .binary)
  | .boolean value => .bool value
  | .null _ => .null
  | .list items => .list (WireValue.naturalItems items)
  | .map fields => .map (WireValue.naturalFields fields)

def WireValue.naturalItems : List WireValue → List Value
  | [] => []
  | item :: rest => item.natural :: WireValue.naturalItems rest

def WireValue.naturalFields : List (String × WireValue) → List (String × Value)
  | [] => []
  | (key, value) :: rest => (key, value.natural) :: WireValue.naturalFields rest

end

/-- Whether a stored value is a set of the type that members of this kind make. -/
def WireValue.isSetOf (value : WireValue) (element : SetElement) : Bool :=
  value.wireType == element.wireType

/-- The native set that a stored value is.  Sets of dates are read member by member. -/
def WireValue.setOf? (value : WireValue) (element : SetElement) : Option Value :=
  match value, element with
  | .stringSet members, .date storage =>
    (members.mapM fun text => (WireValue.string text).date? storage).map fun dates =>
      .set (dates.map .date)
  | .numberSet members, .date storage =>
    (members.mapM fun text => (WireValue.number text).date? storage).map fun dates =>
      .set (dates.map .date)
  | .stringSet members, _ => some (WireValue.stringSet members).natural
  | .numberSet members, _ => some (WireValue.numberSet members).natural
  | .binarySet members, _ => some (WireValue.binarySet members).natural
  | _, _ => none

end ItemMapper
