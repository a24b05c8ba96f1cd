import ItemMapper.Instant.Text
import ItemMapper.Text.Quoted
import ItemMapper.Value

/-!
# Values in messages

Messages show a value in a short form close to JSON: strings are quoted, dates are written out,
binary data is only counted, and sets look like lists.
-/

namespace ItemMapper.Value

mutual

/-- The short form of a value. -/
def describe : Value → String
  | .undefined => "undefined"
  | .null => "null"
  | .bool value => boolText value
  | .number value => value.text
  | .string text => Text.quote text
  | .binary bytes => "<" ++ toString bytes.length ++ " bytes>"
  | .date instant => instant.text
  | .list items | .set items => "[" ++ String.intercalate ", " (describeItems items) ++ "]"
  | .map fields => "\x7b" ++ String.intercalate ", " (describeFields fields) ++ "\x7d"

def describeItems : List Value → List String
  | [] => []
  | item :: rest => describe item :: describeItems rest

def describeFields : List (String × Value) → List String
  | [] => []
  | (key, value) :: rest => (key ++ ": " ++ describe value) :: describeFields rest

end

/-- The short form of a value in running text, where strings are not quoted. -/
def plainText : Value → String
  | .string text => text
  | value => value.describe

end ItemMapper.Value
