import ItemMapper.Expression.Placeholder
import ItemMapper.Wire.Json

/-!
# Compiled expressions

A compiled expression is a text with placeholders and the tables that say what they stand for.  A
request carries the three of them as members of its own; members without content are left out.
-/

namespace ItemMapper

/-- An expression with its tables. -/
structure CompiledExpression where
  expression : String
  /-- Placeholders with attribute names, in the order of their numbers. -/
  names : List (String × String)
  /-- Placeholders with stored values, in the order of their numbers. -/
  values : List (String × WireValue)
deriving DecidableEq

/-- What an expression is for. -/
inductive ExpressionKind where
  | filter
  | condition
  | keyCondition
  | update
deriving DecidableEq, Repr

/-- The member of a request that holds an expression. -/
def ExpressionKind.member : ExpressionKind → String
  | .filter => "FilterExpression"
  | .condition => "ConditionExpression"
  | .keyCondition => "KeyConditionExpression"
  | .update => "UpdateExpression"

namespace CompiledExpression

/-- The expression that is laid out as the given pieces. -/
def ofPieces (pieces : List Piece) : CompiledExpression :=
  let paths := numberedPaths pieces
  { expression := String.join ((Token.ofPieces paths 0 pieces).map Token.render)
    names := (numberedNames 0 paths).map fun (token, name) => (token.render, name)
    values := (numberedValues 0 pieces).map fun (token, value) => (token.render, value) }

def isEmpty (compiled : CompiledExpression) : Bool :=
  compiled.expression.isEmpty

/-- The members of a request with this expression. -/
def request (compiled : CompiledExpression) (kind : ExpressionKind) : Fields Json :=
  let expression :=
    if compiled.isEmpty then [] else [(kind.member, Json.string compiled.expression)]
  let names :=
    if compiled.names.isEmpty then []
    else [("ExpressionAttributeNames",
      Json.object (Fields.ofList (compiled.names.map fun (token, name) => (token, .string name))))]
  let values :=
    if compiled.values.isEmpty then []
    else [("ExpressionAttributeValues",
      Json.object (Fields.ofList (WireValue.fieldsToJson compiled.values)))]
  Fields.ofList (expression ++ names ++ values)

end CompiledExpression

end ItemMapper
