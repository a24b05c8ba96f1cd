import ItemMapper.Expression.Compiled
import ItemMapper.Expression.Update.Change

/-!
# Update actions

An action is a change on the stored side, and its clause in the text of an update goes by its kind.
Assignments store the whole value through the schema.  A number, a set or a list grows by what is
added to it, depending on the types of the attribute.
-/

namespace ItemMapper

/-- A change of a stored item. -/
inductive Action where
  | add (path : List Segment) (operand : WireValue)
  | remove (path : List Segment)
  | set (path : List Segment) (operand : WireValue)
  /-- The operand is put at the end of a list. -/
  | append (path : List Segment) (operand : WireValue)
  | delete (path : List Segment) (operand : WireValue)
deriving DecidableEq

/-- A clause of an update. -/
inductive Clause where
  | add
  | remove
  | set
  | delete
deriving DecidableEq, Repr

namespace Clause

def all : List Clause := [.add, .remove, .set, .delete]

def keyword : Clause → String
  | .add => "ADD"
  | .remove => "REMOVE"
  | .set => "SET"
  | .delete => "DELETE"

end Clause

namespace Action

/-! ### Layout -/

def clause : Action → Clause
  | .add _ _ => .add
  | .remove _ => .remove
  | .set _ _ | .append _ _ => .set
  | .delete _ _ => .delete

def pieces : Action → List Piece
  | .add path operand | .delete path operand => [.path path, .text " ", .operand operand]
  | .remove path => [.path path]
  | .set path operand => [.path path, .text " = ", .operand operand]
  | .append path operand =>
    [.path path, .text " = list_append(", .path path, .text ", ", .operand operand, .text ")"]

/-- The layout of a clause, none if it has no actions. -/
def clausePieces? (actions : List Action) (clause : Clause) : Option (List Piece) :=
  match actions.filter fun action => action.clause = clause with
  | [] => none
  | members =>
    some (.text (clause.keyword ++ " ") ::
      [Piece.text ", "].intercalate (members.map Action.pieces))

def updatePieces (actions : List Action) : List Piece :=
  [Piece.text " "].intercalate (Clause.all.filterMap (clausePieces? actions))

end Action

variable {σ : Type}

/-! ### From changes -/

/-- The members that a value adds to a set or takes from it. -/
def Value.members : Value → List Value
  | .set members => members
  | .list members => members
  | single => [single]

namespace CandidateType

/-- The type of the members of the first set among some types. -/
def firstSetElement? (types : List (CandidateType σ)) : Option (CandidateType σ) :=
  types.findSome? fun
    | .set element => some element
    | _ => none

def firstArray? (types : List (CandidateType σ)) : Option (CandidateType σ) :=
  types.find? fun
    | .array _ => true
    | _ => false

def hasNumber (types : List (CandidateType σ)) : Bool :=
  types.any fun
    | .primitive .number => true
    | _ => false

/-- The type of the members of a set as the set itself tells it. -/
def ofSetMembers? : Value → Option (CandidateType σ)
  | .set (.string _ :: _) => some (.primitive .string)
  | .set (.number _ :: _) => some (.primitive .number)
  | .set (.binary _ :: _) => some (.primitive .binary)
  | _ => none

end CandidateType

/-- The value at a dotted path of a document; numbers are positions in lists. -/
def Value.descend? : Value → List String → Option Value
  | value, [] => some value
  | .map fields, part :: rest => (Fields.get? fields part).bind (Value.descend? · rest)
  | .list items, part :: rest =>
    ((Decimal.parseIndex? part).bind (items[·]?)).bind (Value.descend? · rest)
  | _, _ :: _ => none

/-- A document is known, and has no items in the list at a dotted path. -/
def Document.lacksItems (document : Document) (path : String) : Bool :=
  !document.isEmpty &&
    match (Value.map document).descend? (Dotted.split path) with
    | none | some (.list []) => true
    | some _ => false

namespace Change

/-- The stored set of some members. -/
def encodeMembers (scope : Scope σ) (change : Change σ) (element : CandidateType σ)
    (value : Value) : Except MapperError (Option WireValue) :=
  Reading.encodeSet ⟨scope, .ofText change.path, .set element⟩ element value.members

/-- The action that adds a value to an undeclared attribute. -/
def addUndeclared? (path : List Segment) (value : Value) : Option Action :=
  match value with
  | .number _ | .set _ => value.natural?.map (Action.add path)
  | .list _ => value.natural?.map (Action.append path)
  | _ => none

/-- The action that adds a value to an attribute. -/
def addition (scope : Scope σ) (current : Document) (change : Change σ) (value : Value) :
    Except MapperError Action :=
  let path := change.target.segments
  let orWrong {α : Type} (result : Option α) : Except MapperError α :=
    match result with
    | some found => .ok found
    | none => .error (.ofUpdate (.addTarget change.path))
  match change.target.types with
  | none => orWrong (addUndeclared? path value)
  | some types =>
    match CandidateType.hasNumber types, value with
    | true, .number x => .ok (.add path (.number x.text))
    | _, _ =>
      match CandidateType.firstSetElement? types, CandidateType.firstArray? types with
      | some element, _ => do
        let stored ← change.encodeMembers scope element value
        return .add path (← orWrong stored)
      | none, some array => do
        let stored ← (Value.list value.members).encodeAs ⟨scope, .ofText change.path, array⟩
        let operand ← orWrong stored
        return if current.lacksItems change.path then .set path operand else .append path operand
      | none, none => orWrong none

/-- The action that takes members from a set. -/
def deletion (scope : Scope σ) (change : Change σ) (value : Value) : Except MapperError Action :=
  match (change.target.types.bind CandidateType.firstSetElement?).or
      (CandidateType.ofSetMembers? value) with
  | none => .error (.ofUpdate (.deleteTarget change.path))
  | some element => do
    match ← change.encodeMembers scope element value with
    | some stored => return .delete change.target.segments stored
    | none => throw (.ofUpdate (.emptyDelete change.path))

/-- The action that gives an attribute a value.  A value that has no stored form removes the
attribute. -/
def assignment (scope : Scope σ) (writing : Writing) (change : Change σ) (value : Value) :
    Pipeline σ Action := do
  let stored ←
    match change.target.types with
    | some types =>
      Value.writerTo writing writing.depth value scope (.ofText change.path) types
    | none => pure value.natural?
  match stored with
  | some operand => return .set change.target.segments operand
  | none => return .remove change.target.segments

/-- The action that a change is on the stored side. -/
def action (scope : Scope σ) (writing : Writing) (current : Document) (change : Change σ) :
    Pipeline σ Action :=
  match change.request with
  | .remove _ => pure (.remove change.target.segments)
  | .set value => change.assignment scope writing value
  | .add value => Pipeline.ofExcept (change.addition scope current value)
  | .delete value => Pipeline.ofExcept (change.deletion scope value)

end Change

end ItemMapper
