import ItemMapper.AttributePath
import ItemMapper.Expression.Update.Request
import ItemMapper.Marshal.Write

/-!
# Changes

A change is a request whose path has been followed through the schema.  The changes of an update
are prepared in two rounds: first, removals of attributes with a default become assignments of the
default, and required attributes must not be removed; then the values assigned to attributes of the
outermost document are modified and checked.  No change of a key is let through.
-/

namespace ItemMapper

/-- A request for an attribute that the schema knows or keeps. -/
structure Change (σ : Type) where
  path : String
  target : ResolvedPath σ
  request : Request

variable {σ : Type}

namespace Change

/-- The stored name of the attribute, if it is a declared one of the outermost document. -/
def topLevelName? (change : Change σ) : Option String :=
  change.target.topLevel?.map AttributeOf.name

/-- The change is one of the attribute of the outermost document with this stored name. -/
def concerns (change : Change σ) (name : String) : Bool :=
  change.topLevelName? == some name

end Change

namespace Scope

/-- The change that a request for a path makes, unless it is one of a key. -/
def change (scope : Scope σ) (path : String) (request : Request) :
    Except MapperError (Change σ) := do
  let target ← scope.lookup path
  match target.topLevel? with
  | some field =>
    if scope.root.isKey field.name then throw (.ofUpdate (.keyAttribute field.name))
    else return ⟨path, target, request⟩
  | none => return ⟨path, target, request⟩

def requestedChanges (scope : Scope σ) (update : Document) :
    Except MapperError (List (Change σ)) := do
  let requests ← (Request.ofDocument update).mapError .ofUpdate
  requests.mapM fun (path, request) => scope.change path request

end Scope

namespace Change

/-- Lets the default take the place of a removed value.  Where there is none, the attribute must
not be required. -/
def restoreDefault (writing : Writing) (current : Document) (change : Change σ) :
    Pipeline σ (Change σ) := do
  match change.request, change.target.topLevel? with
  | .remove restores, some field =>
    let restored ←
      if restores then evaluateDefault writing.now field current change.path else pure none
    match restored with
    | some value => return { change with request := .set value }
    | none =>
      if field.required && writing.options.required != .off then
        throw (.validation (.missing change.path))
      else return change
  | _, _ => return change

/-- Modifies and checks the value that an attribute of the outermost document is set to. -/
def prepare (writing : Writing) (change : Change σ) : Pipeline σ (Change σ) := do
  match change.request, change.target.topLevel? with
  | .set given, some field =>
    let value ←
      if writing.options.modifiers then applyModifiers field.writeModifiers change.path given
      else pure given
    if field.required && writing.options.required != .off && value.isUndefined then
      throw (.validation (.missing change.path))
    checkValue writing.options field value change.path
    return { change with request := .set value }
  | _, _ => return change

end Change

end ItemMapper
