import ItemMapper.Error

/-!
# Update requests

An update is a document.  A field of it sets an attribute, or removes it if its value is undefined.
The fields `$SET`, `$ADD`, `$REMOVE` and `$DELETE` hold such requests of one kind each.
`Request.ofDocument` takes an update apart into paths with what is requested for them, in the order
of the keys.
-/

namespace ItemMapper

/-- What is to happen to an attribute. -/
inductive Request where
  | set (value : Value)
  /-- A number is added, a set or a list grows. -/
  | add (value : Value)
  /-- The attribute loses its value.  If `restores`, the default takes its place. -/
  | remove (restores : Bool)
  /-- A set loses members. -/
  | delete (value : Value)

namespace Request

/-- The value that the attribute is set to. -/
def assigned? : Request → Option Value
  | .set value => some value
  | _ => none

def isRemoval : Request → Bool
  | .remove _ => true
  | _ => false

/-- The requests of one kind that a field of an update holds. -/
def ofBucket (bucket : String) (request : Value → Request) :
    Value → Except UpdateError (List (String × Request))
  | .map fields => .ok (fields.map fun (path, value) => (path, request value))
  | _ => .error (.bucketShape bucket)

/-- The paths that a field of an update removes. -/
def removedPaths : Value → Except UpdateError (List String)
  | .map fields => .ok (Fields.keys fields)
  | .list names => names.mapM fun name =>
    match name.string? with
    | some path => .ok path
    | none => .error .removedName
  | .string path => .ok [path]
  | _ => .error .removedShape

/-- The requests of one field of an update. -/
def ofField (key : String) (value : Value) : Except UpdateError (List (String × Request)) :=
  if key = "$SET" then ofBucket key .set value
  else if key = "$ADD" then ofBucket key .add value
  else if key = "$DELETE" then ofBucket key .delete value
  else if key = "$REMOVE" then do
    let paths ← removedPaths value
    return paths.map fun path => (path, .remove true)
  else if key.startsWith "$" then .error (.unknownBucket key)
  else if value.isUndefined then .ok [(key, .remove false)]
  else .ok [(key, .set value)]

def ofDocument (update : Document) : Except UpdateError (List (String × Request)) := do
  let requests ← update.mapM fun (key, value) => ofField key value
  return requests.flatten

end Request

end ItemMapper
