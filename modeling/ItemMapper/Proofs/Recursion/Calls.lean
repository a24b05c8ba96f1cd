import ItemMapper.Coding.Typed
import ItemMapper.Proofs.Recursion.Program
import ItemMapper.Proofs.Typing.Highest

/-!
# Scoring, resolving, encoding and decoding as calls

Written down without regard to whether they end, the functions that find the type of a value and
store or read it call each other (`Call.body`).  A value is scored by the scores of its members; a
document of a reference is looked at in the scope of the root or of the model that is referred to;
and a value that is no document stands, where a model is referred to, for the hash key of that
model: the same value is looked at again, as one of the types of the key.

These bodies follow references from key to key as they come, without a bound and without noticing a
model that was visited before.  `Call.answer` says what the answers should be: what the definitions
say that recurse on the value alone and take the readings of hash keys from a list
(`Registry.keyReadings`).
-/

namespace ItemMapper

open Recursive

variable {σ : Type}

/-! ## What is typed -/

/-- A native value on the way to the store, or a stored one on the way back. -/
inductive Subject where
  | native (value : Value)
  | stored (value : WireValue)

namespace Subject

def isDocument : Subject → Bool
  | .native value => value.isDocument
  | .stored value => value.isDocument

def typeName : Subject → String
  | .native value => value.typeName
  | .stored value => value.typeName

/-- The items of a list. -/
def items? : Subject → Option (List Subject)
  | .native (.list items) => some (items.map .native)
  | .stored (.list items) => some (items.map .stored)
  | _ => none

/-- The members of a native set, or of a list that is to be a set.  Stored sets show by themselves
what their members are. -/
def members? : Subject → Option (List Subject)
  | .native (.set members) | .native (.list members) => some (members.map .native)
  | _ => none

/-- The fields of a document that have a value. -/
def fields? : Subject → Option (List (String × Subject))
  | .native (.map fields) =>
    some ((fields.filter fun field => !field.2.isUndefined).map fun field =>
      (field.1, .native field.2))
  | .stored (.map fields) => some (fields.map fun field => (field.1, .stored field.2))
  | _ => none

/-- The declared attribute of a field with this value. -/
def attribute? (subject : Subject) (schema : Schema σ) (key : String) : Option (Attribute σ) :=
  match subject with
  | .native _ => schema.nativeAttribute? key
  | .stored _ => schema.attribute? key

def scalarScore (subject : Subject) (type : CandidateType σ) : Rat :=
  match subject with
  | .native value => value.scalarScore type
  | .stored value => value.scalarScore type

/-- How well the value fits a reading. -/
def score (subject : Subject) (reading : Reading σ) : Rat :=
  match subject with
  | .native value => value.score Score.rounded reading
  | .stored value => value.score Score.rounded reading

/-- The type that the value takes. -/
def resolve (subject : Subject) (scope : Scope σ) (place : Place)
    (types : List (CandidateType σ)) : Except MapperError (Choice σ) :=
  match subject with
  | .native value => scope.resolve place types value
  | .stored value => scope.resolveStored place types value

end Subject

/-- The candidate types of a model's hash key, with the scope that they are looked at in. -/
structure KeyTypes (σ : Type) where
  scope : Scope σ
  types : List (CandidateType σ)

/-- What a value that is no document is looked at as, where the model with this name is referred
to. -/
def Registry.keyTypes? (registry : Registry σ) (name : String) : Option (KeyTypes σ) :=
  (registry.find? name).bind fun model =>
    model.schema.hashKey?.map fun field => ⟨⟨registry, model.schema⟩, field.types⟩

/-! ## The calls -/

/-- A call of one of the functions with its arguments. -/
inductive Call (σ : Type) : Type → Type where
  | score (subject : Subject) (reading : Reading σ) : Call σ Rat
  | bestScore (subject : Subject) (scope : Scope σ) (place : Place)
      (types : List (CandidateType σ)) : Call σ Rat
  | documentScore (subject : Subject) (frame : Frame σ) : Call σ Rat
  | resolve (subject : Subject) (scope : Scope σ) (place : Place)
      (types : List (CandidateType σ)) : Call σ (Except MapperError (CandidateType σ))
  | encode (value : Value) (scope : Scope σ) (place : Place) (types : List (CandidateType σ)) :
      Call σ (Except MapperError (Option WireValue))
  | encodeAs (value : Value) (reading : Reading σ) : Call σ (Except MapperError (Option WireValue))
  | encodeDocument (fields : List (String × Value)) (frame : Frame σ) :
      Call σ (Except MapperError WireValue)
  | encodeKey (value : Value) (reading : Reading σ) : Call σ (Except MapperError (Option WireValue))
  | decodeLeaf (stored : WireValue) (reading : Reading σ) : Call σ (Except MapperError Value)

namespace Call

/-- The registry of the scope that a function is called in. -/
def registry {α : Type} : Call σ α → Registry σ
  | score _ reading | encodeAs _ reading | encodeKey _ reading | decodeLeaf _ reading =>
    reading.scope.registry
  | bestScore _ scope _ _ | resolve _ scope _ _ | encode _ scope _ _ => scope.registry
  | documentScore _ frame | encodeDocument _ frame => frame.scope.registry

/-! ## Bodies -/

/-- The score as a document, zero if the type or the value is none. -/
def enteredBody (subject : Subject) (reading : Reading σ) : Recursive (Call σ) Rat :=
  match reading.enter? with
  | some frame => if subject.isDocument then ask (.documentScore subject frame) else return 0
  | none => return 0

def scoreBody (subject : Subject) (reading : Reading σ) : Recursive (Call σ) Rat :=
  match reading.type with
  | .array elements =>
    match subject.items? with
    | some items => do
      let scores ← items.zipIdx.mapM fun item =>
        ask (.bestScore item.1 reading.scope (reading.place.item item.2) elements)
      return Score.average Score.rounded scores
    | none => return 0
  | .set element =>
    match subject.members? with
    | some members => do
      let scores ← members.mapM fun member =>
        ask (.score member ⟨reading.scope, reading.place, element⟩)
      return Score.average Score.rounded scores
    | none => return subject.scalarScore (.set element)
  | .model name =>
    if subject.isDocument then enteredBody subject reading
    else
      match reading.scope.registry.keyTypes? name with
      | some key => ask (.bestScore subject key.scope reading.place.restart key.types)
      | none => return 0
  | .object _ | .self => enteredBody subject reading
  | type => return subject.scalarScore type

def bestScoreBody (subject : Subject) (scope : Scope σ) (place : Place)
    (types : List (CandidateType σ)) : Recursive (Call σ) Rat := do
  let scores ← types.mapM fun type => ask (.score subject ⟨scope, place, type⟩)
  return Score.best scores

def fieldScoreBody (frame : Frame σ) (field : String × Subject) : Recursive (Call σ) Rat :=
  match field.2.attribute? frame.schema field.1 with
  | some declared =>
    ask (.bestScore field.2 frame.scope (frame.place.child field.1) declared.types)
  | none => return frame.unknownScore field.1

def documentScoreBody (subject : Subject) (frame : Frame σ) : Recursive (Call σ) Rat :=
  match subject.fields? with
  | some fields => do
    let scores ← fields.mapM (fieldScoreBody frame)
    return Score.average Score.rounded scores
  | none => return 0

/-- The better one of what was best so far, if there is any, and the next alternative, which has to
be above it or above zero. -/
def better {α : Type} (best : Option (α × Rat)) (next : α × Rat) : Option (α × Rat) :=
  if best.elim 0 Prod.snd < next.2 then some next else best

def resolveBody (subject : Subject) (scope : Scope σ) (place : Place)
    (types : List (CandidateType σ)) :
    Recursive (Call σ) (Except MapperError (CandidateType σ)) := do
  let best ← types.foldlM (fun best type => do
    let score ← ask (.score subject ⟨scope, place, type⟩)
    return better best (type, score)) none
  return match best with
    | some found => .ok found.1
    | none => .error (.mismatch place types subject.typeName)

def encodeBody (value : Value) (scope : Scope σ) (place : Place)
    (types : List (CandidateType σ)) :
    ExceptT MapperError (Recursive (Call σ)) (Option WireValue) :=
  if value.isUndefined then return none
  else do
    let type ← askFor (.resolve (.native value) scope place types)
    askFor (.encodeAs value ⟨scope, place, type⟩)

def encodeAsBody (value : Value) (reading : Reading σ) :
    ExceptT MapperError (Recursive (Call σ)) (Option WireValue) :=
  match reading.type, value with
  | .array elements, .list items => do
    let stored ← items.zipIdx.mapM fun item =>
      askFor (.encode item.1 reading.scope (reading.place.item item.2) elements)
    return some (.list (stored.filterMap id))
  | .object _, .map fields | .self, .map fields | .model _, .map fields =>
    match reading.enter? with
    | some frame => do return some (← askFor (.encodeDocument fields frame))
    | none => throw (reading.mismatch (Value.map fields).typeName)
  | .object _, value | .self, value | .model _, value => askFor (.encodeKey value reading)
  | _, value => .mk (pure (reading.encodeScalar value))

def encodeFieldBody (frame : Frame σ) (field : String × Value) :
    ExceptT MapperError (Recursive (Call σ)) (Option (String × WireValue)) :=
  match frame.schema.nativeAttribute? field.1 with
  | some declared => do
    let stored ←
      askFor (.encode field.2 frame.scope (frame.place.child field.1) declared.types)
    return stored.map fun stored => (declared.name, stored)
  | none =>
    return (field.2.keep? frame.scope (frame.place.child field.1)).map fun stored =>
      (field.1, stored)

def encodeDocumentBody (fields : List (String × Value)) (frame : Frame σ) :
    ExceptT MapperError (Recursive (Call σ)) WireValue := do
  let stored ← fields.mapM (encodeFieldBody frame)
  return .map (Fields.ofList (stored.filterMap id))

def encodeKeyBody (value : Value) (reading : Reading σ) :
    ExceptT MapperError (Recursive (Call σ)) (Option WireValue) :=
  match reading.type with
  | .model name =>
    match reading.scope.registry.keyTypes? name with
    | some key => askFor (.encode value key.scope reading.place.restart key.types)
    | none => throw (reading.mismatch value.typeName)
  | _ => throw (reading.mismatch value.typeName)

def decodeLeafBody (stored : WireValue) (reading : Reading σ) :
    ExceptT MapperError (Recursive (Call σ)) Value :=
  match reading.type, stored.isDocument with
  | .model name, false =>
    match reading.scope.registry.keyTypes? name with
    | some key => do
      let type ← askFor (.resolve (.stored stored) key.scope reading.place.restart key.types)
      askFor (.decodeLeaf stored ⟨key.scope, reading.place.restart, type⟩)
    | none => throw (reading.mismatch stored.typeName)
  | _, _ => .mk (pure (stored.decodeLeaf reading))

/-- What the functions do when they are called. -/
def body (α : Type) : Call σ α → Recursive (Call σ) α
  | score subject reading => scoreBody subject reading
  | bestScore subject scope place types => bestScoreBody subject scope place types
  | documentScore subject frame => documentScoreBody subject frame
  | resolve subject scope place types => resolveBody subject scope place types
  | encode value scope place types => encodeBody value scope place types
  | encodeAs value reading => encodeAsBody value reading
  | encodeDocument fields frame => encodeDocumentBody fields frame
  | encodeKey value reading => encodeKeyBody value reading
  | decodeLeaf stored reading => decodeLeafBody stored reading

end Call

end ItemMapper
