import ItemMapper.Coding.Unknown
import ItemMapper.Typing.Resolve

/-!
# Values with a type

Once the type of a value is chosen, `Value.encodeAs` stores it: scalars in their natural form,
dates and sets in the form of their type, and lists and documents member by member.  No function of
the application takes part.  `WireValue.decodeLeaf` reads a stored scalar or set back.
-/

namespace ItemMapper

variable {σ : Type}

namespace Reading

/-- A value that the chosen type turns out not to take. -/
def mismatch (reading : Reading σ) (actual : String) : MapperError :=
  .mismatch reading.place [reading.type] actual

/-- The stored set of some members, if the type is a set of this kind. -/
def encodeSet (reading : Reading σ) (element : CandidateType σ) (members : List Value) :
    Except MapperError (Option WireValue) :=
  let wrong (member : Value) : MapperError := .mismatch reading.place [element] member.typeName
  match element.setElement?, members with
  | some kind, members => (kind.encode members).mapError wrong
  | none, [] => .ok none
  | none, member :: _ => .error (wrong member)

/-- The stored form of a value that is no list or document of the chosen type. -/
def encodeScalar (reading : Reading σ) (value : Value) : Except MapperError (Option WireValue) :=
  match reading.type, value with
  | .primitive _, value | .constant _, value | .combine _ _, value => .ok value.natural?
  | .date storage, value =>
    match value.date? with
    | some instant => .ok (some (.ofDate instant storage))
    | none => .error (reading.mismatch value.typeName)
  | .set element, .set members | .set element, .list members => reading.encodeSet element members
  | _, value => .error (reading.mismatch value.typeName)

end Reading

mutual

/-- The stored form of a value of the chosen type, none if it has no stored form. -/
def Value.encodeAs : Value → Reading σ → Except MapperError (Option WireValue)
  | .list items, reading =>
    match reading.type with
    | .array elements => do
      return some (.list (← Value.encodeItems reading.scope reading.place elements 0 items))
    | _ => reading.encodeScalar (.list items)
  | .map fields, reading =>
    match reading.enter? with
    | some frame => do return some (.map (Fields.ofList (← Value.encodeFields frame fields)))
    | none => reading.encodeScalar (.map fields)
  | value, reading => reading.encodeScalar value

def Value.encodeItems (scope : Scope σ) (place : Place) (elements : List (CandidateType σ)) :
    Nat → List Value → Except MapperError (List WireValue)
  | _, [] => .ok []
  | index, item :: rest => do
    let stored ←
      if item.isUndefined then .ok none
      else do
        let choice ← scope.resolve (place.item index) elements item
        Value.encodeAs item choice.reading
    let others ← Value.encodeItems scope place elements (index + 1) rest
    return stored.toList ++ others

def Value.encodeFields (frame : Frame σ) :
    List (String × Value) → Except MapperError (List (String × WireValue))
  | [] => .ok []
  | (key, value) :: rest => do
    let place := frame.place.child key
    let stored ←
      match frame.schema.nativeAttribute? key with
      | some field =>
        if value.isUndefined then .ok none
        else do
          let choice ← frame.scope.resolve place field.types value
          let stored ← Value.encodeAs value choice.reading
          .ok (stored.map fun stored => (field.name, stored))
      | none => .ok ((Value.keep? frame.scope place value).map fun stored => (key, stored))
    let others ← Value.encodeFields frame rest
    return stored.toList ++ others

end

/-- The stored form of a value of one of some types, none if it has no stored form. -/
def Scope.encode (scope : Scope σ) (place : Place) (types : List (CandidateType σ))
    (value : Value) : Except MapperError (Option WireValue) :=
  if value.isUndefined then .ok none
  else do
    let choice ← scope.resolve place types value
    value.encodeAs choice.reading

/-- The native form of a stored value that is no list or document of the chosen type. -/
def WireValue.decodeLeaf (stored : WireValue) (reading : Reading σ) :
    Except MapperError Value :=
  match reading.type with
  | .date storage =>
    match stored.date? storage with
    | some instant => .ok (.date instant)
    | none => .error (reading.mismatch stored.typeName)
  | .constant value => .ok value
  | .set element =>
    match stored.setOf? (element.setElement?.getD .string) with
    | some value => .ok value
    | none => .error (reading.mismatch stored.typeName)
  | _ => .ok stored.natural

end ItemMapper
