import ItemMapper.Coding.Typed
import ItemMapper.Marshal.Pipeline

/-!
# Reading items

The stored value of each declared attribute is read by the type that fits it best, then modified,
and stands in the document under the native name of the attribute.  Undeclared stored values follow
in the order of their names.  A stored map is read in the same way with the schema of its type.
The ways to read the fields of an item come from recursion on the item (`WireValue.reader`).
-/

namespace ItemMapper

/-- A way to read a stored value at some place as one of some types. -/
abbrev Reader (σ : Type) := Scope σ → Place → List (CandidateType σ) → Pipeline σ Value

/-- A stored value on its way in. -/
structure Source (σ : Type) where
  stored : WireValue
  read : Reader σ

variable {σ : Type}

namespace Sources

/-- Reads and modifies an attribute. -/
def readAttribute (options : MarshalOptions) (frame : Frame σ) (sources : Fields (Source σ))
    (document : Document) (field : Attribute σ) : Pipeline σ Document :=
  match sources.get? field.name with
  | none => pure document
  | some source => do
    let place := frame.place.child field.name
    let value ← source.read frame.scope place field.types
    let value ←
      if options.modifiers then applyModifiers field.readModifiers place.text value
      else pure value
    pure (document.insert field.nativeName value)

/-- Adds what is kept of an undeclared stored value. -/
def readUnknown (frame : Frame σ) (document : Document) (field : String × Source σ) : Document :=
  if (frame.schema.attribute? field.1).isSome then document
  else
    match field.2.stored.keep? frame.scope (frame.place.child field.1) with
    | some value => document.insert field.1 value
    | none => document

/-- Reads a document, given the ways to read its fields. -/
def read (options : MarshalOptions) (frame : Frame σ) (sources : Fields (Source σ)) :
    Pipeline σ Document := do
  let document ← frame.schema.attributes.foldlM (readAttribute options frame sources) []
  pure (sources.foldl (readUnknown frame) document)

end Sources

/-- Reads a stored value that is no list or document of its type, or finds its type for `inside`
to go on with. -/
def WireValue.readChosen (stored : WireValue) (options : MarshalOptions) (scope : Scope σ)
    (place : Place) (types : List (CandidateType σ))
    (inside : CandidateType σ → Option (Pipeline σ Value)) : Pipeline σ Value :=
  match scope.resolveStored place types stored with
  | .error cause => if options.typeCheck then throw cause else pure stored.natural
  | .ok choice =>
    match inside choice.type with
    | some nested => nested
    | none => Pipeline.ofExcept (stored.decodeLeaf choice.reading)

mutual

/-- The way to read a stored value. -/
def WireValue.reader (options : MarshalOptions) : WireValue → Reader σ
  | .list items => fun scope place types =>
    (WireValue.list items).readChosen options scope place types fun
      | .array elements =>
        some do return .list (← WireValue.readItems options scope place elements 0 items)
      | _ => none
  | .map fields => fun scope place types =>
    (WireValue.map fields).readChosen options scope place types fun type =>
      (scope.enter? place type).map fun frame => do
        return .map (← Sources.read options frame (WireValue.sources options fields))
  | stored => fun scope place types => stored.readChosen options scope place types fun _ => none

/-- Reads the items of a list, from a position on. -/
def WireValue.readItems (options : MarshalOptions) (scope : Scope σ) (place : Place)
    (elements : List (CandidateType σ)) : Nat → List WireValue → Pipeline σ (List Value)
  | _, [] => pure []
  | index, item :: rest => do
    let value ← WireValue.reader options item scope (place.item index) elements
    let others ← WireValue.readItems options scope place elements (index + 1) rest
    return value :: others

/-- The ways to read the fields of a stored map. -/
def WireValue.sources (options : MarshalOptions) :
    List (String × WireValue) → List (String × Source σ)
  | [] => []
  | (key, stored) :: rest =>
    (key, ⟨stored, WireValue.reader options stored⟩) :: WireValue.sources options rest

end

/-- Reads an item. -/
def Frame.read (frame : Frame σ) (options : MarshalOptions) (item : Item) :
    Pipeline σ Document :=
  Sources.read options frame (WireValue.sources options item)

end ItemMapper
