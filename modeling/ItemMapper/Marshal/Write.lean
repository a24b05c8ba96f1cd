import ItemMapper.Coding.Typed
import ItemMapper.Marshal.Pipeline

/-!
# Writing documents

A document is written in stages.  Its fields get the stored names of their attributes, timestamps
are set, defaults are filled in and modified attribute by attribute, combined attributes are
computed, and then each attribute is checked and encoded; undeclared fields follow.  A nested
document passes through the same stages with the schema of its type.

The stages may replace a field by a value that was not in the document.  A field is therefore
drafted as a value together with the way to write it (`Draft`).  The ways to write what is in the
document come from recursion on the document itself (`Value.writer`).  A replacement is written by
starting again with the replacement, and only this uses up a depth: an application whose defaults
put documents into documents for ever is refused, and a document alone never is.
-/

namespace ItemMapper

/-- What writing depends on besides the schema. -/
structure Writing where
  options : MarshalOptions
  now : Instant
  /-- How deep replacements may stand inside of replacements. -/
  depth : Nat

/-- A way to write a value at some place as one of some types. -/
abbrev Writer (σ : Type) :=
  Scope σ → Place → List (CandidateType σ) → Pipeline σ (Option WireValue)

/-- A value on its way out. -/
structure Draft (σ : Type) where
  value : Value
  write : Writer σ

variable {σ : Type}

namespace Drafts

/-- The values of a drafted document. -/
def values (drafts : Fields (Draft σ)) : Document :=
  drafts.mapValues Draft.value

/-- The draft of a field that has a value other than undefined. -/
def defined? (drafts : Fields (Draft σ)) (name : String) : Option (Draft σ) :=
  (drafts.get? name).filter fun draft => !draft.value.isUndefined

/-- The fields under the stored names of their attributes.  Where an attribute is given twice, the
later field counts. -/
def normalize (schema : Schema σ) (fields : List (String × Draft σ)) : Fields (Draft σ) :=
  Fields.ofList (fields.map fun (key, draft) =>
    (((schema.nativeAttribute? key).map AttributeOf.name).getD key, draft))

/-- Sets the timestamps of a schema. -/
def stamp (make : Value → Draft σ) (writing : Writing) (schema : Schema σ)
    (drafts : Fields (Draft σ)) : Fields (Draft σ) :=
  match schema.timestamps, writing.options.timestamps with
  | none, _ | _, .off => drafts
  | some stamps, mode =>
    let now := make (.date writing.now)
    let drafts :=
      match mode, stamps.createdAt with
      | .create, some name => if (drafts.get? name).isSome then drafts else drafts.insert name now
      | _, _ => drafts
    match stamps.updatedAt with
    | some name => drafts.insert name now
    | none => drafts

/-- Whether the default of an attribute is wanted: it has no field, or the default is forced on a
field that has a value. -/
def wantsDefault (options : MarshalOptions) (field : Attribute σ) (given : Option (Draft σ)) :
    Bool :=
  match given with
  | none => options.defaults
  | some draft => !draft.value.isUndefined && field.forceDefault && options.forceDefaults

/-- Fills in the default of an attribute and modifies its value. -/
def fill (make : Value → Draft σ) (writing : Writing) (place : Place)
    (drafts : Fields (Draft σ)) (field : Attribute σ) : Pipeline σ (Fields (Draft σ)) := do
  let path := (place.child field.name).text
  let drafts ←
    if wantsDefault writing.options field (drafts.get? field.name) then
      match ← evaluateDefault writing.now field (values drafts) path with
      | some value => pure (drafts.insert field.name (make value))
      | none => pure drafts
    else pure drafts
  if writing.options.modifiers && !field.writeModifiers.isEmpty then
    match defined? drafts field.name with
    | some draft => do
      let value ← applyModifiers field.writeModifiers path draft.value
      pure (drafts.insert field.name (make value))
    | none => pure drafts
  else pure drafts

/-- Computes a combined attribute from its sources.  A given value is replaced if all sources are
there, refused if some are missing, and an attribute without any source has no value. -/
def combine (make : Value → Draft σ) (place : Place) (drafts : Fields (Draft σ))
    (field : Attribute σ) : Except MapperError (Fields (Draft σ)) :=
  match field.combine? with
  | none => .ok drafts
  | some (sources, separator) =>
    let path := (place.child field.name).text
    let present := sources.filterMap fun source => (defined? drafts source).map Draft.value
    let missing := sources.filter fun source => (defined? drafts source).isNone
    if (defined? drafts field.name).isSome && !missing.isEmpty then
      .error (.parameter (.suppliedWithoutSources path missing))
    else if present.isEmpty then .ok (drafts.erase field.name)
    else do
      let combined ← joinSources present separator path
      .ok (drafts.insert field.name (make (.string combined)))

/-- Whether a required attribute lacks its value. -/
def isMissing (check : RequiredCheck) (given : Option (Draft σ)) : Bool :=
  match check with
  | .off => false
  | .present => given.any fun draft => draft.value.isUndefined
  | .all => given.all fun draft => draft.value.isUndefined

/-- Checks and encodes an attribute. -/
def encodeAttribute (writing : Writing) (frame : Frame σ) (drafts : Fields (Draft σ))
    (field : Attribute σ) : Pipeline σ (Option (String × WireValue)) := do
  let place := frame.place.child field.name
  if field.required && isMissing writing.options.required (drafts.get? field.name) then
    throw (.validation (.missing place.text))
  match defined? drafts field.name with
  | none => pure none
  | some draft => do
    checkValue writing.options field draft.value place.text
    let stored ← draft.write frame.scope place field.types
    pure (stored.map fun stored => (field.name, stored))

def encodeUnknown (frame : Frame σ) (drafts : Fields (Draft σ)) : List (String × WireValue) :=
  (drafts.filter fun (key, _) => (frame.schema.attribute? key).isNone).filterMap
    fun (key, draft) =>
      (draft.value.keep? frame.scope (frame.place.child key)).map fun stored => (key, stored)

/-- Writes a document, given the drafts of its fields. -/
def write (make : Value → Draft σ) (writing : Writing) (frame : Frame σ)
    (fields : List (String × Draft σ)) : Pipeline σ Item := do
  let drafts := stamp make writing frame.schema (normalize frame.schema fields)
  let drafts ← frame.schema.attributes.foldlM (fill make writing frame.place) drafts
  let drafts ←
    if writing.options.combine then
      Pipeline.ofExcept (frame.schema.attributes.foldlM (combine make frame.place) drafts)
    else pure drafts
  let declared ← frame.schema.attributes.mapM (encodeAttribute writing frame drafts)
  pure (Fields.ofList (declared.filterMap id ++ encodeUnknown frame drafts))

end Drafts

/-- Writes a value that is no list or document of its type, or finds its type for `inside` to go
on with. -/
def Value.writeChosen (value : Value) (writing : Writing) (scope : Scope σ) (place : Place)
    (types : List (CandidateType σ))
    (inside : CandidateType σ → Option (Pipeline σ WireValue)) :
    Pipeline σ (Option WireValue) :=
  match scope.resolve place types value with
  | .error cause => if writing.options.typeCheck then throw cause else pure value.natural?
  | .ok choice =>
    match inside choice.type with
    | some nested => do return some (← nested)
    | none => Pipeline.ofExcept (value.encodeAs choice.reading)

mutual

/-- The way to write a value.  Values that the stages put in the place of others are drafted by
`make`. -/
def Value.writer (make : Value → Draft σ) (writing : Writing) : Value → Writer σ
  | .undefined => fun _ _ _ => pure none
  | .list items => fun scope place types =>
    (Value.list items).writeChosen writing scope place types fun
      | .array elements =>
        some do return .list (← Value.writeItems make writing scope place elements 0 items)
      | _ => none
  | .map fields => fun scope place types =>
    (Value.map fields).writeChosen writing scope place types fun type =>
      (scope.enter? place type).map fun frame => do
        return .map (← Drafts.write make writing frame (Value.drafts make writing fields))
  | value => fun scope place types => value.writeChosen writing scope place types fun _ => none

/-- Writes the items of a list, from a position on. -/
def Value.writeItems (make : Value → Draft σ) (writing : Writing) (scope : Scope σ)
    (place : Place) (elements : List (CandidateType σ)) :
    Nat → List Value → Pipeline σ (List WireValue)
  | _, [] => pure []
  | index, item :: rest => do
    let stored ← Value.writer make writing item scope (place.item index) elements
    let others ← Value.writeItems make writing scope place elements (index + 1) rest
    return stored.toList ++ others

/-- The drafts of the fields of a document. -/
def Value.drafts (make : Value → Draft σ) (writing : Writing) :
    List (String × Value) → List (String × Draft σ)
  | [] => []
  | (key, value) :: rest =>
    (key, ⟨value, Value.writer make writing value⟩) :: Value.drafts make writing rest

end

/-- The draft of a value that may not hold lists or documents any more. -/
def Value.shallowDraft (writing : Writing) (value : Value) : Draft σ :=
  ⟨value, fun scope place types =>
    match value with
    | .undefined => pure none
    | .list _ | .map _ => throw (.madeTooDeep place.text)
    | value => value.writeChosen writing scope place types fun _ => none⟩

/-- The way to write a value in which replacements may stand inside of replacements to the given
depth. -/
def Value.writerTo (writing : Writing) : Nat → Value → Writer σ
  | 0, value => value.writer (Value.shallowDraft writing) writing
  | depth + 1, value =>
    value.writer (fun made => ⟨made, Value.writerTo writing depth made⟩) writing

/-- The draft of a value that takes the place of another one, at the given depth. -/
def Value.madeDraft (writing : Writing) (depth : Nat) (value : Value) : Draft σ :=
  match depth with
  | 0 => value.shallowDraft writing
  | depth + 1 => ⟨value, Value.writerTo writing depth value⟩

/-- Writes a document. -/
def Frame.write (frame : Frame σ) (writing : Writing) (document : Document) : Pipeline σ Item :=
  let make := Value.madeDraft writing writing.depth
  Drafts.write make writing frame (Value.drafts make writing document)

end ItemMapper
