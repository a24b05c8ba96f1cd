import ItemMapper.Schema

/-!
# Building schemas

`Schema.build` adds the attributes of the timestamps and then checks, in this order: each
attribute's name, its being declared once, the keys before it, and its types; the key that the
first attribute would otherwise be; and for each attribute its alias and its sources.  The first
fault is the result.
-/

namespace ItemMapper

variable {σ : Type}

namespace CandidateType

/-- The types of an attribute or of the items of a list, looked at as a whole: there is one, and a
combined type stands alone at the top. -/
def checkUnion (owner : String) (top : Bool) (types : List (CandidateType σ)) :
    Except SchemaError Unit :=
  if types.isEmpty then .error (.noType owner)
  else if types.any isCombine && (types.length > 1 || !top) then .error (.mixedCombine owner)
  else .ok ()

mutual

/-- A type looked at by itself: the items of a list have types again, and a set holds scalars. -/
def check (owner : String) : CandidateType σ → Except SchemaError Unit
  | .array elements => do
    checkUnion owner false elements
    checkAll owner elements
  | .set element =>
    if element.isSetElement then .ok () else .error (.badSetElement owner element.typeName)
  | _ => .ok ()

def checkAll (owner : String) : List (CandidateType σ) → Except SchemaError Unit
  | [] => .ok ()
  | type :: rest => do
    check owner type
    checkAll owner rest

end

end CandidateType

namespace SchemaOf

/-- A name that can be a segment of a path. -/
def isUsableName (name : String) : Bool :=
  name ≠ "" && !name.toList.contains '.'

/-- Checks attribute after attribute: its name, that it is new, that its key is still free, and
its types. -/
def checkAttributes (earlier : List (Attribute σ)) :
    List (Attribute σ) → Except SchemaError Unit
  | [] => .ok ()
  | field :: rest => do
    if !isUsableName field.name then throw (.badName field.name)
    if earlier.any (·.name == field.name) then throw (.declaredTwice field.name)
    if field.key == some .hash && earlier.any (·.key == some .hash) then throw .secondHashKey
    if field.key == some .range && earlier.any (·.key == some .range) then throw .secondRangeKey
    CandidateType.checkUnion field.name true field.types
    CandidateType.checkAll field.name field.types
    checkAttributes (earlier ++ [field]) rest

/-- The first attribute is the hash key unless another one is marked, and then it can not be the
range key. -/
def checkKeys (attributes : List (Attribute σ)) : Except SchemaError Unit :=
  match attributes with
  | first :: _ =>
    if attributes.any (·.key == some .hash) || first.key != some .range then .ok ()
    else .error (.bothKeys first.name)
  | [] => .ok ()

/-- Checks a source of a combined attribute: it is declared and is no combined attribute. -/
def checkSource (attributes : List (Attribute σ)) (owner source : String) :
    Except SchemaError Unit :=
  match attributes.find? (·.name == source) with
  | none => .error (.undeclaredSource owner source)
  | some declared =>
    if declared.combine?.isSome then .error (.combinedSource owner source) else .ok ()

/-- Checks the alias and the sources of an attribute against all attributes. -/
def checkNames (attributes : List (Attribute σ)) (field : Attribute σ) :
    Except SchemaError Unit := do
  if let some nativeAlias := field.nativeAlias then
    if attributes.any (·.name == nativeAlias) then throw (.aliasTaken nativeAlias field.name)
  if let some (sources, _) := field.combine? then
    sources.forM (checkSource attributes field.name)

/-- The attributes with those of the timestamps that are not declared. -/
def withTimestamps (timestamps : Option Timestamps) (attributes : List (Attribute σ)) :
    List (Attribute σ) :=
  match timestamps with
  | none => attributes
  | some stamps =>
    ([stamps.createdAt, stamps.updatedAt].filterMap id).foldl
      (fun attributes name =>
        if attributes.any (·.name == name) then attributes
        else attributes ++ [.plain name [.date stamps.storage]])
      attributes

/-- The schema with the given attributes and settings, if they are well formed. -/
def build (attributes : List (Attribute σ)) (keepUnknown : KeepUnknown)
    (timestamps : Option Timestamps) : Except SchemaError (Schema σ) := do
  let attributes := withTimestamps timestamps attributes
  checkAttributes [] attributes
  checkKeys attributes
  attributes.forM (checkNames attributes)
  return { attributes := attributes, keepUnknown := keepUnknown, timestamps := timestamps }

/-- The schema with one more attribute at its end. -/
def addAttribute (schema : Schema σ) (field : Attribute σ) : Except SchemaError (Schema σ) := do
  let extended ← build (schema.attributes ++ [field]) schema.keepUnknown none
  return { extended with timestamps := schema.timestamps }

end SchemaOf

end ItemMapper
