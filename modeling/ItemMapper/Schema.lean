import ItemMapper.Error
import ItemMapper.Schema.Hook
import ItemMapper.Schema.KeepUnknown

/-!
# Schemas

A schema lists attributes in an order that matters.  Each attribute has a stored name and one or
more candidate types, of which the best fitting one is used for a value.  Types nest: an object
type holds a schema of its own.  A reference to the schema itself or to another model is only a
name, so schemas are finite although what they describe may be nested without bound.

Schemas are built by `Schema.build`, which checks that names are usable and unique, that there is
at most one key of each kind, and that combined attributes stand alone and have plain sources.
-/

namespace ItemMapper

/-- The types that one stored scalar holds directly. -/
inductive Primitive where
  | string
  | number
  | binary
  | boolean
  | null
deriving DecidableEq, Repr

def Primitive.typeName : Primitive → String
  | .string => "string"
  | .number => "number"
  | .binary => "buffer"
  | .boolean => "boolean"
  | .null => "null"

inductive DateStorage where
  | milliseconds
  | seconds
  | iso
deriving DecidableEq, Repr

/-- The part of an attribute in the key of an item. -/
inductive KeyRole where
  | hash
  | range
deriving DecidableEq, Repr

/-- The attributes that hold when an item was created and last updated. -/
structure Timestamps where
  createdAt : Option String
  updatedAt : Option String
  storage : DateStorage
deriving DecidableEq, Repr

/-- The usual names, stored in milliseconds. -/
def Timestamps.standard : Timestamps :=
  ⟨some "createdAt", some "updatedAt", .milliseconds⟩

/-- A declared attribute with candidate types of a kind `τ`. -/
structure AttributeOf (σ τ : Type) where
  name : String
  types : List τ
  /-- The attribute must have a value. -/
  required : Bool
  /-- Where the value comes from if none is given. -/
  defaultValue : Option (DefaultValue σ)
  /-- The default replaces a given value. -/
  forceDefault : Bool
  /-- A condition on the value. -/
  validator : Option (Validator σ)
  allowed : Option (List Value)
  /-- What changes the value after it is read. -/
  readModifiers : List (Modifier σ)
  /-- What changes the value before it is written. -/
  writeModifiers : List (Modifier σ)
  /-- The name on the native side, if it is not the stored name. -/
  nativeAlias : Option String
  /-- The part in the key of an item. -/
  key : Option KeyRole

/-- A list of attributes with candidate types of a kind `τ`. -/
structure SchemaOf (σ τ : Type) where
  attributes : List (AttributeOf σ τ)
  keepUnknown : KeepUnknown
  timestamps : Option Timestamps

/-- One of the types that a value may have. -/
inductive CandidateType (σ : Type) where
  | primitive (kind : Primitive)
  | date (storage : DateStorage)
  /-- A nested document with a schema of its own. -/
  | object (schema : SchemaOf σ (CandidateType σ))
  /-- A list, each item of which has one of the types. -/
  | array (elements : List (CandidateType σ))
  | set (element : CandidateType σ)
  /-- A text joined from the values of other attributes. -/
  | combine (sources : List String) (separator : String)
  | constant (value : Value)
  /-- A document with the schema that the outermost document has. -/
  | self
  /-- A document of a registered model, or the value of its hash key. -/
  | model (name : String)

abbrev Attribute (σ : Type) := AttributeOf σ (CandidateType σ)

abbrev Schema (σ : Type) := SchemaOf σ (CandidateType σ)

variable {σ τ : Type}

/-! ### Types -/

namespace CandidateType

def typeName : CandidateType σ → String
  | .primitive kind => kind.typeName
  | .date _ => "date"
  | .object _ | .self => "object"
  | .array _ => "array"
  | .set element => element.typeName ++ " set"
  | .combine _ _ => "combine"
  | .constant value => "constant " ++ value.describe
  | .model name => "model " ++ name

/-- A type that sets may hold. -/
def isSetElement : CandidateType σ → Bool
  | .primitive .string | .primitive .number | .primitive .binary | .date _ => true
  | _ => false

/-- A text joined from other attributes. -/
def isCombine : CandidateType σ → Bool
  | .combine _ _ => true
  | _ => false

end CandidateType

/-! ### Attributes -/

namespace AttributeOf

/-- An attribute of the given types without further settings. -/
def plain (name : String) (types : List τ) : AttributeOf σ τ where
  name := name
  types := types
  required := false
  defaultValue := none
  forceDefault := false
  validator := none
  allowed := none
  readModifiers := []
  writeModifiers := []
  nativeAlias := none
  key := none

/-- The name on the native side. -/
def nativeName (field : AttributeOf σ τ) : String :=
  field.nativeAlias.getD field.name

/-- The sources and the separator of a combined attribute. -/
def combine? (field : Attribute σ) : Option (List String × String) :=
  match field.types with
  | [.combine sources separator] => some (sources, separator)
  | _ => none

end AttributeOf

/-! ### Schemas -/

namespace SchemaOf

def attribute? (schema : SchemaOf σ τ) (name : String) : Option (AttributeOf σ τ) :=
  schema.attributes.find? fun field => field.name == name

/-- The attribute with a native name: the one that has it as alias, otherwise the one that has it
as stored name. -/
def nativeAttribute? (schema : SchemaOf σ τ) (name : String) : Option (AttributeOf σ τ) :=
  (schema.attributes.find? fun field => field.nativeAlias == some name).or (schema.attribute? name)

/-- The attribute marked as hash key, otherwise the first one. -/
def hashKey? (schema : SchemaOf σ τ) : Option (AttributeOf σ τ) :=
  (schema.attributes.find? fun field => field.key == some .hash).or schema.attributes.head?

def rangeKey? (schema : SchemaOf σ τ) : Option (AttributeOf σ τ) :=
  schema.attributes.find? fun field => field.key == some .range

/-- Whether a stored name belongs to the key. -/
def isKey (schema : SchemaOf σ τ) (name : String) : Bool :=
  schema.hashKey?.any (·.name == name) || schema.rangeKey?.any (·.name == name)

end SchemaOf

end ItemMapper
