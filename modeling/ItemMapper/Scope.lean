import ItemMapper.Place
import ItemMapper.Registry

/-!
# Scopes

What a type means depends on the registry, which knows the models that are referred to, and on the
root schema, which `self` and the patterns of undeclared attributes refer to.  Both make up the
scope.  Entering a document of a reference changes the root; entering a nested object does not.

A value that is no document stands, where a model is referred to, for the hash key of an item of
that model.  The types of that key may refer to further models.  `Registry.keyReadings` follows
such references to the types that the value is really compared with.  Only a reference that leads
back to a model on the way is not followed again, so there are at most as many steps as models.
-/

namespace ItemMapper

/-- The registry and the schema of the outermost document. -/
structure Scope (σ : Type) where
  registry : Registry σ
  root : Schema σ

/-- A candidate type together with where it is looked at. -/
structure Reading (σ : Type) where
  scope : Scope σ
  place : Place
  type : CandidateType σ

/-- A document's schema together with where the document is looked at. -/
structure Frame (σ : Type) where
  scope : Scope σ
  place : Place
  schema : Schema σ

variable {σ : Type}

namespace Scope

/-- What the patterns of the root schema say about an undeclared attribute. -/
def unknownMatch (scope : Scope σ) (place : Place) : PathMatch :=
  scope.root.keepUnknown.matchSegments place.segments

/-- The document that a value of some type is, if values of that type are documents. -/
def enter? (scope : Scope σ) (place : Place) : CandidateType σ → Option (Frame σ)
  | .object schema => some ⟨scope, place, schema⟩
  | .self => some ⟨scope, place.enter, scope.root⟩
  | .model name =>
    (scope.registry.find? name).map fun model =>
      ⟨⟨scope.registry, model.schema⟩, place.enter, model.schema⟩
  | _ => none

/-- The outermost document of a schema. -/
def frame (scope : Scope σ) : Frame σ :=
  ⟨scope, .root, scope.root⟩

end Scope

/-- The document that a value with this reading is. -/
def Reading.enter? (reading : Reading σ) : Option (Frame σ) :=
  reading.scope.enter? reading.place reading.type

/-- The ways to read the hash key of a model that is not on the way yet.  The number bounds the
references that are followed. -/
def Registry.keyReadings (registry : Registry σ) (place : Place) :
    Nat → List String → String → List (Reading σ)
  | 0, _, _ => []
  | budget + 1, way, name =>
    if way.contains name then []
    else
      match registry.find? name with
      | none => []
      | some model =>
        match model.schema.hashKey? with
        | none => []
        | some field =>
          field.types.flatMap fun
            | .model next => registry.keyReadings place budget (name :: way) next
            | type => [⟨⟨registry, model.schema⟩, place.restart, type⟩]

/-- The ways to read a value as some type.  Only a reference to a model that stands for a hash key
has other than one. -/
def Scope.readings (scope : Scope σ) (place : Place) (isDocument : Bool)
    (type : CandidateType σ) : List (Reading σ) :=
  match type, isDocument with
  | .model name, false =>
    scope.registry.keyReadings place scope.registry.models.length [] name
  | type, _ => [⟨scope, place, type⟩]

end ItemMapper
