import ItemMapper.Expression.Predicate
import ItemMapper.Expression.Update
import ItemMapper.Marshal.Read

/-!
# Mappers

A mapper writes and reads the items of one model and compiles conditions and updates for them.  It
is found in the registry by the name of its model; the references in the schema of the model lead
to other models of the same registry.
-/

namespace ItemMapper

/-- A model together with the registry that it belongs to. -/
structure Mapper (σ : Type) where
  registry : Registry σ
  model : Model σ

variable {σ : Type}

/-- The mapper for the model with a name. -/
def Registry.mapper (registry : Registry σ) (name : String) : Except MapperError (Mapper σ) :=
  match registry.find? name with
  | some model => .ok ⟨registry, model⟩
  | none => .error (.parameter (.notRegistered name))

/-- Whether an item of a model has expired at the given time, as far as its document tells, and is
to be hidden for that. -/
def Model.hides (model : Model σ) (now : Instant) (document : Document) : Bool :=
  model.expiry.any fun expiry =>
    !expiry.returnExpired &&
      ((document.get? expiry.name).bind Value.date?).any fun time => time.before now

namespace Mapper

/-- The scope of the outermost document. -/
def scope (mapper : Mapper σ) : Scope σ :=
  ⟨mapper.registry, mapper.model.schema⟩

/-- The item that a document is stored as. -/
def write (mapper : Mapper σ) (writing : Writing) (document : Document) : Pipeline σ Item :=
  mapper.scope.frame.write writing document

/-- The document that an item is stored from, none if the item has expired and is to be hidden. -/
def read (mapper : Mapper σ) (options : MarshalOptions) (now : Instant) (item : Item) :
    Pipeline σ (Option Document) := do
  let document ← mapper.scope.frame.read options item
  return if options.checkExpiry && mapper.model.hides now document then none else some document

/-- The stored form of a key attribute of a document. -/
def keyField (mapper : Mapper σ) (document : Document) (field : Attribute σ) :
    Except MapperError (String × WireValue) :=
  let missing : MapperError := .validation (.missing field.name)
  match (document.get? field.nativeName).or (document.get? field.name) with
  | none => .error missing
  | some value => do
    match ← mapper.scope.encode (Place.root.child field.name) field.types value with
    | some stored => return (field.name, stored)
    | none => throw missing

/-- The key of the item that a document is stored as. -/
def key (mapper : Mapper σ) (document : Document) : Except MapperError Item := do
  let fields := mapper.model.schema.hashKey?.toList ++ mapper.model.schema.rangeKey?.toList
  return Fields.ofList (← fields.mapM (mapper.keyField document))

/-- The type that a value takes at a dotted path, none if the path is not declared. -/
def typeAt? (mapper : Mapper σ) (path : String) (value : Value) :
    Except MapperError (Option (CandidateType σ)) := do
  let target ← mapper.scope.lookup path
  match target.types with
  | none => return none
  | some types => return some (← mapper.scope.resolve (.ofText path) types value).type

def condition (mapper : Mapper σ) (condition : Condition) :
    Except MapperError CompiledExpression :=
  mapper.scope.compileCondition condition

/-- The expression of an update of an item whose current document is as given; it is empty if it
is not known. -/
def update (mapper : Mapper σ) (writing : Writing) (current changes : Document) :
    Pipeline σ CompiledExpression :=
  mapper.scope.compileUpdate writing current changes

end Mapper

end ItemMapper
