import ItemMapper.Schema.Build

/-!
# Models and the registry

A model is a schema with a name.  It may let its items expire: then it has an attribute with the
time of expiry in whole seconds, which by default is the current time and the model's lifetime.
A registry holds models with distinct names; a name, once registered, keeps its model.
-/

namespace ItemMapper

/-- How the items of a model expire. -/
structure Expiry where
  /-- How long a new item lives. -/
  lifetime : Duration
  /-- The name of the attribute with the time of expiry. -/
  name : String
  /-- Expired items are read like others. -/
  returnExpired : Bool
deriving DecidableEq, Repr

structure Model (σ : Type) where
  name : String
  schema : Schema σ
  expiry : Option Expiry

/-- The models that are known by name. -/
structure Registry (σ : Type) where
  models : List (Model σ)

variable {σ : Type}

namespace Expiry

/-- The longest lifetime in nanoseconds: the most milliseconds that 64 bits can count. -/
def longestLifetime : Nat := 9223372036854775807000000

/-- The attribute with the time of expiry. -/
def declaration (expiry : Expiry) : Attribute σ :=
  { AttributeOf.plain expiry.name [CandidateType.date .seconds] with
    defaultValue := some (.expiry expiry.lifetime) }

end Expiry

namespace Model

/-- The model with the given name and schema.  If its items expire and the schema does not declare
the attribute with the time of expiry, that attribute is added. -/
def build (name : String) (schema : Schema σ) (expiry : Option Expiry) :
    Except MapperError (Model σ) :=
  match expiry with
  | none => .ok ⟨name, schema, none⟩
  | some settings =>
    if (schema.attribute? settings.name).isSome then .ok ⟨name, schema, some settings⟩
    else if Expiry.longestLifetime < settings.lifetime.total then
      .error (.parameter .lifetimeTooLong)
    else
      match schema.addAttribute settings.declaration with
      | .ok extended => .ok ⟨name, extended, some settings⟩
      | .error cause => .error (.ofSchema cause)

end Model

namespace Registry

def empty : Registry σ := ⟨[]⟩

def find? (registry : Registry σ) (name : String) : Option (Model σ) :=
  registry.models.find? fun model => model.name == name

def contains (registry : Registry σ) (name : String) : Bool :=
  (registry.find? name).isSome

/-- The registry with one more model, unless its name is taken. -/
def register (registry : Registry σ) (model : Model σ) : Except MapperError (Registry σ) :=
  if registry.contains model.name then .error (.parameter (.registeredTwice model.name))
  else .ok ⟨registry.models ++ [model]⟩

end Registry

end ItemMapper
