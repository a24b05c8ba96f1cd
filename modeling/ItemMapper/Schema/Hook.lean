import ItemMapper.Schema.TextPattern
import ItemMapper.Value

/-!
# Functions of the application

An application hooks functions of its own into the reading and writing of an attribute: modifiers,
defaults and validators.  They may use and change a state `σ` of the application, and some may
fail with a text.  A function is immediate or deferred; both run to their end before the next one
begins, so the difference shows only in descriptions of a schema.
-/

namespace ItemMapper

/-- A computation on the state of the application that may fail with a text. -/
abbrev Fallible (σ α : Type) := ExceptT String (StateM σ) α

/-- When a function delivers its result. -/
inductive Timing where
  | immediate
  | deferred
deriving DecidableEq, Repr

/-- A function that changes a value when it is written or read. -/
structure Modifier (σ : Type) where
  timing : Timing
  apply : Value → Fallible σ Value

/-- Where the value of an attribute comes from if none is given.  Functions see the document as
far as it is filled in. -/
inductive DefaultValue (σ : Type) where
  | literal (value : Value)
  /-- A function that can not fail. -/
  | immediate (compute : Document → StateM σ Value)
  /-- A deferred function. -/
  | deferred (compute : Document → Fallible σ Value)
  /-- The current time and the lifetime. -/
  | expiry (lifetime : Duration)

/-- A condition on the value of an attribute. -/
inductive Validator (σ : Type) where
  | equals (expected : Value)
  /-- The value is a string that matches. -/
  | pattern (expression : TextPattern)
  /-- The function accepts the value. -/
  | immediate (accepts : Value → StateM σ Bool)
  /-- The deferred function accepts the value; if it fails, it does not. -/
  | deferred (accepts : Value → Fallible σ Bool)

def Validator.check {σ : Type} (validator : Validator σ) (value : Value) : StateM σ Bool :=
  match validator with
  | .equals expected => pure (expected == value)
  | .pattern expression => pure (value.string?.any expression.isMatch)
  | .immediate accepts => accepts value
  | .deferred accepts => do
    match ← (accepts value).run with
    | .ok passed => pure passed
    | .error _ => pure false

end ItemMapper
