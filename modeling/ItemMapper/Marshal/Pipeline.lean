import ItemMapper.Marshal.Options
import ItemMapper.Schema

/-!
# Running the functions of the application

Reading and writing run the functions of the application one after another, each to its end, and
stop at the first failure.  Between them they pass on the state of the application.
-/

namespace ItemMapper

/-- A computation on the state of the application that may fail. -/
abbrev Pipeline (σ α : Type) := ExceptT MapperError (StateM σ) α

variable {σ α : Type}

namespace Pipeline

/-- A computation without the application. -/
def ofExcept (result : Except MapperError α) : Pipeline σ α :=
  ExceptT.mk (pure result)

/-- A function of the application, run for the attribute with the given path. -/
def ofHook (path : String) (hook : Fallible σ α) : Pipeline σ α :=
  ExceptT.mk do
    match ← hook.run with
    | .ok value => pure (.ok value)
    | .error text => pure (.error (.hook path text))

end Pipeline

/-- The value after some modifiers, in their order. -/
def applyModifiers (modifiers : List (Modifier σ)) (path : String) (value : Value) :
    Pipeline σ Value :=
  modifiers.foldlM (fun value modifier => .ofHook path (modifier.apply value)) value

/-- The default of an attribute at the given time, given the document as far as it is known. -/
def evaluateDefault (now : Instant) (field : Attribute σ) (document : Document) (path : String) :
    Pipeline σ (Option Value) :=
  match field.defaultValue with
  | none => pure none
  | some (.literal value) => pure (some value)
  | some (.immediate compute) => do return some (← compute document)
  | some (.deferred compute) => do return some (← Pipeline.ofHook path (compute document))
  | some (.expiry lifetime) =>
    match now.add? lifetime with
    | some instant => pure (some (.date instant))
    | none => throw (.expiryTooLate path)

/-- Checks the allowed values of an attribute and then its validator. -/
def checkValue (options : MarshalOptions) (field : Attribute σ) (value : Value) (path : String) :
    Pipeline σ Unit := do
  if options.enumCheck then
    if let some allowed := field.allowed then
      if !allowed.any (· == value) then
        throw (.validation (.notAllowed path allowed value))
  if options.validate then
    if let some validator := field.validator then
      if !(← validator.check value) then
        throw (.validation (.rejected path value))

/-- The texts of the sources of a combined attribute, joined by its separator. -/
def joinSources (values : List Value) (separator path : String) : Except MapperError String := do
  let texts ← values.mapM fun value =>
    match value.combinedText? with
    | some text => .ok text
    | none => .error (.parameter (.notCombinable path value.typeName))
  return String.intercalate separator texts

end ItemMapper
