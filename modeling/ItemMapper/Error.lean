import ItemMapper.Expression.Operator
import ItemMapper.Value.Describe

/-!
# Errors

Everything that can go wrong has a cause of its own.  The causes carry the data that the messages
name; the wording is in the `message` functions alone.
-/

namespace ItemMapper

/-- Why a schema can not be built. -/
inductive SchemaError where
  | badName (name : String)
  | declaredTwice (name : String)
  | secondHashKey
  | secondRangeKey
  | bothKeys (name : String)
  | aliasTaken (nativeAlias owner : String)
  | undeclaredSource (owner source : String)
  | combinedSource (owner source : String)
  | noType (owner : String)
  | mixedCombine (owner : String)
  | badSetElement (owner typeName : String)

def SchemaError.message : SchemaError → String
  | .badName name =>
    "Attribute name " ++ Text.quote name ++ " is invalid: names can not be empty or contain '.'"
  | .declaredTwice name => "Attribute " ++ name ++ " is declared more than once"
  | .secondHashKey => "Only one hashKey allowed per schema"
  | .secondRangeKey => "Only one rangeKey allowed per schema"
  | .bothKeys name => "Attribute " ++ name ++ " can not be both hashKey and rangeKey"
  | .aliasTaken nativeAlias owner =>
    "Alias " ++ nativeAlias ++ " of " ++ owner ++ " collides with a declared attribute"
  | .undeclaredSource owner source =>
    "Combine attribute " ++ owner ++ " references undeclared attribute " ++ source
  | .combinedSource owner source =>
    "Combine attribute " ++ owner ++ " can not source another combine attribute " ++ source
  | .noType owner => "Attribute " ++ owner ++ " must declare at least one type"
  | .mixedCombine owner =>
    "Attribute " ++ owner ++
      ": a Combine type must be the only type of a top-level attribute"
  | .badSetElement owner typeName =>
    "Attribute " ++ owner ++
      ": sets may only hold strings, numbers, buffers or dates, not " ++ typeName

/-- Why a condition can not be built or compiled. -/
inductive ConditionError where
  | unknownOperator (name : String)
  | operandCount (op : Operator) (count : Nat)
  | noAttribute (op : Operator)
  | notNegatable (op : Operator)
  | negatedGroup
  | noComparison (path : String)
  | emptyOperand (path : String)
  | missingOperand (op : Operator)
  | missingBound

def ConditionError.message : ConditionError → String
  | .unknownOperator name => "Unknown comparison operator: " ++ name
  | .operandCount op count => op.name ++ " does not take " ++ toString count ++ " value(s)"
  | .noAttribute op => op.name ++ " needs an attribute: call filter() first"
  | .notNegatable op => op.name ++ " can not follow not()"
  | .negatedGroup => "PARENTHESIS can not follow not()"
  | .noComparison path => "Condition on " ++ path ++ " has no comparison"
  | .emptyOperand path => path ++ " can not be compared with an empty value"
  | .missingOperand op => op.name ++ " needs a value"
  | .missingBound => "BETWEEN needs two values"

/-- Why an update can not be compiled. -/
inductive UpdateError where
  | keyAttribute (name : String)
  | removedName
  | removedShape
  | unknownBucket (bucket : String)
  | bucketShape (bucket : String)
  | missingSources (owner : String) (missing : List String)
  | deleteTarget (path : String)
  | emptyDelete (path : String)
  | addTarget (path : String)

def UpdateError.message : UpdateError → String
  | .keyAttribute name => "Can not update key attribute " ++ name
  | .removedName => "$REMOVE takes attribute names as strings"
  | .removedShape => "$REMOVE takes an object or a list of attribute names"
  | .unknownBucket bucket => "Unknown update operator: " ++ bucket
  | .bucketShape bucket => bucket ++ " takes an object"
  | .missingSources owner missing =>
    "Can not update combine attribute " ++ owner ++ ": missing " ++
      String.intercalate ", " missing
  | .deleteTarget path => "$DELETE can only target a set attribute: " ++ path
  | .emptyDelete path => "$DELETE on " ++ path ++ " needs at least one value"
  | .addTarget path => "$ADD can only target a number, set or list attribute: " ++ path

/-- What is wrong with a schema, a model, a path, a condition or an update. -/
inductive ParameterError where
  | schema (cause : SchemaError)
  | condition (cause : ConditionError)
  | update (cause : UpdateError)
  | lifetimeTooLong
  | registeredTwice (model : String)
  | notRegistered (model : String)
  | badPath (path : String)
  | notCombinable (path typeName : String)
  | suppliedWithoutSources (path : String) (missing : List String)

def ParameterError.message : ParameterError → String
  | .schema cause => cause.message
  | .condition cause => cause.message
  | .update cause => cause.message
  | .lifetimeTooLong =>
    "expires ttl is out of range: " ++
      "Source duration value is out of range for the target type"
  | .registeredTwice model => "Model " ++ model ++ " is already registered"
  | .notRegistered model => "Model " ++ model ++ " is not registered"
  | .badPath path => "Invalid attribute path: " ++ Text.quote path
  | .notCombinable path typeName =>
    path ++ " can only combine scalar values, found " ++ typeName
  | .suppliedWithoutSources path missing =>
    path ++ " can not be set directly while its sources are missing: " ++
      String.intercalate ", " missing

/-- What is wrong with the value of an attribute. -/
inductive ValidationError where
  | notAllowed (path : String) (allowed : List Value) (value : Value)
  | rejected (path : String) (value : Value)
  | missing (path : String)

def ValidationError.message : ValidationError → String
  | .notAllowed path allowed value =>
    path ++ " must equal " ++ (Value.list allowed).describe ++ ", but is set to " ++
      value.plainText
  | .rejected path value =>
    path ++ " with a value of " ++ value.plainText ++
      " had a validation error when trying to save the item"
  | .missing path => path ++ " is a required property but has no value when trying to save item"

/-- Why an operation failed. -/
inductive MapperError where
  /-- A value fits none of the types of its attribute. -/
  | typeMismatch (path : String) (expected : List String) (actual : String)
  /-- A value is missing, not among the allowed ones, or rejected by its validator. -/
  | validation (cause : ValidationError)
  /-- A schema, model, path, condition or update is malformed. -/
  | parameter (cause : ParameterError)
  /-- A path names an attribute that is neither declared nor kept. -/
  | unknownAttribute (path : String)
  /-- A function of the application failed with the given text. -/
  | hook (path text : String)
  /-- The expiry of a new item lies beyond the last date. -/
  | expiryTooLate (path : String)
  /-- Defaults and modifiers made documents inside documents beyond the allowed depth. -/
  | madeTooDeep (path : String)

def MapperError.message : MapperError → String
  | .typeMismatch path expected actual =>
    "Expected " ++ path ++ " to be of type " ++ String.intercalate ", " expected ++
      ", instead found type " ++ actual ++ "."
  | .validation cause => cause.message
  | .parameter cause => cause.message
  | .unknownAttribute path => "Unknown attribute: " ++ path
  | .hook path text => "hook for " ++ path ++ " failed: " ++ text
  | .expiryTooLate path => "the expiry of " ++ path ++ " is too late for a date"
  | .madeTooDeep path => "defaults and modifiers nest documents too deeply at " ++ path

namespace MapperError

def ofSchema (cause : SchemaError) : MapperError := .parameter (.schema cause)

def ofCondition (cause : ConditionError) : MapperError := .parameter (.condition cause)

def ofUpdate (cause : UpdateError) : MapperError := .parameter (.update cause)

end MapperError

end ItemMapper
