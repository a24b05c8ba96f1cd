import ItemMapper.Expression.Update.Change

/-!
# Derived changes

An update implies changes that it does not request: forced defaults are set again, the time of the
update is recorded, and combined attributes follow their sources.  The last need to know the
sources that the update leaves alone; these are taken from the item as it was before.
-/

namespace ItemMapper

variable {σ : Type}

namespace Scope

/-- The assignment of a value to an attribute. -/
def assign (scope : Scope σ) (path : String) (value : Value) : Except MapperError (Change σ) := do
  return ⟨path, ← scope.lookup path, .set value⟩

/-- The assignment of the default of an attribute, if it is forced.  The keys and the attributes
that the update changes by itself keep what they have. -/
def forcedDefault? (scope : Scope σ) (writing : Writing) (current : Document)
    (requested : List (Change σ)) (field : Attribute σ) : Pipeline σ (Option (Change σ)) := do
  if !field.forceDefault || requested.any (·.concerns field.name) || scope.root.isKey field.name
  then return none
  else
    match ← evaluateDefault writing.now field current field.name with
    | none => return none
    | some value => return some (← Pipeline.ofExcept (scope.assign field.nativeName value))

/-- The assignment of the time of the update, unless the update does it by itself. -/
def updateTime? (scope : Scope σ) (writing : Writing) (requested : List (Change σ)) :
    Except MapperError (Option (Change σ)) :=
  match scope.root.timestamps.bind Timestamps.updatedAt with
  | none => .ok none
  | some name =>
    if writing.options.timestamps = .off || requested.any (·.concerns name) then .ok none
    else do return some (← scope.assign name (.date writing.now))

/-! ### Combined attributes -/

/-- The value that some changes assign to an attribute of the outermost document. -/
def assignedValue? (changes : List (Change σ)) (name : String) : Option Value :=
  changes.findSome? fun change =>
    if change.concerns name then change.request.assigned? else none

/-- Some changes remove an attribute of the outermost document. -/
def isRemoved (changes : List (Change σ)) (name : String) : Bool :=
  changes.any fun change => change.concerns name && change.request.isRemoval

/-- The value of an attribute in the item as it was before the update. -/
def currentValue? (scope : Scope σ) (current : Document) (name : String) : Option Value :=
  let nativeName := ((scope.root.attribute? name).map AttributeOf.nativeName).getD name
  (current.get? nativeName).or (current.get? name)

/-- The value that an attribute has after the update, as far as that is known. -/
def updatedValue? (scope : Scope σ) (current : Document) (changes : List (Change σ))
    (name : String) : Option Value :=
  ((assignedValue? changes name).or
    (if isRemoved changes name then none else scope.currentValue? current name)).filter
      fun value => !value.isUndefined

/-- Lets a combined attribute follow the changes of its sources.  It is joined again if all of them
are known, and removed together with the last of them. -/
def recombine (scope : Scope σ) (current : Document) (changes : List (Change σ))
    (field : Attribute σ) : Except MapperError (List (Change σ)) :=
  match field.combine? with
  | none => .ok changes
  | some (sources, separator) =>
    let removed := sources.any (isRemoved changes)
    if !removed && (field.name :: sources).all fun name => (assignedValue? changes name).isNone then
      .ok changes
    else
      let values := sources.filterMap (scope.updatedValue? current changes)
      let missing := sources.filter fun source =>
        (scope.updatedValue? current changes source).isNone
      let others := changes.filter fun change => !change.concerns field.name
      if removed && values.isEmpty then do
        let target ← scope.lookup field.nativeName
        return others ++ [⟨field.nativeName, target, .remove false⟩]
      else if !missing.isEmpty then .error (.ofUpdate (.missingSources field.name missing))
      else do
        let combined ← joinSources values separator field.name
        return others ++ [← scope.assign field.nativeName (.string combined)]

/-- All changes of an update, given the requested ones. -/
def allChanges (scope : Scope σ) (writing : Writing) (current : Document)
    (requested : List (Change σ)) : Pipeline σ (List (Change σ)) := do
  let defaults ←
    if writing.options.forceDefaults then
      scope.root.attributes.mapM (scope.forcedDefault? writing current requested)
    else pure []
  let time ← Pipeline.ofExcept (scope.updateTime? writing requested)
  let changes := requested ++ defaults.filterMap id ++ time.toList
  if writing.options.combine then
    Pipeline.ofExcept (scope.root.attributes.foldlM (scope.recombine current) changes)
  else pure changes

end Scope

end ItemMapper
