import ItemMapper.Coding.Natural
import ItemMapper.Scope

/-!
# Undeclared data

Of an undeclared value everything is kept whose own path is kept.  A scalar whose path is kept
stays, and so does a map or list, but inside of these only what is itself kept.  A map or list
above what is kept stays as long as something in it does.  Writing (`Value.keep?`) and reading
(`WireValue.keep?`) follow the same rule.
-/

namespace ItemMapper

variable {σ : Type}

mutual

/-- The stored form of what is kept of an undeclared value. -/
def Value.keep? (scope : Scope σ) (place : Place) : Value → Option WireValue
  | .map fields =>
    let matched := scope.unknownMatch place
    let kept := Value.keepFields scope place fields
    if matched = .full || (matched = .above && !kept.isEmpty) then some (.map kept) else none
  | .list items =>
    let matched := scope.unknownMatch place
    let kept := Value.keepItems scope place 0 items
    if matched = .full || (matched = .above && !kept.isEmpty) then some (.list kept) else none
  | value => if scope.unknownMatch place = .full then value.natural? else none

def Value.keepItems (scope : Scope σ) (place : Place) : Nat → List Value → List WireValue
  | _, [] => []
  | index, item :: rest =>
    match Value.keep? scope (place.item index) item with
    | some stored => stored :: Value.keepItems scope place (index + 1) rest
    | none => Value.keepItems scope place (index + 1) rest

def Value.keepFields (scope : Scope σ) (place : Place) :
    List (String × Value) → List (String × WireValue)
  | [] => []
  | (key, value) :: rest =>
    match Value.keep? scope (place.child key) value with
    | some stored => (key, stored) :: Value.keepFields scope place rest
    | none => Value.keepFields scope place rest

end

mutual

/-- The native form of what is kept of an undeclared stored value. -/
def WireValue.keep? (scope : Scope σ) (place : Place) : WireValue → Option Value
  | .map fields =>
    let matched := scope.unknownMatch place
    let kept := WireValue.keepFields scope place fields
    if matched = .full || (matched = .above && !kept.isEmpty) then some (.map kept) else none
  | .list items =>
    let matched := scope.unknownMatch place
    let kept := WireValue.keepItems scope place 0 items
    if matched = .full || (matched = .above && !kept.isEmpty) then some (.list kept) else none
  | value => if scope.unknownMatch place = .full then some value.natural else none

def WireValue.keepItems (scope : Scope σ) (place : Place) : Nat → List WireValue → List Value
  | _, [] => []
  | index, item :: rest =>
    match WireValue.keep? scope (place.item index) item with
    | some value => value :: WireValue.keepItems scope place (index + 1) rest
    | none => WireValue.keepItems scope place (index + 1) rest

def WireValue.keepFields (scope : Scope σ) (place : Place) :
    List (String × WireValue) → List (String × Value)
  | [] => []
  | (key, stored) :: rest =>
    match WireValue.keep? scope (place.child key) stored with
    | some value => (key, value) :: WireValue.keepFields scope place rest
    | none => WireValue.keepFields scope place rest

end

end ItemMapper
