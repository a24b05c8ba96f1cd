import ItemMapper.Typing.Score

/-!
# The type of a value

Of the candidate types of an attribute the one with the highest score is used, the first of them
if there are several, and none if every score is zero.
-/

namespace ItemMapper

/-- The first alternative with the highest score, if that is not zero. -/
def Score.firstBest {α : Type} : List (α × Rat) → Option (α × Rat)
  | [] => none
  | (first, score) :: rest =>
    match Score.firstBest rest with
    | some (other, higher) =>
      if score < higher then some (other, higher) else some (first, score)
    | none => if 0 < score then some (first, score) else none

/-- A candidate type and the way of reading it that fits best. -/
structure Choice (σ : Type) where
  type : CandidateType σ
  reading : Reading σ

variable {σ : Type}

/-- A value of a kind that none of the types takes. -/
def MapperError.mismatch (place : Place) (types : List (CandidateType σ)) (actual : String) :
    MapperError :=
  .typeMismatch place.text (types.map CandidateType.typeName) actual

namespace Scope

def choices (scope : Scope σ) (place : Place) (types : List (CandidateType σ))
    (isDocument : Bool) : List (Choice σ) :=
  types.flatMap fun type => (scope.readings place isDocument type).map fun reading =>
    ⟨type, reading⟩

/-- The choice among some candidate types, given the scores of their readings. -/
def choose? (scope : Scope σ) (place : Place) (types : List (CandidateType σ))
    (isDocument : Bool) (score : Reading σ → Rat) : Option (Choice σ) :=
  (Score.firstBest ((scope.choices place types isDocument).map fun choice =>
    (choice, score choice.reading))).map Prod.fst

/-- The type that a native value takes. -/
def resolve (scope : Scope σ) (place : Place) (types : List (CandidateType σ)) (value : Value) :
    Except MapperError (Choice σ) :=
  match scope.choose? place types value.isDocument (value.score Score.rounded) with
  | some choice => .ok choice
  | none => .error (.mismatch place types value.typeName)

/-- The type that a stored value takes. -/
def resolveStored (scope : Scope σ) (place : Place) (types : List (CandidateType σ))
    (value : WireValue) : Except MapperError (Choice σ) :=
  match scope.choose? place types value.isDocument (value.score Score.rounded) with
  | some choice => .ok choice
  | none => .error (.mismatch place types value.typeName)

end Scope

end ItemMapper
