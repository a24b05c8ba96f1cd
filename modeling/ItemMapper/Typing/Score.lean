import ItemMapper.Coding.Natural
import ItemMapper.Number.Binary64
import ItemMapper.Scope

/-!
# How well a value fits a type

A value fits a type by a score between zero and one.  Scalars fit or do not; lists, sets and
documents have the average score of their members, and empty ones fit completely.  An undeclared
field counts half if something of it may be kept, and not at all otherwise.  A member that may
have several types counts with the best of them.

An average is summed up from the first member to the last, and every sum and quotient is rounded:
types whose exact scores are equal may then differ in the last place.  The rounding is the first
argument of every score.  Values are typed with `Score.rounded`; with `id` the scores are the exact
averages.

`Value.score` looks at native values and `WireValue.score` at stored ones, each by recursion on the
value.
-/

namespace ItemMapper

namespace Score

/-- The rounding that values are typed with: to the nearest 64-bit binary number. -/
def rounded : Rat → Rat := Binary64.nearest

/-- One for a fit, zero for none. -/
def ofBool (fits : Bool) : Rat := if fits then 1 else 0

/-- The average of some scores with every step rounded; one if there are none. -/
def average (round : Rat → Rat) (scores : List Rat) : Rat :=
  if scores.isEmpty then 1
  else round (scores.foldl (fun total score => round (total + score)) 0 / scores.length)

/-- The greatest of some scores, zero if there are none. -/
def best : List Rat → Rat
  | [] => 0
  | score :: rest =>
    let highest := best rest
    if highest < score then score else highest

end Score

variable {σ : Type}

/-- The score of an undeclared field. -/
def Frame.unknownScore (frame : Frame σ) (key : String) : Rat :=
  if frame.scope.unknownMatch (frame.place.child key) = .outside then 0 else 1 / 2

/-! ### Native values -/

/-- The score of a value without members. -/
def Value.scalarScore (value : Value) (type : CandidateType σ) : Rat :=
  Score.ofBool <| match type, value with
    | .primitive .string, .string _ => true
    | .primitive .number, .number _ => true
    | .primitive .binary, .binary _ => true
    | .primitive .boolean, .bool _ => true
    | .primitive .null, .null => true
    | .date _, .date _ => true
    | .date _, .number _ => true
    | .combine _ _, .string _ => true
    | .constant expected, value => expected == value
    | _, _ => false

mutual

/-- How well a native value fits a reading. -/
def Value.score (round : Rat → Rat) : Value → Reading σ → Rat
  | .list items, reading =>
    match reading.type with
    | .array elements =>
      Score.average round (Value.itemScores round reading.scope reading.place elements 0 items)
    | .set element =>
      Score.average round (Value.memberScores round reading.scope reading.place element items)
    | type => (Value.list items).scalarScore type
  | .set members, reading =>
    match reading.type with
    | .set element =>
      Score.average round (Value.memberScores round reading.scope reading.place element members)
    | type => (Value.set members).scalarScore type
  | .map fields, reading =>
    match reading.enter? with
    | some frame => Score.average round (Value.fieldScores round frame fields)
    | none => (Value.map fields).scalarScore reading.type
  | value, reading => value.scalarScore reading.type

def Value.itemScores (round : Rat → Rat) (scope : Scope σ) (place : Place)
    (elements : List (CandidateType σ)) : Nat → List Value → List Rat
  | _, [] => []
  | index, item :: rest =>
    Score.best ((elements.flatMap (scope.readings (place.item index) item.isDocument)).map
      (Value.score round item)) ::
      Value.itemScores round scope place elements (index + 1) rest

def Value.memberScores (round : Rat → Rat) (scope : Scope σ) (place : Place)
    (element : CandidateType σ) : List Value → List Rat
  | [] => []
  | member :: rest =>
    Score.best ((scope.readings place member.isDocument element).map
      (Value.score round member)) ::
      Value.memberScores round scope place element rest

def Value.fieldScores (round : Rat → Rat) (frame : Frame σ) :
    List (String × Value) → List Rat
  | [] => []
  | (key, value) :: rest =>
    if value.isUndefined then Value.fieldScores round frame rest
    else
      let score :=
        match frame.schema.nativeAttribute? key with
        | some field =>
          Score.best ((field.types.flatMap
            (frame.scope.readings (frame.place.child key) value.isDocument)).map
            (Value.score round value))
        | none => frame.unknownScore key
      score :: Value.fieldScores round frame rest

end

/-! ### Stored values -/

/-- The score of a stored value without members, or of one whose members do not matter. -/
def WireValue.scalarScore (value : WireValue) (type : CandidateType σ) : Rat :=
  Score.ofBool <| match type, value with
    | .primitive .string, .string _ => true
    | .primitive .number, .number _ => true
    | .primitive .binary, .binary _ => true
    | .primitive .boolean, .boolean _ => true
    | .primitive .null, .null _ => true
    | .date storage, value => (value.date? storage).isSome
    | .combine _ _, .string _ => true
    | .constant expected, value => expected.natural? == some value
    | .set element, value => element.setElement?.any value.isSetOf
    | _, _ => false

mutual

/-- How well a stored value fits a reading. -/
def WireValue.score (round : Rat → Rat) : WireValue → Reading σ → Rat
  | .list items, reading =>
    match reading.type with
    | .array elements =>
      Score.average round
        (WireValue.itemScores round reading.scope reading.place elements 0 items)
    | type => (WireValue.list items).scalarScore type
  | .map fields, reading =>
    match reading.enter? with
    | some frame => Score.average round (WireValue.fieldScores round frame fields)
    | none => (WireValue.map fields).scalarScore reading.type
  | value, reading => value.scalarScore reading.type

def WireValue.itemScores (round : Rat → Rat) (scope : Scope σ) (place : Place)
    (elements : List (CandidateType σ)) : Nat → List WireValue → List Rat
  | _, [] => []
  | index, item :: rest =>
    Score.best ((elements.flatMap (scope.readings (place.item index) item.isDocument)).map
      (WireValue.score round item)) ::
      WireValue.itemScores round scope place elements (index + 1) rest

def WireValue.fieldScores (round : Rat → Rat) (frame : Frame σ) :
    List (String × WireValue) → List Rat
  | [] => []
  | (key, value) :: rest =>
    let score :=
      match frame.schema.attribute? key with
      | some field =>
        Score.best ((field.types.flatMap
          (frame.scope.readings (frame.place.child key) value.isDocument)).map
          (WireValue.score round value))
      | none => frame.unknownScore key
    score :: WireValue.fieldScores round frame rest

end

end ItemMapper
