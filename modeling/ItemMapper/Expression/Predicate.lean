import ItemMapper.Coding.Typed
import ItemMapper.Expression.Compiled
import ItemMapper.Expression.Condition

/-!
# Predicates

A predicate is a condition on the stored side: paths hold stored names, and operands are stored
values.  `Scope.predicate` finds the predicate that a condition means under a schema, and
`Predicate.pieces` lays it out as text.
-/

namespace ItemMapper

/-- A stored attribute compared with stored operands. -/
structure Test where
  path : List Segment
  op : Operator
  operands : List WireValue
deriving DecidableEq

/-- A condition on the stored side. -/
inductive Predicate where
  | test (test : Test)
  /-- A group of predicates, each but the first with the joiner before it. -/
  | group (first : Predicate) (rest : List (Joiner × Predicate))

/-- The predicates of the outermost group, each but the first with the joiner before it. -/
structure PredicateChain where
  first : Predicate
  rest : List (Joiner × Predicate)

/-! ### Layout -/

namespace Test

/-- A function applied to a path and to the operands. -/
def call (test : Test) (function : String) : List Piece :=
  [.text (function ++ "("), .path test.path] ++
    test.operands.flatMap (fun value => [.text ",", .operand value]) ++ [.text ")"]

/-- A sign between a path and the operands. -/
def infixed (test : Test) (sign : String) : List Piece :=
  .path test.path :: .text (" " ++ sign ++ " ") :: test.operands.map .operand

def pieces (test : Test) : List Piece :=
  match test.op with
  | .equal => test.infixed "="
  | .notEqual => test.infixed "<>"
  | .less => test.infixed "<"
  | .lessOrEqual => test.infixed "<="
  | .greater => test.infixed ">"
  | .greaterOrEqual => test.infixed ">="
  | .present => test.call "attribute_exists"
  | .absent => test.call "attribute_not_exists"
  | .beginsWith => test.call "begins_with"
  | .contains => test.call "contains"
  | .lacks => .text "NOT " :: test.call "contains"
  | .between => [.path test.path, .text " BETWEEN ", .operands " AND " test.operands]
  | .oneOf => [.path test.path, .text " IN (", .operands ", " test.operands, .text ")"]

end Test

namespace Predicate

mutual

/-- The layout of a predicate.  Groups stand in parentheses. -/
def pieces : Predicate → List Piece
  | .test leaf => leaf.pieces
  | .group first rest => .text "(" :: (pieces first ++ (restPieces rest ++ [.text ")"]))

/-- The layout of the predicates after the first one. -/
def restPieces : List (Joiner × Predicate) → List Piece
  | [] => []
  | (joiner, predicate) :: rest =>
    .text (" " ++ joiner.name ++ " ") :: (pieces predicate ++ restPieces rest)

end

end Predicate

/-- The layout of the outermost group, which stands without parentheses. -/
def PredicateChain.pieces (chain : PredicateChain) : List Piece :=
  chain.first.pieces ++ Predicate.restPieces chain.rest

/-! ### From conditions -/

namespace PredicateChain

/-- The chain of some predicates with joiners between them, none if there are no predicates. -/
def ofParts? : List Predicate → List Joiner → Option PredicateChain
  | [], _ => none
  | first :: others, joiners =>
    some ⟨first, (joiners ++ List.replicate others.length Joiner.and).zip others⟩

/-- The predicate of a nested group.  A single member needs no group. -/
def toPredicate (chain : PredicateChain) : Predicate :=
  if chain.rest.isEmpty then chain.first else .group chain.first chain.rest

end PredicateChain

variable {σ : Type}

/-- The types of the members of sets and lists.  Other types stand for themselves, since a text can
be searched for another one. -/
def CandidateType.memberTypes (types : List (CandidateType σ)) : List (CandidateType σ) :=
  types.flatMap fun
    | .set element => [element]
    | .array elements => elements
    | type => [type]

namespace Scope

/-- The stored form of an operand that is compared with an attribute of the given types. -/
def operand (scope : Scope σ) (path : String) (types : Option (List (CandidateType σ)))
    (value : Value) : Except MapperError WireValue := do
  let stored ←
    match types with
    | some types => scope.encode (.ofText path) types value
    | none => .ok value.natural?
  match stored with
  | some stored => .ok stored
  | none => .error (.ofCondition (.emptyOperand path))

/-- The test that a comparison means. -/
def test (scope : Scope σ) (comparison : Comparison) : Except MapperError Test := do
  let target ← scope.lookup comparison.path
  let types :=
    if comparison.op.isMembership then target.types.map CandidateType.memberTypes
    else target.types
  let operands ← comparison.operands.mapM (scope.operand comparison.path types)
  if comparison.op.takes operands.length then
    return ⟨target.segments, comparison.op, operands⟩
  else if comparison.op = .between then throw (.ofCondition .missingBound)
  else throw (.ofCondition (.missingOperand comparison.op))

mutual

/-- The predicate that a member of a condition means, none for an empty group. -/
def predicate? (scope : Scope σ) : ConditionNode → Except MapperError (Option Predicate)
  | .comparison comparison => do return some (.test (← scope.test comparison))
  | .group children joiners => do
    let predicates ← scope.predicates children
    return (PredicateChain.ofParts? predicates joiners).map PredicateChain.toPredicate

/-- The predicates that some members of a condition mean. -/
def predicates (scope : Scope σ) : List ConditionNode → Except MapperError (List Predicate)
  | [] => .ok []
  | node :: rest => do
    let predicate ← scope.predicate? node
    let others ← scope.predicates rest
    return predicate.toList ++ others

end

/-- The predicates that a condition means, none for the empty condition. -/
def chain? (scope : Scope σ) (condition : Condition) :
    Except MapperError (Option PredicateChain) := do
  condition.ensureComplete.mapError .ofCondition
  let predicates ← scope.predicates condition.root.children
  return PredicateChain.ofParts? predicates condition.root.joiners

def compileCondition (scope : Scope σ) (condition : Condition) :
    Except MapperError CompiledExpression := do
  let chain ← scope.chain? condition
  return .ofPieces ((chain.map PredicateChain.pieces).getD [])

end Scope

end ItemMapper
