import ItemMapper.Error

/-!
# Conditions

A condition is a group of comparisons and smaller groups, joined by AND and OR.  It is put together
step by step: `on` names an attribute, `compare` says what its value is compared with, and
`parenthesis` adds a condition of its own as one member.  A negation in between turns the next
operator into its complement, so the finished group knows no negation.
-/

namespace ItemMapper

/-- How two members of a group are joined. -/
inductive Joiner where
  | and
  | or
deriving DecidableEq, Repr

def Joiner.name : Joiner → String
  | .and => "AND"
  | .or => "OR"

/-- An attribute, named by its path, compared with operands. -/
structure Comparison where
  path : String
  op : Operator
  operands : List Value

/-- A member of a group. -/
inductive ConditionNode where
  | comparison (comparison : Comparison)
  /-- Members with the joiners that stand between them. -/
  | group (children : List ConditionNode) (joiners : List Joiner)

/-- Members with the joiners that stand between them. -/
structure ConditionGroup where
  children : List ConditionNode
  joiners : List Joiner

/-- A condition in the making. -/
structure Condition where
  /-- What is complete. -/
  root : ConditionGroup
  /-- The attribute that waits for its comparison. -/
  pending : Option String
  /-- Whether the next operator is negated. -/
  negated : Bool
  /-- The joiner before the next member, if it was chosen. -/
  joiner : Option Joiner

namespace ConditionGroup

def empty : ConditionGroup := ⟨[], []⟩

/-- One more member at the end.  The first member needs no joiner. -/
def push (group : ConditionGroup) (joiner : Joiner) (node : ConditionNode) : ConditionGroup :=
  ⟨group.children ++ [node],
    if group.children.isEmpty then group.joiners else group.joiners ++ [joiner]⟩

end ConditionGroup

namespace Condition

def empty : Condition := ⟨.empty, none, false, none⟩

def isEmpty (condition : Condition) : Bool :=
  condition.root.children.isEmpty

/-- Names the attribute of the next comparison. -/
def on (condition : Condition) (path : String) : Condition :=
  { condition with pending := some path }

def not (condition : Condition) : Condition :=
  { condition with negated := !condition.negated }

/-- Chooses the joiner before the next member. -/
def join (condition : Condition) (joiner : Joiner) : Condition :=
  { condition with joiner := some joiner }

/-- Adds a member.  If no joiner was chosen, both must hold. -/
def append (condition : Condition) (node : ConditionNode) : Condition :=
  { condition with
    root := condition.root.push (condition.joiner.getD .and) node
    joiner := none }

/-- The operator that is meant, with the negation before it. -/
def effective (condition : Condition) (op : Operator) : Except ConditionError Operator :=
  if condition.negated then
    match op.complement? with
    | some other => .ok other
    | none => .error (.notNegatable op)
  else .ok op

/-- Compares the attribute that waits with some operands. -/
def compare (condition : Condition) (op : Operator) (operands : List Value) :
    Except ConditionError Condition := do
  match condition.pending with
  | none => throw (.noAttribute op)
  | some path =>
    let meant ← condition.effective op
    if meant.takes operands.length then
      return { condition with pending := none, negated := false }.append
        (.comparison ⟨path, meant, operands⟩)
    else throw (.operandCount meant operands.length)

/-- Compares the attribute that waits by an operator that is given by its name. -/
def compareBy (condition : Condition) (name : String) (operands : List Value) :
    Except ConditionError Condition :=
  match Operator.ofName? name with
  | some op => condition.compare op operands
  | none => .error (.unknownOperator name)

/-- The attribute named last has its comparison. -/
def ensureComplete (condition : Condition) : Except ConditionError Unit :=
  match condition.pending with
  | none => .ok ()
  | some path => .error (.noComparison path)

/-- Adds a condition of its own, put together from the empty one, as one member.  A condition
without members adds nothing, and one with a single member adds just that. -/
def parenthesis (condition : Condition)
    (build : Condition → Except ConditionError Condition) : Except ConditionError Condition := do
  if condition.negated then throw .negatedGroup
  let inner ← build .empty
  inner.ensureComplete
  match inner.root.children with
  | [] => return condition
  | [node] => return condition.append node
  | children => return condition.append (.group children inner.root.joiners)

/-! ### Conditions as documents -/

/-- The operator and the operand that a value of a condition document stands for, if it is a map
with the name of an operator as its only key. -/
def operatorOf? : Value → Option (Operator × Value)
  | .map [(name, operand)] => (Operator.ofName? name).map fun op => (op, operand)
  | _ => none

/-- Adds the comparison that a value of a condition document stands for.  A value that names no
operator is the operand of an equality. -/
def compareWith (condition : Condition) (value : Value) : Except ConditionError Condition :=
  match operatorOf? value with
  | none => condition.compare .equal [value]
  | some (.present, .bool false) => condition.not.compare .present []
  | some (.present, _) => condition.compare .present []
  | some (.absent, _) => condition.compare .absent []
  | some (.between, .list items) => condition.compare .between items
  | some (.oneOf, .list items) => condition.compare .oneOf items
  | some (op, operand) => condition.compare op [operand]

/-- The condition that every attribute of a document compares as the document says, in the order
of the keys. -/
def ofDocument (document : Document) : Except ConditionError Condition :=
  document.foldlM (fun condition (path, value) => (condition.on path).compareWith value) empty

end Condition

end ItemMapper
