/-!
# Comparison operators

A condition compares an attribute with operands by one of thirteen operators.  Ten of them have a
complement (`Operator.complement?`), and taking the complement twice gives the operator back.
-/

namespace ItemMapper

/-- What a condition can ask of an attribute. -/
inductive Operator where
  | equal
  | notEqual
  | less
  | lessOrEqual
  | greater
  | greaterOrEqual
  | present
  | absent
  | contains
  | lacks
  | beginsWith
  | oneOf
  | between
deriving DecidableEq, Repr

namespace Operator

def all : List Operator :=
  [.equal, .notEqual, .less, .lessOrEqual, .greater, .greaterOrEqual, .present, .absent, .contains,
    .lacks, .beginsWith, .oneOf, .between]

def name : Operator → String
  | .equal => "EQ"
  | .notEqual => "NE"
  | .less => "LT"
  | .lessOrEqual => "LE"
  | .greater => "GT"
  | .greaterOrEqual => "GE"
  | .present => "EXISTS"
  | .absent => "NOT_EXISTS"
  | .contains => "CONTAINS"
  | .lacks => "NOT_CONTAINS"
  | .beginsWith => "BEGINS_WITH"
  | .oneOf => "IN"
  | .between => "BETWEEN"

/-- The operator that holds exactly where this one does not, if there is one. -/
def complement? : Operator → Option Operator
  | .equal => some .notEqual
  | .notEqual => some .equal
  | .less => some .greaterOrEqual
  | .greaterOrEqual => some .less
  | .lessOrEqual => some .greater
  | .greater => some .lessOrEqual
  | .present => some .absent
  | .absent => some .present
  | .contains => some .lacks
  | .lacks => some .contains
  | .beginsWith | .oneOf | .between => none

/-- An operator that looks at the members of a set or list rather than at the whole value. -/
def isMembership : Operator → Bool
  | .contains | .lacks => true
  | _ => false

/-- Whether an operator takes this many operands. -/
def takes (op : Operator) (count : Nat) : Bool :=
  match op with
  | .present | .absent => count == 0
  | .between => count == 2
  | .oneOf => 1 ≤ count
  | _ => count == 1

/-- A name without underscores and in lower case, which is how names are compared. -/
def normalName (text : String) : String :=
  String.ofList ((text.toList.filter (· ≠ '_')).map Char.toLower)

/-- The operator with a given name.  Case and underscores do not matter. -/
def ofName? (text : String) : Option Operator :=
  all.find? fun op => normalName op.name == normalName text

theorem complement?_complement? {op other : Operator} (h : op.complement? = some other) :
    other.complement? = some op := by
  cases op <;> cases other <;> simp_all [complement?]

theorem ofName?_name (op : Operator) : ofName? op.name = some op := by
  cases op <;> decide

end Operator

end ItemMapper
