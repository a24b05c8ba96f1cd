import ItemMapper.Fields
import ItemMapper.Number.Binary64

/-!
# JSON values

The values of JSON, with numbers in binary floating point and the members of an object as fields
in ascending order of their keys.
-/

namespace ItemMapper

inductive Json where
  | null
  | bool (value : Bool)
  | number (value : Binary64)
  | string (value : String)
  | array (items : List Json)
  | object (members : List (String × Json))

namespace Json

mutual

/-- The members of every object, at every depth, have each key once and in order. -/
def WellFormed : Json → Prop
  | .array items => AllWellFormed items
  | .object members => Fields.Sorted members ∧ MembersWellFormed members
  | _ => True

def AllWellFormed : List Json → Prop
  | [] => True
  | item :: rest => WellFormed item ∧ AllWellFormed rest

def MembersWellFormed : List (String × Json) → Prop
  | [] => True
  | (_, value) :: rest => WellFormed value ∧ MembersWellFormed rest

end

def members? : Json → Option (Fields Json)
  | .object members => some members
  | _ => none

end Json

end ItemMapper
