import ItemMapper.Coding.Date

/-!
# Stored sets

A set holds strings, numbers, binary data or dates.  Its stored form lists the stored forms of the
members in the order of their first occurrence and each once; there is no stored form of an empty
set.
-/

namespace ItemMapper

/-- What the members of a set are. -/
inductive SetElement where
  | string
  | number
  | binary
  | date (storage : DateStorage)
deriving DecidableEq, Repr

/-- What the members of a set of this type are, if there is such a set. -/
def CandidateType.setElement? {σ : Type} : CandidateType σ → Option SetElement
  | .primitive .string => some .string
  | .primitive .number => some .number
  | .primitive .binary => some .binary
  | .date storage => some (.date storage)
  | _ => none

inductive SetMember where
  | text (content : String)
  | bytes (content : List UInt8)
deriving DecidableEq

namespace SetMember

def texts (members : List SetMember) : List String :=
  members.filterMap fun
    | .text content => some content
    | .bytes _ => none

def binaries (members : List SetMember) : List (List UInt8) :=
  members.filterMap fun
    | .text _ => none
    | .bytes content => some content

end SetMember

namespace SetElement

def typeName : SetElement → String
  | .string => "string"
  | .number => "number"
  | .binary => "buffer"
  | .date _ => "date"

def wireType : SetElement → WireType
  | .string | .date .iso => .stringSet
  | .number | .date .milliseconds | .date .seconds => .numberSet
  | .binary => .binarySet

def scalarText? : WireValue → Option String
  | .string text | .number text => some text
  | _ => none

/-- The stored form of a native value as a member. -/
def member? (element : SetElement) (value : Value) : Option SetMember :=
  match element, value with
  | .string, .string content => some (.text content)
  | .number, .number x => some (.text x.text)
  | .binary, .binary content => some (.bytes content)
  | .date storage, value =>
    value.date?.bind fun instant => (scalarText? (.ofDate instant storage)).map .text
  | _, _ => none

/-- The stored set of some members, none if there are no members. -/
def store? (element : SetElement) (members : List SetMember) : Option WireValue :=
  match members.eraseDups with
  | [] => none
  | members =>
    match element.wireType with
    | .binarySet => some (.binarySet (SetMember.binaries members))
    | .stringSet => some (.stringSet (SetMember.texts members))
    | _ => some (.numberSet (SetMember.texts members))

def members (element : SetElement) : List Value → Except Value (List SetMember)
  | [] => .ok []
  | value :: rest =>
    match element.member? value with
    | none => .error value
    | some member => (members element rest).map (member :: ·)

/-- The stored set of some values, none if there are no values, or the first value that can not be
a member. -/
def encode (element : SetElement) (values : List Value) : Except Value (Option WireValue) :=
  (element.members values).map element.store?

/-- What the members of a set are if nothing but the set itself tells it: what the first one is,
a number if that can not be a member. -/
def ofFirst : Value → SetElement
  | .string _ => .string
  | .binary _ => .binary
  | .date _ => .date .milliseconds
  | _ => .number

end SetElement

end ItemMapper
