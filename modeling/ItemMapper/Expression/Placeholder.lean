import ItemMapper.AttributePath
import ItemMapper.Wire.Value

/-!
# Placeholders

The text of an expression holds neither attribute names nor values but placeholders for them, and
tables say what the placeholders stand for.  An expression is first laid out as pieces: fixed text,
paths and operands.  Then the placeholders are numbered in the order in which they occur in the
text.

A name has one placeholder for each path that ends in it, `#a0`, `#a1` and so on.  Paths that begin
alike share the placeholders of their beginnings.  Each place where operands stand has a number of
its own, with the placeholder `:v0` for a single operand and `:v0_1`, `:v0_2` and so on for several.
-/

namespace ItemMapper

/-- A part of an expression. -/
inductive Piece where
  | text (content : String)
  | path (segments : List Segment)
  | operand (value : WireValue)
  /-- Several operands with a text between each two of them. -/
  | operands (separator : String) (values : List WireValue)

/-! ### Names -/

/-- A name at the end of a path.  The path is given by its text. -/
structure NamedPath where
  path : String
  name : String
deriving DecidableEq, Repr

/-- A step of a path in which every name knows the path that it ends. -/
inductive MarkedStep where
  | name (path : NamedPath)
  | index (position : Nat)
deriving DecidableEq, Repr

namespace MarkedStep

/-- The steps of a path that goes on from the path with the given text. -/
def ofSegments : String → List Segment → List MarkedStep
  | _, [] => []
  | text, .name label :: rest =>
    let text := if text = "" then label else text ++ "." ++ label
    .name ⟨text, label⟩ :: ofSegments text rest
  | text, .index position :: rest =>
    .index position :: ofSegments (text ++ "[" ++ toString position ++ "]") rest

/-- The path that the name at this step ends. -/
def named? : MarkedStep → Option NamedPath
  | .name path => some path
  | .index _ => none

end MarkedStep

namespace Piece

/-- The paths in a piece that end in a name. -/
def namedPaths : Piece → List NamedPath
  | .path segments => (MarkedStep.ofSegments "" segments).filterMap MarkedStep.named?
  | _ => []

end Piece

/-- The paths that the placeholders of names stand for, in the order of their numbers. -/
def numberedPaths (pieces : List Piece) : List NamedPath :=
  (pieces.flatMap Piece.namedPaths).eraseDups

/-! ### Tokens -/

/-- A part of an expression with its placeholders numbered. -/
inductive Token where
  | text (content : String)
  | name (number : Nat)
  | index (position : Nat)
  | value (number : Nat)
  /-- One of several operands at the same place, counted from one. -/
  | member (number : Nat) (rank : Nat)
deriving DecidableEq, Repr

namespace Token

def render : Token → String
  | .text content => content
  | .name number => "#a" ++ toString number
  | .index position => "[" ++ toString position ++ "]"
  | .value number => ":v" ++ toString number
  | .member number rank => ":v" ++ toString number ++ "_" ++ toString rank

/-- The tokens of the steps of a path after its first one: a dot stands before a name. -/
def ofSteps (paths : List NamedPath) : List MarkedStep → List Token
  | [] => []
  | .name path :: rest => .text "." :: .name (paths.idxOf path) :: ofSteps paths rest
  | .index position :: rest => .index position :: ofSteps paths rest

def ofPath (paths : List NamedPath) (segments : List Segment) : List Token :=
  match MarkedStep.ofSegments "" segments with
  | .name path :: rest => .name (paths.idxOf path) :: ofSteps paths rest
  | steps => ofSteps paths steps

/-- The tokens of several operands at one place, from a rank on. -/
def ofMembers (number : Nat) (separator : String) : Nat → List WireValue → List Token
  | _, [] => []
  | rank, [_] => [.member number rank]
  | rank, _ :: rest =>
    .member number rank :: .text separator :: ofMembers number separator (rank + 1) rest

/-- The tokens of some pieces.  The number is that of the next place for operands. -/
def ofPieces (paths : List NamedPath) : Nat → List Piece → List Token
  | _, [] => []
  | number, .text content :: rest => .text content :: ofPieces paths number rest
  | number, .path segments :: rest => ofPath paths segments ++ ofPieces paths number rest
  | number, .operand _ :: rest => .value number :: ofPieces paths (number + 1) rest
  | number, .operands separator values :: rest =>
    ofMembers number separator 1 values ++ ofPieces paths (number + 1) rest

end Token

/-! ### Tables -/

/-- What the placeholders of several operands at one place stand for, from a rank on. -/
def memberValues (number : Nat) : Nat → List WireValue → List (Token × WireValue)
  | _, [] => []
  | rank, value :: rest => (.member number rank, value) :: memberValues number (rank + 1) rest

/-- What the placeholders of operands stand for.  The number is that of the next place. -/
def numberedValues : Nat → List Piece → List (Token × WireValue)
  | _, [] => []
  | number, .operand value :: rest => (.value number, value) :: numberedValues (number + 1) rest
  | number, .operands _ values :: rest =>
    memberValues number 1 values ++ numberedValues (number + 1) rest
  | number, _ :: rest => numberedValues number rest

/-- What the placeholders of names stand for, from a number on. -/
def numberedNames : Nat → List NamedPath → List (Token × String)
  | _, [] => []
  | number, path :: rest => (.name number, path.name) :: numberedNames (number + 1) rest

end ItemMapper
