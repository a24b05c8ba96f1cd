import ItemMapper.Number.Decimal
import ItemMapper.Scope

/-!
# Attribute paths

Conditions and updates name attributes by dotted paths.  A segment names an attribute, by alias or
stored name, or a position in a list.  Following a path through the schema gives the stored names
and the candidate types at its end.  From the first undeclared attribute on, the rest of the path
is taken as it is written if the schema keeps such attributes.
-/

namespace ItemMapper

/-- A step of a path on the stored side. -/
inductive Segment where
  | name (text : String)
  | index (position : Nat)
deriving DecidableEq, Repr

/-- A path followed through a schema. -/
structure ResolvedPath (σ : Type) where
  segments : List Segment
  /-- The candidate types at the end, none if the end is undeclared. -/
  types : Option (List (CandidateType σ))
  /-- The last declared attribute on the way. -/
  last : Option (Attribute σ)

/-- How far a path has been followed. -/
inductive PathPosition (σ : Type) where
  | document (frame : Frame σ)
  /-- At a value with some candidate types. -/
  | value (scope : Scope σ) (place : Place) (types : List (CandidateType σ))

variable {σ : Type}

namespace ResolvedPath

/-- The path of an attribute of the outermost document. -/
def isTopLevel (path : ResolvedPath σ) : Bool :=
  path.segments.length == 1

/-- The declared attribute of the outermost document that a path names. -/
def topLevel? (path : ResolvedPath σ) : Option (Attribute σ) :=
  if path.isTopLevel then path.last else none

end ResolvedPath

namespace PathPosition

def types? : PathPosition σ → Option (List (CandidateType σ))
  | .document _ => none
  | .value _ _ types => some types

/-- The types of the items of lists among some types. -/
def elementTypes (types : List (CandidateType σ)) : List (CandidateType σ) :=
  types.flatMap fun
    | .array elements => elements
    | _ => []

/-- The document to go on in from a value: the first one that declares the next attribute,
otherwise the first one. -/
def descend? (scope : Scope σ) (place : Place) (types : List (CandidateType σ)) (part : String) :
    Option (Frame σ) :=
  let frames := types.filterMap (scope.enter? place)
  (frames.find? fun frame => (frame.schema.nativeAttribute? part).isSome).or frames.head?

/-- The rest of a path that is not declared.  Numbers are positions, but not at the beginning. -/
def undeclared (segments : List Segment) (parts : List String) : List Segment :=
  parts.foldl
    (fun segments part =>
      match Decimal.parseIndex? part with
      | some index => segments ++ [if segments.isEmpty then .name part else .index index]
      | none => segments ++ [.name part])
    segments

/-- Follows the parts of a path from a position on. -/
def follow (path : String) :
    List String → PathPosition σ → List Segment → Option (Attribute σ) →
      Except MapperError (ResolvedPath σ)
  | [], position, segments, last => .ok ⟨segments, position.types?, last⟩
  | part :: rest, position, segments, last =>
    let inDocument (frame : Frame σ) : Except MapperError (ResolvedPath σ) :=
      match frame.schema.nativeAttribute? part with
      | some field =>
        follow path rest (.value frame.scope (frame.place.child part) field.types)
          (segments ++ [.name field.name]) (some field)
      | none =>
        let remainder := rest.foldl Place.child (frame.place.child part)
        if frame.scope.unknownMatch remainder = .full then
          .ok ⟨undeclared segments (part :: rest), none, last⟩
        else .error (.unknownAttribute path)
    if part = "" then .error (.parameter (.badPath path))
    else
      match position with
      | .document frame => inDocument frame
      | .value scope place types =>
        match Decimal.parseIndex? part with
        | some index =>
          match elementTypes types with
          | [] => .error (.unknownAttribute path)
          | elements =>
            follow path rest (.value scope (place.child part) elements)
              (segments ++ [.index index]) last
        | none =>
          match descend? scope place types part with
          | some frame => inDocument frame
          | none => .error (.unknownAttribute path)

end PathPosition

/-- Follows a dotted path through the schema of the outermost document. -/
def Scope.lookup (scope : Scope σ) (path : String) : Except MapperError (ResolvedPath σ) :=
  PathPosition.follow path (Dotted.split path) (.document scope.frame) [] none

end ItemMapper
