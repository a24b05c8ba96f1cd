import ItemMapper.Text.Dotted

/-!
# Which undeclared attributes are kept

A schema drops the attributes that it does not declare, keeps all of them, or keeps those whose
path matches one of its patterns.  A pattern is a dotted text in which `*` stands for one segment
and `**` for one or more; every other segment stands for itself.
-/

namespace ItemMapper

/-- How a path lies to some patterns. -/
inductive PathMatch where
  /-- Neither the path nor anything below it matches. -/
  | outside
  /-- The path does not match, but something below it does. -/
  | above
  | full
deriving DecidableEq, Repr

namespace PathMatch

/-- The closer of two matches. -/
def closer : PathMatch → PathMatch → PathMatch
  | .full, _ | _, .full => .full
  | .above, _ | _, .above => .above
  | .outside, .outside => .outside

/-- How the segments of a path lie to the segments of a pattern. -/
def ofSegments : List String → List String → PathMatch
  | [], [] => .full
  | _ :: _, [] => .above
  | [], _ :: _ => .outside
  | head :: rest, segment :: path =>
    if head = "**" then closer (ofSegments rest path) (ofSegments (head :: rest) path)
    else if head = "*" || head = segment then ofSegments rest path
    else .outside

end PathMatch

/-- The undeclared attributes that a schema keeps. -/
inductive KeepUnknown where
  | disabled
  /-- Every one, at any depth. -/
  | everything
  /-- Those whose dotted path matches one of the patterns. -/
  | matching (patterns : List String)
deriving DecidableEq, Repr

namespace KeepUnknown

/-- How the segments of a path lie to what is kept. -/
def matchSegments (keep : KeepUnknown) (segments : List String) : PathMatch :=
  match keep with
  | .disabled => .outside
  | .everything => .full
  | .matching patterns =>
    patterns.foldl
      (fun best pattern => best.closer (PathMatch.ofSegments (Dotted.split pattern) segments))
      .outside

/-- Whether an undeclared attribute with this dotted path is kept. -/
def allows (keep : KeepUnknown) (path : String) : Bool :=
  keep.matchSegments (Dotted.split path) = .full

end KeepUnknown

end ItemMapper
