import ItemMapper.Number.Decimal

/-!
# Text patterns

A validator may ask a text to match a regular expression.  A text matches if some part of it does,
so a pattern that is to cover the whole text says so by `^` and `$`.  `TextPattern.ends` gives, for
a place in the text, all places at which a match that begins there can end.
-/

namespace ItemMapper

/-- A regular expression. -/
inductive TextPattern where
  | empty
  | start
  | finish
  /-- One character of some ranges, or outside of them. -/
  | char (negated : Bool) (ranges : List (Char × Char))
  | sequence (first second : TextPattern)
  | choice (first second : TextPattern)
  /-- A pattern at least so many times in a row, and at most so many times if there is a bound. -/
  | repeated (body : TextPattern) (least : Nat) (most : Option Nat)

namespace TextPattern

/-- The places that a step leads to from some places, without repetition. -/
def advance (step : List Char → List (List Char)) (places : List (List Char)) :
    List (List Char) :=
  (places.flatMap step).eraseDups

/-- The places that so many steps lead to. -/
def advanceTimes (step : List Char → List (List Char)) : Nat → List (List Char) → List (List Char)
  | 0, places => places
  | count + 1, places => advanceTimes step count (advance step places)

/-- The places that at most so many steps lead to. -/
def advanceUpTo (step : List Char → List (List Char)) : Nat → List (List Char) → List (List Char)
  | 0, places => places
  | count + 1, places => places ++ advanceUpTo step count (advance step places)

/-- What can be left of the text after a match that begins where `rest` is left of it.  A place at
which the whole text is left is its beginning. -/
def ends (whole : List Char) : TextPattern → List Char → List (List Char)
  | .empty, rest => [rest]
  | .start, rest => if rest.length = whole.length then [rest] else []
  | .finish, rest => if rest = [] then [rest] else []
  | .char _ _, [] => []
  | .char negated ranges, c :: rest =>
    if ranges.any (fun range => range.1 ≤ c && c ≤ range.2) != negated then [rest] else []
  | .sequence first second, rest => advance (ends whole second) (ends whole first rest)
  | .choice first second, rest => ends whole first rest ++ ends whole second rest
  | .repeated body least most, rest =>
    let further := match most with
      | some bound => bound - least
      | none => rest.length
    advanceUpTo (ends whole body) further (advanceTimes (ends whole body) least [rest])

/-- Whether a match begins at some place of the rest of a text. -/
def matchesFrom (pattern : TextPattern) (whole : List Char) : List Char → Bool
  | [] => !(ends whole pattern []).isEmpty
  | c :: rest => !(ends whole pattern (c :: rest)).isEmpty || matchesFrom pattern whole rest

/-- Whether some part of a text matches. -/
def isMatch (pattern : TextPattern) (text : String) : Bool :=
  pattern.matchesFrom text.toList text.toList

/-! ### Reading a pattern -/

def literal (c : Char) : TextPattern := .char false [(c, c)]

/-- The class that a backslash and this letter stand for; other characters stand for themselves. -/
def escapedClass (c : Char) : Bool × List (Char × Char) :=
  match c with
  | 'd' => (false, [('0', '9')])
  | 'D' => (true, [('0', '9')])
  | 'n' => (false, [('\n', '\n')])
  | 'r' => (false, [('\r', '\r')])
  | 't' => (false, [('\t', '\t')])
  | other => (false, [(other, other)])

/-- The ranges of a class up to its closing bracket, and what follows. -/
def classTail? : List Char → Option (List (Char × Char) × List Char)
  | [] => none
  | ']' :: rest => some ([], rest)
  | '\\' :: c :: rest =>
    (classTail? rest).map fun (ranges, after) => ((escapedClass c).2 ++ ranges, after)
  | low :: '-' :: high :: rest =>
    if high = ']' then some ([(low, low), ('-', '-')], rest)
    else
      (classTail? rest).map fun (ranges, after) => ((low, high) :: ranges, after)
  | c :: rest => (classTail? rest).map fun (ranges, after) => ((c, c) :: ranges, after)

/-- The bounds of a counted repetition up to the closing brace, and what follows. -/
def countTail? (chars : List Char) : Option (Nat × Option Nat × List Char) :=
  let (least, rest) := Decimal.spanDigits chars
  if least = [] then none
  else
    match rest with
    | '}' :: after => some (Decimal.ofDigits least, some (Decimal.ofDigits least), after)
    | ',' :: more =>
      let (most, rest) := Decimal.spanDigits more
      match rest with
      | '}' :: after =>
        some (Decimal.ofDigits least, if most = [] then none else some (Decimal.ofDigits most),
          after)
      | _ => none
    | _ => none

/-- A pattern with the repetition mark that follows it, and what follows that. -/
def withRepetition? (body : TextPattern) : List Char → Option (TextPattern × List Char)
  | '*' :: rest => some (.repeated body 0 none, rest)
  | '+' :: rest => some (.repeated body 1 none, rest)
  | '?' :: rest => some (.repeated body 0 (some 1), rest)
  | '{' :: chars =>
    (countTail? chars).map fun (least, most, rest) => (.repeated body least most, rest)
  | rest => some (body, rest)

mutual

/-- Alternatives up to a closing parenthesis or the end, and what follows.  The number bounds the
steps. -/
def choiceAt? : Nat → List Char → Option (TextPattern × List Char)
  | 0, _ => none
  | fuel + 1, chars =>
    match sequenceAt? fuel chars with
    | none => none
    | some (first, '|' :: rest) =>
      (choiceAt? fuel rest).map fun (second, after) => (.choice first second, after)
    | some (first, rest) => some (first, rest)

/-- Repeated parts one after another, and what follows. -/
def sequenceAt? : Nat → List Char → Option (TextPattern × List Char)
  | 0, _ => none
  | _ + 1, [] => some (.empty, [])
  | fuel + 1, c :: rest =>
    if c = ')' || c = '|' then some (.empty, c :: rest)
    else
      match partAt? fuel (c :: rest) with
      | none => none
      | some (body, after) =>
        match withRepetition? body after with
        | none => none
        | some (first, after) =>
          (sequenceAt? fuel after).map fun (second, done) => (.sequence first second, done)

/-- A group, a class, an anchor or a character, and what follows. -/
def partAt? : Nat → List Char → Option (TextPattern × List Char)
  | 0, _ => none
  | _ + 1, [] => none
  | fuel + 1, '(' :: rest =>
    let inner := match rest with
      | '?' :: ':' :: more => more
      | other => other
    match choiceAt? fuel inner with
    | some (pattern, ')' :: after) => some (pattern, after)
    | _ => none
  | _ + 1, '[' :: '^' :: rest =>
    (classTail? rest).map fun (ranges, after) => (.char true ranges, after)
  | _ + 1, '[' :: rest =>
    (classTail? rest).map fun (ranges, after) => (.char false ranges, after)
  | _ + 1, '^' :: rest => some (.start, rest)
  | _ + 1, '$' :: rest => some (.finish, rest)
  | _ + 1, '.' :: rest => some (.char true [('\n', '\n')], rest)
  | _ + 1, '\\' :: c :: rest =>
    let (negated, ranges) := escapedClass c
    some (.char negated ranges, rest)
  | _ + 1, c :: rest =>
    if c ∈ ['*', '+', '?', '{', '\\'] then none else some (literal c, rest)

end

/-- The pattern that a text denotes, if it is well formed. -/
def parse? (text : String) : Option TextPattern :=
  let chars := text.toList
  match choiceAt? (3 * chars.length + 3) chars with
  | some (pattern, []) => some pattern
  | _ => none

end TextPattern

end ItemMapper
