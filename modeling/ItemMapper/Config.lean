/-!
# Configuration

Three switches set the usual behaviour of reading and writing.  Each may be given as a text, such
as the value of an environment variable; a text that is no truth value leaves the switch as it is.
-/

namespace ItemMapper

/-- The usual behaviour of reading and writing. -/
structure Config where
  /-- Values must fit the types of their attributes. -/
  typeCheck : Bool
  /-- Expired items are hidden. -/
  checkExpiry : Bool
  /-- Schemas keep undeclared attributes unless they say otherwise. -/
  keepUnknownByDefault : Bool
deriving DecidableEq, Repr

namespace Config

/-- Everything is checked, and undeclared attributes are dropped. -/
def standard : Config := ⟨true, true, false⟩

/-- The truth value that a text denotes. -/
def parseFlag? (text : String) : Option Bool :=
  if text ∈ ["1", "true", "yes", "TRUE", "YES"] then some true
  else if text ∈ ["0", "false", "no", "FALSE", "NO"] then some false
  else none

/-- The truth value of an optional text, or the given one. -/
def flag (text : Option String) (otherwise : Bool) : Bool :=
  (text.bind parseFlag?).getD otherwise

/-- The configuration that three optional texts set. -/
def ofTexts (typeCheck checkExpiry keepUnknown : Option String) : Config :=
  ⟨flag typeCheck standard.typeCheck, flag checkExpiry standard.checkExpiry,
    flag keepUnknown standard.keepUnknownByDefault⟩

end Config

end ItemMapper
