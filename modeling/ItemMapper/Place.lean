import ItemMapper.Text.Dotted

/-!
# Places in a document

A place is where a value stands: the keys and list positions on the way to it.  The keys are kept
in two parts, because the patterns of undeclared attributes count from the document whose schema
they belong to.  `outer` leads from the outermost document to that one, `inner` from there on.

The text of a place joins the keys by dots, but an empty key at the very beginning leaves no
trace in it.
-/

namespace ItemMapper

/-- The keys that lead to a value. -/
structure Place where
  outer : List String
  inner : List String
deriving DecidableEq, Repr

namespace Place

def root : Place := ⟨[], []⟩

/-- The place that a dotted text names, counted from the outermost document. -/
def ofText (text : String) : Place := ⟨[], Dotted.split text⟩

def extend (text key : String) : String :=
  if text = "" then key else text ++ "." ++ key

def keysText (keys : List String) : String :=
  keys.foldl extend ""

def text (place : Place) : String :=
  keysText (place.outer ++ place.inner)

/-- The place of a field of the document at this place. -/
def child (place : Place) (key : String) : Place :=
  ⟨place.outer, place.inner ++ [key]⟩

/-- The place of an item of the list at this place. -/
def item (place : Place) (index : Nat) : Place :=
  place.child (toString index)

/-- The same place, with patterns counted from here on. -/
def enter (place : Place) : Place :=
  ⟨place.outer ++ place.inner, []⟩

/-- The same place, with patterns counted from the outermost document. -/
def restart (place : Place) : Place :=
  ⟨[], place.outer ++ place.inner⟩

/-- The segments that patterns see.  Where the text of the outer keys is empty, it can not be told
from no outer keys at all, and the whole text counts. -/
def segments (place : Place) : List String :=
  if keysText place.outer = "" then Dotted.split place.text
  else Dotted.split (Dotted.join place.inner)

@[simp] theorem text_enter (place : Place) : place.enter.text = place.text := by
  simp [enter, text]

@[simp] theorem text_restart (place : Place) : place.restart.text = place.text := by
  simp [restart, text]

theorem text_child (place : Place) (key : String) :
    (place.child key).text = extend place.text key := by
  simp [child, text, keysText, List.foldl_append]

end Place

end ItemMapper
