import ItemMapper.Place
import Mathlib.Data.List.Basic

/-!
# What patterns see of a place

Patterns see the segments of the dotted text of the keys that lead from a document to a value
(`Place.segments_eq`), as long as the place is `Counted`: either the keys before that document leave
a trace in the text of the place, or there are none and the first key is not empty.  Both survive
when the place moves further down, and the place of a reference is counted from the reference on.

A key may hold dots, so the segments of a longer path begin with those of the shorter one
(`Dotted.split_join_append`) but need not be one more.
-/

namespace ItemMapper

namespace Dotted

theorem split_append (first second : String) :
    split (first ++ "." ++ second) = split first ++ split second := by
  have hchars : (first ++ "." ++ second).toList = first.toList ++ '.' :: second.toList := by
    simp
  have hsplit : (first.toList ++ '.' :: second.toList).splitOn '.' =
      first.toList.splitOn '.' ++ second.toList.splitOn '.' :=
    List.splitOnP_append_cons _ _ rfl
  rw [split, hchars, hsplit, List.map_append, split, split]

theorem join_append {first second : List String} (hfirst : first ≠ []) (hsecond : second ≠ []) :
    join (first ++ second) = join first ++ "." ++ join second :=
  String.intercalate_append_of_ne_nil hfirst hsecond

/-- The segments of a path begin with those of the path above it. -/
theorem split_join_append {first : List String} (hfirst : first ≠ []) (second : List String) :
    ∃ rest, split (join (first ++ second)) = split (join first) ++ rest := by
  rcases eq_or_ne second [] with rfl | hsecond
  · exact ⟨[], by simp⟩
  · exact ⟨split (join second), by rw [join_append hfirst hsecond, split_append]⟩

end Dotted

namespace Place

/-! ## The text of a place -/

theorem extend_ne_empty {text : String} (htext : text ≠ "") (key : String) :
    extend text key ≠ "" := by
  simp [extend, htext]

theorem foldl_extend {text : String} (htext : text ≠ "") (keys : List String) :
    keys.foldl extend text = Dotted.join (text :: keys) := by
  induction keys generalizing text with
  | nil => simp [Dotted.join]
  | cons key rest ih =>
      have hjoined : Dotted.join (extend text key :: rest) = Dotted.join (text :: key :: rest) := by
        rw [extend, if_neg htext]
        rcases eq_or_ne rest [] with rfl | hrest
        · simp [Dotted.join]
        · simp only [Dotted.join, String.intercalate_cons_cons,
            String.intercalate_cons_of_ne_nil hrest, String.append_assoc]
      rw [List.foldl_cons, ih (extend_ne_empty htext key), hjoined]

/-- Only an empty first key is lost. -/
theorem keysText_eq_join {keys : List String} (hkeys : keys.head? ≠ some "") :
    keysText keys = Dotted.join keys := by
  cases keys with
  | nil => simp [keysText, Dotted.join]
  | cons key rest =>
      have hkey : key ≠ "" := fun heq => hkeys (heq ▸ rfl)
      rw [keysText, List.foldl_cons, extend, if_pos rfl, foldl_extend hkey]

/-! ## Places that patterns are counted at -/

/-- Patterns see the keys from the document on that their schema belongs to. -/
def Counted (place : Place) : Prop :=
  keysText place.outer ≠ "" ∨ place.outer = [] ∧ place.inner.head? ≠ some ""

variable {place : Place}

theorem segments_eq (hcounted : place.Counted) :
    place.segments = Dotted.split (Dotted.join place.inner) := by
  rw [segments]
  rcases hcounted with htext | ⟨houter, hkeys⟩
  · rw [if_neg htext]
  · have htext : place.text = Dotted.join place.inner := by
      rw [text, houter, List.nil_append, keysText_eq_join hkeys]
    rw [if_pos (by rw [houter]; rfl), htext]

end Place

end ItemMapper
