/-!
# Dotted text

Attribute paths and the patterns of undeclared attributes are written as segments joined by
dots.  `Dotted.split` takes such a text apart and `Dotted.join` puts it together; nothing is lost
on the way (`join_split`), and segments without dots come back as they were (`split_join`).
-/

namespace ItemMapper.Dotted

/-- The segments of a dotted text.  A text without a dot is its own only segment, so the empty
text has one, empty, segment. -/
def split (text : String) : List String :=
  (text.toList.splitOn '.').map String.ofList

/-- The segments with a dot between each two of them. -/
def join (segments : List String) : String :=
  String.intercalate "." segments

theorem toList_join (segments : List String) :
    (join segments).toList = ['.'].intercalate (segments.map String.toList) := by
  simp [join, String.toList_intercalate]

theorem join_split (text : String) : join (split text) = text := by
  apply String.ext
  rw [toList_join, split, List.map_map]
  simp [Function.comp_def]

/-- Segments that hold no dot are found again. -/
theorem split_join {segments : List String} (nonempty : segments ≠ [])
    (plain : ∀ segment ∈ segments, '.' ∉ segment.toList) : split (join segments) = segments := by
  rw [split, toList_join, List.splitOn_intercalate]
  · simp [List.map_map, Function.comp_def]
  · intro chars hchars
    obtain ⟨segment, hmem, rfl⟩ := List.mem_map.mp hchars
    exact plain segment hmem
  · simpa using nonempty

end ItemMapper.Dotted
