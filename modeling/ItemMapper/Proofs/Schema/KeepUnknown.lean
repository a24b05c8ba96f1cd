import ItemMapper.Schema.KeepUnknown
import Mathlib.Data.List.Basic

/-!
# Patterns and what lies below

A walk through undeclared data may stop at a path outside of all patterns: nothing below such a path
matches (`KeepUnknown.matchSegments_append`).  With `**` a pattern may match in several ways, and a
path is outside only if it is so in all of them.
-/

namespace ItemMapper

namespace PathMatch

theorem closer_eq_outside_iff {first second : PathMatch} :
    first.closer second = .outside ↔ first = .outside ∧ second = .outside := by
  cases first <;> cases second <;> simp [closer]

/-- Outside of a pattern everything below is outside, too. -/
theorem ofSegments_append {pattern path : List String}
    (houtside : ofSegments pattern path = .outside) (below : List String) :
    ofSegments pattern (path ++ below) = .outside := by
  fun_induction ofSegments pattern path with
  | case1 => contradiction
  | case2 => contradiction
  | case3 => rw [List.cons_append, ofSegments]
  | case4 rest segment path ihrest ihagain =>
      rw [closer_eq_outside_iff] at houtside
      rw [List.cons_append, ofSegments, if_pos rfl, closer_eq_outside_iff]
      exact ⟨ihrest houtside.1, ihagain houtside.2⟩
  | case5 head rest segment path hmany hone ih =>
      rw [List.cons_append, ofSegments, if_neg hmany, if_pos hone]
      exact ih houtside
  | case6 head rest segment path hmany hone =>
      rw [List.cons_append, ofSegments, if_neg hmany, if_neg hone]

end PathMatch

namespace KeepUnknown

theorem foldl_closer_eq_outside_iff {patterns : List String} {segments : List String} :
    ∀ {best : PathMatch}, patterns.foldl (fun best pattern =>
        best.closer (PathMatch.ofSegments (Dotted.split pattern) segments)) best = .outside ↔
      best = .outside ∧
        ∀ pattern ∈ patterns, PathMatch.ofSegments (Dotted.split pattern) segments = .outside := by
  induction patterns with
  | nil => simp
  | cons pattern rest ih =>
      intro best
      rw [List.foldl_cons, ih, PathMatch.closer_eq_outside_iff, List.forall_mem_cons, and_assoc]

theorem matchSegments_append {keep : KeepUnknown} {path : List String}
    (houtside : keep.matchSegments path = .outside) (below : List String) :
    keep.matchSegments (path ++ below) = .outside := by
  cases keep with
  | disabled => rfl
  | everything => contradiction
  | matching patterns =>
      rw [matchSegments, foldl_closer_eq_outside_iff] at houtside ⊢
      exact ⟨rfl, fun pattern hpattern => PathMatch.ofSegments_append (houtside.2 pattern hpattern) below⟩

end KeepUnknown

end ItemMapper
