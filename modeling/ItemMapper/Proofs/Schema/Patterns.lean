import ItemMapper.Proofs.Place
import ItemMapper.Proofs.Schema.KeepUnknown

/-!
# Paths that patterns match

A pattern matches a path if its segments can be aligned with the segments of the path: in order, each
of them takes a run of segments, and together they take all (`PathMatch.Aligned`).  With several `**`
there are many ways to do so.

`PathMatch.ofSegments` finds out whether there is one (`ofSegments_eq_full_iff`), and where the path
ends too early, whether more segments could complete it.  None are tried for that: what is left of
the pattern is an extension that it matches itself (`exists_below_of_above`).  Where the path is
outside, there is no such extension by `ofSegments_append`.
-/

namespace ItemMapper

theorem Dotted.plain_of_mem_split {text segment : String} (hsegment : segment ∈ split text) :
    '.' ∉ segment.toList := by
  have hchars : ∀ chars : List Char, ∀ part ∈ chars.splitOn '.', '.' ∉ part := by
    intro chars
    induction chars with
    | nil => simp
    | cons char rest ih =>
        rw [List.splitOn_cons_eq_if_modifyHead]
        split
        · simpa using ih
        · next hchar =>
            cases hparts : rest.splitOn '.' with
            | nil => exact absurd hparts (List.splitOn_ne_nil _ _)
            | cons first others =>
                rw [hparts, List.forall_mem_cons] at ih
                rw [List.modifyHead_cons, List.forall_mem_cons]
                refine ⟨?_, ih.2⟩
                rw [List.mem_cons, not_or]
                exact ⟨fun heq => hchar (by simp [← heq]), ih.1⟩
  obtain ⟨part, hpart, rfl⟩ := List.mem_map.mp hsegment
  simpa using hchars text.toList part hpart

namespace PathMatch

/-! ## Alignments -/

/-- The runs of segments that a segment of a pattern takes. -/
inductive Takes : String → List String → Prop
  | literal (segment : String) : Takes segment [segment]
  | one (segment : String) : Takes "*" [segment]
  | many {run : List String} (hrun : run ≠ []) : Takes "**" run

/-- The segments of a pattern take all segments of a path, run by run. -/
def Aligned (pattern path : List String) : Prop :=
  ∃ runs, List.Forall₂ Takes pattern runs ∧ runs.flatten = path

variable {head segment : String} {run pattern path rest below : List String}

theorem Takes.ne_nil (htakes : Takes head run) : run ≠ [] := by
  cases htakes with
  | literal => simp
  | one => simp
  | many hrun => exact hrun

/-- All but `**` take a single segment. -/
theorem Takes.iff_of_ne (hhead : head ≠ "**") :
    Takes head (segment :: run) ↔ run = [] ∧ (head = "*" ∨ head = segment) := by
  constructor
  · intro htakes
    cases htakes with
    | literal => exact ⟨rfl, .inr rfl⟩
    | one => exact ⟨rfl, .inl rfl⟩
    | many => exact absurd rfl hhead
  · rintro ⟨rfl, rfl | rfl⟩
    · exact .one segment
    · exact .literal head

theorem aligned_nil_iff : Aligned [] path ↔ path = [] := by
  constructor
  · rintro ⟨_, ⟨⟩, rfl⟩
    rfl
  · rintro rfl
    exact ⟨[], .nil, rfl⟩

theorem aligned_cons_iff : Aligned (head :: rest) path ↔
    ∃ run below, Takes head run ∧ Aligned rest below ∧ run ++ below = path := by
  constructor
  · rintro ⟨_, _ | ⟨hhead, hrest⟩, rfl⟩
    exact ⟨_, _, hhead, ⟨_, hrest, rfl⟩, rfl⟩
  · rintro ⟨run, _, hhead, ⟨runs, hrest, rfl⟩, rfl⟩
    exact ⟨run :: runs, .cons hhead hrest, rfl⟩

/-- A pattern that is not empty takes at least one segment. -/
theorem not_aligned_nil : ¬ Aligned (head :: rest) [] := by
  rw [aligned_cons_iff]
  rintro ⟨run, below, hhead, -, hempty⟩
  exact hhead.ne_nil (List.append_eq_nil_iff.mp hempty).1

/-- The first segment of a path goes to the first one of the pattern, and `**` may take more. -/
theorem aligned_many_iff : Aligned ("**" :: rest) (segment :: path) ↔
    Aligned rest path ∨ Aligned ("**" :: rest) path := by
  rw [aligned_cons_iff, aligned_cons_iff]
  constructor
  · rintro ⟨_ | ⟨first, run⟩, below, hmany, hrest, hpath⟩
    · exact absurd rfl hmany.ne_nil
    · obtain ⟨rfl, rfl⟩ := List.cons.inj hpath
      rcases eq_or_ne run [] with rfl | hrun
      · exact .inl hrest
      · exact .inr ⟨run, below, .many hrun, hrest, rfl⟩
  · rintro (hrest | ⟨run, below, -, hrest, rfl⟩)
    · exact ⟨[segment], path, .many (by simp), hrest, rfl⟩
    · exact ⟨segment :: run, below, .many (by simp), hrest, rfl⟩

theorem aligned_single_iff (hhead : head ≠ "**") : Aligned (head :: rest) (segment :: path) ↔
    (head = "*" ∨ head = segment) ∧ Aligned rest path := by
  rw [aligned_cons_iff]
  constructor
  · rintro ⟨_ | ⟨first, run⟩, below, htakes, hrest, hpath⟩
    · exact absurd rfl htakes.ne_nil
    · obtain ⟨rfl, rfl⟩ := List.cons.inj hpath
      obtain ⟨rfl, hsegment⟩ := (Takes.iff_of_ne hhead).mp htakes
      exact ⟨hsegment, hrest⟩
  · rintro ⟨hsegment, hrest⟩
    exact ⟨[segment], path, (Takes.iff_of_ne hhead).mpr ⟨rfl, hsegment⟩, hrest, rfl⟩

/-- Read as a path, a pattern matches itself. -/
theorem aligned_self (pattern : List String) : Aligned pattern pattern := by
  induction pattern with
  | nil => exact aligned_nil_iff.mpr rfl
  | cons head rest ih => exact aligned_cons_iff.mpr ⟨[head], rest, .literal head, ih, rfl⟩

/-! ## The search for an alignment -/

theorem closer_eq_full_iff {first second : PathMatch} :
    first.closer second = .full ↔ first = .full ∨ second = .full := by
  cases first <;> cases second <;> simp [closer]

theorem ofSegments_eq_full_iff : ofSegments pattern path = .full ↔ Aligned pattern path := by
  fun_induction ofSegments pattern path with
  | case1 => simp [aligned_nil_iff]
  | case2 => simp [not_aligned_nil]
  | case3 => simp [aligned_nil_iff]
  | case4 rest segment path ihrest ihagain =>
      rw [closer_eq_full_iff, ihrest, ihagain, aligned_many_iff]
  | case5 head rest segment path hmany hone ih =>
      rw [ih, aligned_single_iff hmany]
      simpa using fun _ => hone
  | case6 head rest segment path hmany hone =>
      rw [aligned_single_iff hmany]
      simp_all

/-- Above a pattern some of its last segments, read as a path, lead to a match. -/
theorem exists_below_of_above (habove : ofSegments pattern path = .above) :
    ∃ below, below ≠ [] ∧ below ⊆ pattern ∧ Aligned pattern (path ++ below) := by
  fun_induction ofSegments pattern path with
  | case1 => contradiction
  | case2 head rest => exact ⟨head :: rest, by simp, List.Subset.refl _, aligned_self _⟩
  | case3 => contradiction
  | case4 rest segment path ihrest ihagain =>
      have hcases : ofSegments rest path = .above ∨ ofSegments ("**" :: rest) path = .above := by
        revert habove
        cases ofSegments rest path <;> cases ofSegments ("**" :: rest) path <;> simp [closer]
      rcases hcases with hrest | hagain
      · obtain ⟨below, hne, hsubset, haligned⟩ := ihrest hrest
        exact ⟨below, hne, List.subset_cons_of_subset _ hsubset, aligned_many_iff.mpr (.inl haligned)⟩
      · obtain ⟨below, hne, hsubset, haligned⟩ := ihagain hagain
        exact ⟨below, hne, hsubset, aligned_many_iff.mpr (.inr haligned)⟩
  | case5 head rest segment path hmany hone ih =>
      obtain ⟨below, hne, hsubset, haligned⟩ := ih habove
      refine ⟨below, hne, List.subset_cons_of_subset _ hsubset, ?_⟩
      exact (aligned_single_iff hmany).mpr ⟨by simpa using hone, haligned⟩
  | case6 => contradiction

end PathMatch

namespace KeepUnknown

open PathMatch

variable {patterns : List String} {path : String}

theorem foldl_closer_eq_full_iff {segments : List String} :
    ∀ {best : PathMatch}, patterns.foldl (fun best pattern =>
        best.closer (ofSegments (Dotted.split pattern) segments)) best = .full ↔
      best = .full ∨ ∃ pattern ∈ patterns, ofSegments (Dotted.split pattern) segments = .full := by
  induction patterns with
  | nil => simp
  | cons pattern rest ih =>
      intro best
      rw [List.foldl_cons, ih, closer_eq_full_iff, List.exists_mem_cons_iff, or_assoc]

theorem allows_iff : (matching patterns).allows path = true ↔
    ∃ pattern ∈ patterns, Aligned (Dotted.split pattern) (Dotted.split path) := by
  rw [allows, decide_eq_true_iff, matchSegments, foldl_closer_eq_full_iff]
  simp [ofSegments_eq_full_iff]

/-- Above a pattern the path has an extension that is kept. -/
theorem exists_allows_of_above {pattern : String} (hpattern : pattern ∈ patterns)
    (habove : ofSegments (Dotted.split pattern) (Dotted.split path) = .above) :
    ∃ below, (matching patterns).allows (path ++ "." ++ below) = true := by
  obtain ⟨below, hne, hsubset, haligned⟩ := exists_below_of_above habove
  have hplain : ∀ segment ∈ below, '.' ∉ segment.toList := fun segment hsegment =>
    Dotted.plain_of_mem_split (hsubset hsegment)
  refine ⟨Dotted.join below, allows_iff.mpr ⟨pattern, hpattern, ?_⟩⟩
  rwa [Dotted.split_append, Dotted.split_join hne hplain]

/-- A path is outside exactly if nothing is kept there or below. -/
theorem outside_iff : (matching patterns).matchSegments (Dotted.split path) = .outside ↔
    (matching patterns).allows path = false ∧
      ∀ below, (matching patterns).allows (path ++ "." ++ below) = false := by
  constructor
  · intro houtside
    refine ⟨by simp [allows, houtside], fun below => ?_⟩
    rw [allows, Dotted.split_append, matchSegments_append houtside]
    rfl
  · rintro ⟨hpath, hbelow⟩
    rw [matchSegments, foldl_closer_eq_outside_iff]
    refine ⟨rfl, fun pattern hpattern => ?_⟩
    cases hmatch : ofSegments (Dotted.split pattern) (Dotted.split path) with
    | outside => rfl
    | above =>
        obtain ⟨below, hallows⟩ := exists_allows_of_above hpattern hmatch
        rw [hbelow below] at hallows
        contradiction
    | full =>
        have hallows := allows_iff.mpr ⟨pattern, hpattern, ofSegments_eq_full_iff.mp hmatch⟩
        rw [hpath] at hallows
        contradiction

/-- Patterns keep what they can be aligned with.  A path is outside of them if neither it nor any
longer path is kept, and above them if a longer path is kept but it is not. -/
theorem patterns_exact (patterns : List String) (path : String) :
    ((matching patterns).allows path = true ↔
        ∃ pattern ∈ patterns, Aligned (Dotted.split pattern) (Dotted.split path)) ∧
      ((matching patterns).matchSegments (Dotted.split path) = .outside ↔
        (matching patterns).allows path = false ∧
          ∀ below, (matching patterns).allows (path ++ "." ++ below) = false) ∧
      ((matching patterns).matchSegments (Dotted.split path) = .above ↔
        (matching patterns).allows path = false ∧
          ∃ below, (matching patterns).allows (path ++ "." ++ below) = true) := by
  have hallowed : (matching patterns).allows path =
      decide ((matching patterns).matchSegments (Dotted.split path) = .full) := rfl
  have hbelow := @outside_iff patterns path
  refine ⟨allows_iff, hbelow, ?_⟩
  -- what is neither kept nor outside is above
  cases hmatch : (matching patterns).matchSegments (Dotted.split path) with
  | full => simp [hallowed, hmatch]
  | outside => simpa using fun _ => (hbelow.mp hmatch).2
  | above =>
      rw [hmatch] at hallowed hbelow
      simpa [hallowed] using hbelow

/-- Two `**` share a path in several ways; where the path ends between them, more may follow. -/
example : let keep := matching ["a.**.b.**"]
    keep.allows "a.b.b.c" = true ∧ keep.matchSegments (Dotted.split "a.b.b") = .above ∧
      keep.matchSegments (Dotted.split "b.a") = .outside := by
  decide

end KeepUnknown

end ItemMapper
