import ItemMapper.Proofs.AttributePath

/-!
# What the parts of a path denote

A path has one step for each of its parts.  `PathPosition.Denotes` says which: the stored name of
the attribute that a part names, the position that a number counts in a list, and from the first
undeclared part on the part itself, or the position if it is a number.

Paths are followed to just these steps (`PathPosition.denotes_of_follow`), and to each of them a
path can be followed (`PathPosition.Denotes.exists_follow`).  `Scope.lookup_iff` puts both together
for paths from the outermost document.
-/

namespace ItemMapper

variable {σ : Type}

/-- A part of a path behind an undeclared one: a number is a position. -/
def Segment.ofUndeclared (part : String) : Segment :=
  match Decimal.parseIndex? part with
  | some position => .index position
  | none => .name part

namespace PathPosition

/-- From a position on, the parts of a path stand for these steps.  In a document a part names an
attribute, by its alias or by its stored name, or undeclared data if the patterns keep all that the
rest of the path leads to.  In a value a number leads into the items of its lists, and another part
into the first of its documents that knows the attribute, or else into the first one. -/
inductive Denotes : PathPosition σ → List String → List Segment → Prop
  | nil {position : PathPosition σ} : Denotes position [] []
  | declared {frame : Frame σ} {field : Attribute σ} {part : String} {rest : List String}
      {segments : List Segment} (hpart : part ≠ "")
      (hfield : frame.schema.nativeAttribute? part = some field)
      (hrest : Denotes (.value frame.scope (frame.place.child part) field.types) rest segments) :
      Denotes (.document frame) (part :: rest) (.name field.name :: segments)
  | undeclared {frame : Frame σ} {part : String} {rest : List String} (hpart : part ≠ "")
      (hnone : frame.schema.nativeAttribute? part = none)
      (hkept : frame.scope.unknownMatch (rest.foldl Place.child (frame.place.child part)) = .full) :
      Denotes (.document frame) (part :: rest) (.name part :: rest.map .ofUndeclared)
  | item {scope : Scope σ} {place : Place} {types : List (CandidateType σ)} {part : String}
      {rest : List String} {index : Nat} {segments : List Segment}
      (hindex : Decimal.parseIndex? part = some index) (hlists : elementTypes types ≠ [])
      (hrest : Denotes (.value scope (place.child part) (elementTypes types)) rest segments) :
      Denotes (.value scope place types) (part :: rest) (.index index :: segments)
  | inside {scope : Scope σ} {place : Place} {types : List (CandidateType σ)} {frame : Frame σ}
      {part : String} {rest : List String} {segments : List Segment}
      (hindex : Decimal.parseIndex? part = none)
      (hdescend : descend? scope place types part = some frame)
      (hrest : Denotes (.document frame) (part :: rest) segments) :
      Denotes (.value scope place types) (part :: rest) segments

/-- Each part stands for one step. -/
theorem Denotes.length_eq {position : PathPosition σ} {parts : List String}
    {segments : List Segment} (hdenotes : position.Denotes parts segments) :
    segments.length = parts.length := by
  induction hdenotes with
  | nil => rfl
  | declared _ _ _ ih => simp [ih]
  | undeclared => simp
  | item _ _ _ ih => simp [ih]
  | inside _ _ _ ih => exact ih

/-! ## Following paths -/

/-- Behind a step every part of the undeclared rest is taken as it is, or as a position. -/
theorem undeclared_of_ne_nil {segments : List Segment} (hne : segments ≠ []) (parts : List String) :
    undeclared segments parts = segments ++ parts.map .ofUndeclared := by
  induction parts generalizing segments with
  | nil => simp [undeclared]
  | cons part rest ih =>
      have hstep : undeclared segments (part :: rest) =
          undeclared (segments ++ [.ofUndeclared part]) rest := by
        unfold Segment.ofUndeclared
        cases hindex : Decimal.parseIndex? part <;> simp [undeclared, hindex, hne]
      rw [hstep, ih (by simp)]
      simp

/-- The first undeclared part is a name: it is the first part at all, or no number. -/
theorem undeclared_cons_eq {segments : List Segment} {part : String}
    (hfirst : segments = [] ∨ Decimal.parseIndex? part = none) (rest : List String) :
    undeclared segments (part :: rest) = segments ++ .name part :: rest.map .ofUndeclared := by
  have hstep : undeclared segments (part :: rest) = undeclared (segments ++ [.name part]) rest := by
    cases hindex : Decimal.parseIndex? part with
    | none => simp [undeclared, hindex]
    | some index =>
        obtain rfl := hfirst.resolve_right (by simp [hindex])
        simp [undeclared, hindex]
  rw [hstep, undeclared_of_ne_nil (by simp)]
  simp

/-- There are steps before a value.  Before a document that the next part is looked up in there are
none, or that part is no number. -/
def ComesAfter (segments : List Segment) (parts : List String) : PathPosition σ → Prop
  | .document _ => segments = [] ∨ ∀ part ∈ parts.head?, Decimal.parseIndex? part = none
  | .value .. => segments ≠ []

variable {path : String}

/-- What is added to the steps is what the parts denote. -/
theorem denotes_of_follow (parts : List String) {position : PathPosition σ}
    {segments : List Segment} {last : Option (Attribute σ)} {target : ResolvedPath σ}
    (hafter : position.ComesAfter segments parts)
    (hfollow : follow path parts position segments last = .ok target) :
    ∃ added, target.segments = segments ++ added ∧ position.Denotes parts added := by
  induction parts generalizing position segments last with
  | nil =>
      obtain rfl := Except.ok.inj hfollow
      exact ⟨[], by simp, .nil⟩
  | cons part rest ih =>
      -- the next part in a document
      have hdocument : ∀ {frame : Frame σ} {segments : List Segment} {last : Option (Attribute σ)},
          segments = [] ∨ Decimal.parseIndex? part = none →
          follow path (part :: rest) (.document frame) segments last = .ok target →
          ∃ added, target.segments = segments ++ added ∧
            (document frame).Denotes (part :: rest) added := by
        intro frame segments last hfirst hfollow
        simp only [follow] at hfollow
        split at hfollow
        · cases hfollow
        next hpart =>
          split at hfollow
          case h_1 field hfield =>
            obtain ⟨added, hadded, hdenotes⟩ := ih (by simp [ComesAfter]) hfollow
            exact ⟨.name field.name :: added, by simp [hadded], .declared hpart hfield hdenotes⟩
          case h_2 hnone =>
            split at hfollow
            · next hkept =>
                obtain rfl := Except.ok.inj hfollow
                exact ⟨_, undeclared_cons_eq hfirst rest, .undeclared hpart hnone hkept⟩
            · cases hfollow
      cases position with
      | document frame => exact hdocument (by simpa [ComesAfter] using hafter) hfollow
      | value scope place types =>
          cases hindex : Decimal.parseIndex? part with
          | some index =>
              simp only [follow, hindex] at hfollow
              split at hfollow
              · cases hfollow
              · split at hfollow
                · cases hfollow
                · next hlists =>
                    obtain ⟨added, hadded, hdenotes⟩ := ih (by simp [ComesAfter]) hfollow
                    exact ⟨.index index :: added, by simp [hadded],
                      .item hindex (fun hnone => hlists hnone) hdenotes⟩
          | none =>
              cases hdescend : descend? scope place types part with
              | none =>
                  simp only [follow, hindex, hdescend] at hfollow
                  split at hfollow <;> cases hfollow
              | some frame =>
                  have hframe : follow path (part :: rest) (.document frame) segments last =
                      .ok target := by
                    rw [← hfollow]
                    simp only [follow, hindex, hdescend]
                  obtain ⟨added, hadded, hdenotes⟩ := hdocument (.inr hindex) hframe
                  exact ⟨added, hadded, .inside hindex hdescend hdenotes⟩

theorem comesAfter_nil (frame : Frame σ) (parts : List String) :
    (document frame).ComesAfter [] parts :=
  .inl rfl

/-- Parts that denote steps can be followed to them. -/
theorem Denotes.exists_follow {position : PathPosition σ} {parts : List String}
    {added : List Segment} (hdenotes : position.Denotes parts added) (path : String) :
    ∀ {segments : List Segment} (last : Option (Attribute σ)), position.ComesAfter segments parts →
      ∃ types found, follow path parts position segments last =
        .ok ⟨segments ++ added, types, found⟩ := by
  induction hdenotes with
  | nil =>
      intro segments last _
      exact ⟨_, _, by rw [follow, List.append_nil]⟩
  | @declared frame field part rest _ hpart hfield _ ih =>
      intro segments last _
      obtain ⟨types, found, hrest⟩ := @ih (segments ++ [.name field.name]) (some field)
        (by simp [ComesAfter])
      refine ⟨types, found, ?_⟩
      rw [List.append_cons, ← hrest]
      simp only [follow, hpart, if_false, hfield]
  | @undeclared frame part rest hpart hnone hkept =>
      intro segments last hafter
      have hfirst : segments = [] ∨ Decimal.parseIndex? part = none := by
        simpa [ComesAfter] using hafter
      refine ⟨none, last, ?_⟩
      simp only [follow, hpart, if_false, hnone, hkept, if_true, undeclared_cons_eq hfirst]
  | @item scope place types part rest index _ hindex hlists _ ih =>
      intro segments last _
      obtain ⟨types', found, hrest⟩ := @ih (segments ++ [.index index]) last
        (by simp [ComesAfter])
      have hpart : part ≠ "" := by
        rintro rfl
        cases hindex
      refine ⟨types', found, ?_⟩
      rw [List.append_cons, ← hrest]
      simp only [follow, hpart, if_false, hindex]
  | @inside scope place types frame part rest _ hindex hdescend _ ih =>
      intro segments last _
      obtain ⟨types', found, hrest⟩ := ih last (.inr (by simpa using hindex))
      refine ⟨types', found, ?_⟩
      rw [← hrest]
      simp only [follow, hindex, hdescend]

end PathPosition

/-- A path is found exactly if its parts denote something in the outermost document, and it is found
where they lead. -/
theorem Scope.lookup_iff {scope : Scope σ} {path : String} {segments : List Segment} :
    (∃ target, scope.lookup path = .ok target ∧ target.segments = segments) ↔
      (PathPosition.document scope.frame).Denotes (Dotted.split path) segments := by
  constructor
  · rintro ⟨target, hlookup, rfl⟩
    obtain ⟨added, hadded, hdenotes⟩ := PathPosition.denotes_of_follow (Dotted.split path)
      (PathPosition.comesAfter_nil _ _) hlookup
    rw [hadded]
    exact hdenotes
  · intro hdenotes
    obtain ⟨types, found, hfollow⟩ := hdenotes.exists_follow path none (PathPosition.comesAfter_nil _ _)
    exact ⟨_, hfollow, rfl⟩

end ItemMapper
