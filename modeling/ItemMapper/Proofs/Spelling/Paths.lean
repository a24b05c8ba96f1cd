import ItemMapper.Proofs.Plain.Paths
import ItemMapper.Proofs.Typing.Elsewhere

/-!
# Paths in other spellings

A path may name an attribute by its alias or by its stored name.  `Scope.SpellsDocument` says when
the parts of two paths differ only in this.  Such paths lead to the same target: the stored names
are those of the attributes, however they were spelled.  Only whether undeclared data may be named
at all is a question of spelling, since the patterns of the schema are asked about the path as it
was written (`Scope.lookups_agree`).  This makes no difference if no pattern tells apart the places
at or below the one path from those at or below the other (`Place.Below`).
-/

namespace ItemMapper

variable {σ : Type}

/-! ## Spellings -/

mutual

/-- In a document of a schema two paths name the same attributes. -/
inductive Scope.SpellsDocument : Scope σ → Schema σ → List String → List String → Prop
  | same {scope : Scope σ} {schema : Schema σ} {parts : List String} :
      SpellsDocument scope schema parts parts
  | attribute {scope : Scope σ} {schema : Schema σ} {field : Attribute σ} {part other : String}
      {rest others : List String} (hpart : part ≠ "") (hother : other ≠ "")
      (hfield : schema.nativeAttribute? part = some field)
      (hsame : schema.nativeAttribute? other = some field)
      (hrest : SpellsValue scope field.types rest others) :
      SpellsDocument scope schema (part :: rest) (other :: others)

/-- In a value with some candidate types two paths name the same attributes. -/
inductive Scope.SpellsValue :
    Scope σ → List (CandidateType σ) → List String → List String → Prop
  | same {scope : Scope σ} {types : List (CandidateType σ)} {parts : List String} :
      SpellsValue scope types parts parts
  | item {scope : Scope σ} {types : List (CandidateType σ)} {part : String} {index : Nat}
      {rest others : List String} (hindex : Decimal.parseIndex? part = some index)
      (hrest : SpellsValue scope (PathPosition.elementTypes types) rest others) :
      SpellsValue scope types (part :: rest) (part :: others)
  | inside {scope inner : Scope σ} {types : List (CandidateType σ)} {schema : Schema σ}
      {part other : String} {rest others : List String}
      (hpart : Decimal.parseIndex? part = none) (hother : Decimal.parseIndex? other = none)
      (hinside : ∀ place, ∃ entered,
        PathPosition.descend? scope place types part = some ⟨inner, entered, schema⟩)
      (hsame : ∀ place, PathPosition.descend? scope place types other =
        PathPosition.descend? scope place types part)
      (hrest : SpellsDocument inner schema (part :: rest) (other :: others)) :
      SpellsValue scope types (part :: rest) (other :: others)

end

namespace Scope

mutual

theorem SpellsDocument.length_eq :
    ∀ {scope : Scope σ} {schema : Schema σ} {parts others : List String},
      scope.SpellsDocument schema parts others → parts.length = others.length
  | _, _, _, _, .same => rfl
  | _, _, _, _, .attribute _ _ _ _ hrest => congrArg (· + 1) (SpellsValue.length_eq hrest)

theorem SpellsValue.length_eq :
    ∀ {scope : Scope σ} {types : List (CandidateType σ)} {parts others : List String},
      scope.SpellsValue types parts others → parts.length = others.length
  | _, _, _, _, .same => rfl
  | _, _, _, _, .item _ hrest => congrArg (· + 1) (SpellsValue.length_eq hrest)
  | _, _, _, _, .inside _ _ _ _ hrest => SpellsDocument.length_eq hrest

end

end Scope

/-! ## Places below two paths -/

namespace Place

/-- One place is at or below a path, the other at the same place at or below another path of the
same length. -/
structure Below (parts others : List String) (near far : Place) : Prop where
  keys : ∃ rest, near.keys = parts ++ rest ∧ far.keys = others ++ rest
  outer : near.outer.length = far.outer.length
  inner : near.inner.length = far.inner.length

variable {parts others rest : List String} {near far : Place}

theorem keys_enter (place : Place) : place.enter.keys = place.keys :=
  List.append_nil _

theorem Below.length_keys (hbelow : Below parts others near far) :
    near.keys.length = far.keys.length := by
  rw [Place.keys, Place.keys, List.length_append, List.length_append, hbelow.outer, hbelow.inner]

/-- Below two paths places stay so with every step. -/
theorem Below.compatible (parts others : List String) : Compatible (Below parts others) where
  child := by
    intro near far hbelow key
    obtain ⟨rest, hnear, hfar⟩ := hbelow.keys
    refine ⟨⟨rest ++ [key], ?_, ?_⟩, hbelow.outer, ?_⟩
    · rw [keys_child, hnear, List.append_assoc]
    · rw [keys_child, hfar, List.append_assoc]
    · simp only [Place.child, List.length_append, hbelow.inner]
  enter := by
    intro near far hbelow
    refine ⟨?_, hbelow.length_keys, rfl⟩
    rw [keys_enter, keys_enter]
    exact hbelow.keys
  restart := fun hbelow => ⟨hbelow.keys, rfl, hbelow.length_keys⟩

theorem foldl_child (parts : List String) (place : Place) :
    parts.foldl Place.child place = ⟨place.outer, place.inner ++ parts⟩ := by
  induction parts generalizing place with
  | nil => simp
  | cons part rest ih => simp [ih, Place.child]

/-- The rests of two paths lead from two places to places below the paths. -/
def Ahead (parts others rest remaining : List String) (near far : Place) : Prop :=
  Below parts others (rest.foldl child near) (remaining.foldl child far)

theorem Ahead.enter {remaining : List String} (hahead : Ahead parts others rest remaining near far)
    (hlength : rest.length = remaining.length) :
    Ahead parts others rest remaining near.enter far.enter := by
  rw [Ahead, foldl_child, foldl_child] at hahead ⊢
  have hkeys : ∀ (place : Place) (rest : List String),
      (⟨place.outer, place.inner ++ rest⟩ : Place).keys =
      (⟨place.enter.outer, place.enter.inner ++ rest⟩ : Place).keys := fun place rest =>
    (List.append_assoc _ _ _).symm
  have hlengths := hahead.length_keys
  obtain ⟨hsame, houter, hinner⟩ := hahead
  rw [hkeys near, hkeys far] at hsame
  refine ⟨hsame, ?_, hlength⟩
  simp only [Place.enter, Place.keys, List.length_append] at hlengths ⊢
  omega

end Place

/-! ## Lookups -/

/-- Two ways to follow a path agree, or they lead to the same undeclared data, which a pattern keeps
under one spelling only. -/
inductive LookupsAgree (unseen : Prop) (first second : Except MapperError (ResolvedPath σ)) : Prop
  | agree (hagree : Except.Agree Eq first second)
  | undeclared (hseen : ¬ unseen) (target : ResolvedPath σ) (htypes : target.types = none)
      (hfirst : ∀ found, first = .ok found → found = target)
      (hsecond : ∀ found, second = .ok found → found = target)

namespace LookupsAgree

variable {unseen : Prop} {first second : Except MapperError (ResolvedPath σ)}
  {target other : ResolvedPath σ} (hlookups : LookupsAgree unseen first second)

include hlookups

/-- Without patterns that see spellings both lookups agree. -/
theorem of_unseen (hunseen : unseen) : Except.Agree Eq first second := by
  cases hlookups with
  | agree hagree => exact hagree
  | undeclared hseen => exact absurd hunseen hseen

/-- Wherever both spellings lead, it is the same. -/
theorem target_eq (hfirst : first = .ok target) (hsecond : second = .ok other) : other = target := by
  cases hlookups with
  | agree hagree => exact Except.ok.inj (hsecond.symm.trans (hagree.eq_ok_iff.mp hfirst))
  | undeclared _ found _ hfound hother => rw [hfound target hfirst, hother other hsecond]

/-- What is declared is found under both spellings. -/
theorem eq_ok_iff (hdeclared : target.types.isSome = true) :
    first = .ok target ↔ second = .ok target := by
  cases hlookups with
  | agree hagree => exact hagree.eq_ok_iff
  | undeclared _ found htypes hfound hother =>
      constructor
      · intro hfirst
        rw [hfound target hfirst, htypes] at hdeclared
        cases hdeclared
      · intro hsecond
        rw [hother target hsecond, htypes] at hdeclared
        cases hdeclared

end LookupsAgree

/-! ## The same path from other places -/

/-- Two frames differ only in their places. -/
inductive Frame.Alike (reach : Reach σ) (related : Place → Place → Prop) : Frame σ → Frame σ → Prop
  | intro {scope : Scope σ} {schema : Schema σ} {near far : Place}
      (hreaches : reach.schemas scope schema) (hplaces : related near far) :
      Alike reach related ⟨scope, near, schema⟩ ⟨scope, far, schema⟩

/-- Two positions of a path differ only in their places. -/
inductive PathPosition.Alike (reach : Reach σ) (related : Place → Place → Prop) :
    PathPosition σ → PathPosition σ → Prop
  | document {frame other : Frame σ} (halike : frame.Alike reach related other) :
      Alike reach related (.document frame) (.document other)
  | value {scope : Scope σ} {types : List (CandidateType σ)} {near far : Place}
      (htypes : ∀ type ∈ types, reach.types scope type) (hplaces : related near far) :
      Alike reach related (.value scope near types) (.value scope far types)

namespace PathPosition

variable {reach : Reach σ} {scope : Scope σ} {types : List (CandidateType σ)} {near far : Place}
  {path path' part : String} {rest : List String} {segments : List Segment}
  {last : Option (Attribute σ)}

theorem reached_elementTypes (htypes : ∀ type ∈ types, reach.types scope type) :
    ∀ type ∈ elementTypes types, reach.types scope type := by
  intro type htype
  obtain ⟨array, harray, hmem⟩ := List.mem_flatMap.mp htype
  split at hmem
  · exact reach.element (htypes _ harray) hmem
  · cases hmem

theorem rel_find? {α β : Type} {related : α → β → Prop} {items : List α} {others : List β}
    (hitems : List.Forall₂ related items others) (first : α → Bool) (second : β → Bool)
    (hsame : ∀ item other, related item other → second other = first item) :
    Option.Rel related (items.find? first) (others.find? second) := by
  induction hitems with
  | nil => exact .none
  | cons hitem _ ih =>
      rw [List.find?_cons, List.find?_cons, hsame _ _ hitem]
      split
      · exact .some hitem
      · exact ih

/-- From places that stay related when a document is entered the same document is entered. -/
theorem descend?_at (related : Place → Place → Prop)
    (henter : ∀ {near far}, related near far → related near.enter far.enter)
    (htypes : ∀ type ∈ types, reach.types scope type) (hplaces : related near far) (part : String) :
    Option.Rel (Frame.Alike reach related) (descend? scope near types part)
      (descend? scope far types part) := by
  have hframes : List.Forall₂ (Frame.Alike reach related) (types.filterMap (scope.enter? near))
      (types.filterMap (scope.enter? far)) := by
    have hsame : List.Forall₂ (fun type other => type = other ∧ type ∈ types) types types :=
      List.forall₂_same.mpr fun _ htype => ⟨rfl, htype⟩
    refine List.rel_filterMap ?_ hsame
    rintro type _ ⟨rfl, htype⟩
    rcases Scope.enter?_at related henter hplaces scope type with
      ⟨inner, schema, nearer, farther, hopens, hnear, hfar, hinner⟩ | ⟨hnear, hfar⟩
    · rw [hnear, hfar]
      exact .some (.intro (reach.inside (htypes type htype) hopens) hinner)
    · rw [hnear, hfar]
      exact .none
  have hfound := rel_find? hframes (fun frame => (frame.schema.nativeAttribute? part).isSome)
    (fun frame => (frame.schema.nativeAttribute? part).isSome)
    fun _ _ hframe => by cases hframe; rfl
  unfold descend?
  dsimp only
  generalize types.filterMap (scope.enter? near) = frames at hframes hfound ⊢
  generalize types.filterMap (scope.enter? far) = others at hframes hfound ⊢
  generalize frames.find? _ = found at hfound ⊢
  generalize others.find? _ = other at hfound ⊢
  cases hfound with
  | some hframe => exact .some hframe
  | none =>
      cases hframes with
      | nil => exact .none
      | cons hframe _ => exact .some hframe

/-- A part that is no position leads on into the document to go on in. -/
theorem follow_descend {frame : Frame σ} (hpart : Decimal.parseIndex? part = none)
    (hdescend : descend? scope near types part = some frame) :
    follow path (part :: rest) (.value scope near types) segments last =
      follow path (part :: rest) (.document frame) segments last := by
  simp only [follow, hpart, hdescend]

/-- A position leads on into the items of lists. -/
theorem follow_item {index : Nat} (hindex : Decimal.parseIndex? part = some index)
    (hlists : part ≠ "" ∧ elementTypes types ≠ []) :
    follow path (part :: rest) (.value scope near types) segments last =
      follow path rest (.value scope (near.child part) (elementTypes types))
        (segments ++ [.index index]) last := by
  simp only [follow, hlists.1, if_false, hindex]
  split
  · next hnone => exact absurd hnone hlists.2
  · rfl

theorem exists_follow_item_eq_error {index : Nat} (hindex : Decimal.parseIndex? part = some index)
    (hlists : ¬ (part ≠ "" ∧ elementTypes types ≠ [])) :
    ∃ cause, follow path (part :: rest) (.value scope near types) segments last = .error cause := by
  by_cases hpart : part = ""
  · refine ⟨.parameter (.badPath path), ?_⟩
    simp only [follow, hpart, if_true]
  · refine ⟨.unknownAttribute path, ?_⟩
    have hnone : elementTypes types = [] := not_not.mp fun hsome => hlists ⟨hpart, hsome⟩
    simp only [follow, hpart, if_false, hindex, hnone]

variable {parts others : List String}

/-- The same rest of a path leads to the same target from other places. -/
theorem follow_at (path path' : String) (rest : List String) {position other : PathPosition σ}
    (halike : position.Alike reach (Place.Ahead parts others rest rest) other)
    (segments : List Segment) (last : Option (Attribute σ)) :
    LookupsAgree (reach.BlindTo (Place.Below parts others)) (follow path rest position segments last)
      (follow path' rest other segments last) := by
  induction rest generalizing position other segments last with
  | nil => cases halike <;> exact .agree (.ok rfl)
  | cons part rest ih =>
      have hdocument : ∀ {frame other : Frame σ},
          frame.Alike reach (Place.Ahead parts others (part :: rest) (part :: rest)) other →
            ∀ segments last, LookupsAgree (reach.BlindTo (Place.Below parts others))
              (follow path (part :: rest) (.document frame) segments last)
              (follow path' (part :: rest) (.document other) segments last) := by
        rintro _ _ (@⟨scope, schema, near, far, hreaches, hplaces⟩) segments last
        simp only [follow]
        split
        · exact .agree (.error _ _)
        · cases hfield : schema.nativeAttribute? part with
          | some field =>
              exact ih (.value (fun type htype => reach.field hreaches
                (SchemaOf.mem_of_nativeAttribute? hfield) htype) hplaces) _ _
          | none =>
              by_cases hsame : scope.unknownMatch (rest.foldl Place.child (near.child part)) =
                  scope.unknownMatch (rest.foldl Place.child (far.child part))
              · simp only [hsame]
                split
                · exact .agree (.ok rfl)
                · exact .agree (.error _ _)
              · refine .undeclared (fun hblind => hsame (hblind.unknownMatch hplaces hreaches))
                  ⟨undeclared segments (part :: rest), none, last⟩ rfl ?_ ?_
                · simp only
                  split <;> simp [eq_comm]
                · simp only
                  split <;> simp [eq_comm]
      cases halike with
      | document halike => exact hdocument halike segments last
      | @value scope types near far htypes hplaces =>
          cases hpart : Decimal.parseIndex? part with
          | some index =>
              by_cases hlists : part ≠ "" ∧ elementTypes types ≠ []
              · rw [follow_item hpart hlists, follow_item hpart hlists]
                exact ih (.value (reached_elementTypes htypes) hplaces) _ _
              · obtain ⟨cause, hnear⟩ := exists_follow_item_eq_error hpart hlists
                obtain ⟨other, hfar⟩ := exists_follow_item_eq_error hpart hlists
                rw [hnear, hfar]
                exact .agree (.error cause other)
          | none =>
              have hframe := descend?_at _ (fun hahead => hahead.enter rfl) htypes hplaces part
              generalize hnear : descend? scope near types part = frame at hframe
              generalize hfar : descend? scope far types part = other at hframe
              cases hframe with
              | some hframe =>
                  rw [follow_descend hpart hnear, follow_descend hpart hfar]
                  exact hdocument hframe segments last
              | none =>
                  simp only [follow, hpart, hnear, hfar]
                  split <;> exact .agree (.error _ _)

/-! ## Other spellings -/

mutual

/-- In a document another spelling leads to the same target. -/
theorem follow_document (path path' : String) :
    ∀ {scope : Scope σ} {schema : Schema σ} {rest remaining : List String},
      scope.SpellsDocument schema rest remaining → ∀ {near far : Place}, reach.schemas scope schema →
        Place.Ahead parts others rest remaining near far → ∀ segments last,
          LookupsAgree (reach.BlindTo (Place.Below parts others))
            (follow path rest (.document ⟨scope, near, schema⟩) segments last)
            (follow path' remaining (.document ⟨scope, far, schema⟩) segments last)
  | _, _, rest, _, .same, _, _, hreaches, hplaces, segments, last =>
      follow_at path path' rest (.document (.intro hreaches hplaces)) segments last
  | _, _, _, _, .attribute hpart hother hfield hsame hrest, _, _, hreaches, hplaces, _, _ => by
      rw [follow_attribute hpart hfield, follow_attribute hother hsame]
      exact follow_value path path' hrest (fun type htype => reach.field hreaches
        (SchemaOf.mem_of_nativeAttribute? hfield) htype) hplaces _ _

/-- In a value another spelling leads to the same target. -/
theorem follow_value (path path' : String) :
    ∀ {scope : Scope σ} {types : List (CandidateType σ)} {rest remaining : List String},
      scope.SpellsValue types rest remaining → ∀ {near far : Place},
        (∀ type ∈ types, reach.types scope type) → Place.Ahead parts others rest remaining near far →
          ∀ segments last, LookupsAgree (reach.BlindTo (Place.Below parts others))
            (follow path rest (.value scope near types) segments last)
            (follow path' remaining (.value scope far types) segments last)
  | _, _, rest, _, .same, _, _, htypes, hplaces, segments, last =>
      follow_at path path' rest (.value htypes hplaces) segments last
  | _, types, part :: _, _, .item hindex hrest, _, _, htypes, hplaces, _, _ => by
      by_cases hlists : part ≠ "" ∧ elementTypes types ≠ []
      · rw [follow_item hindex hlists, follow_item hindex hlists]
        exact follow_value path path' hrest (reached_elementTypes htypes) hplaces _ _
      · obtain ⟨cause, hnear⟩ := exists_follow_item_eq_error hindex hlists
        obtain ⟨other, hfar⟩ := exists_follow_item_eq_error hindex hlists
        rw [hnear, hfar]
        exact .agree (.error cause other)
  | scope, types, part :: _, _, .inside hpart hother hinside hsame hrest, near, far, htypes,
      hplaces, _, _ => by
      obtain ⟨nearer, hnear⟩ := hinside near
      obtain ⟨farther, hfar⟩ := hinside far
      have hframe := descend?_at _ (fun hahead => hahead.enter hrest.length_eq) htypes hplaces part
      rw [hnear, hfar] at hframe
      rw [follow_descend hpart hnear, follow_descend hother ((hsame far).trans hfar)]
      cases hframe with
      | some hframe =>
          cases hframe with
          | intro hreaches hinner => exact follow_document path path' hrest hreaches hinner _ _

end

/-- The types at the end of a path are types of one scope that can be reached. -/
theorem reached_of_follow {target : ResolvedPath σ} {parts : List String} :
    ∀ {position : PathPosition σ} {segments : List Segment} {last : Option (Attribute σ)},
      position.Alike reach Eq position → follow path parts position segments last = .ok target →
        ∀ types, target.types = some types → ∃ scope, ∀ type ∈ types, reach.types scope type := by
  induction parts with
  | nil =>
      intro position segments last hreached hfollow types htypes
      obtain rfl := Except.ok.inj hfollow
      cases hreached with
      | document => cases htypes
      | value hreached =>
          obtain rfl := Option.some.inj htypes
          exact ⟨_, hreached⟩
  | cons part rest ih =>
      have hdocument : ∀ {frame : Frame σ} {segments : List Segment} {last : Option (Attribute σ)},
          frame.Alike reach Eq frame →
          follow path (part :: rest) (.document frame) segments last = .ok target →
            ∀ types, target.types = some types →
              ∃ scope, ∀ type ∈ types, reach.types scope type := by
        rintro _ segments last (@⟨scope, schema, place, _, hreaches, -⟩) hfollow types htypes
        simp only [follow] at hfollow
        split at hfollow
        · cases hfollow
        · split at hfollow
          · next field hfield =>
              exact ih (.value (fun _ htype => reach.field hreaches
                (SchemaOf.mem_of_nativeAttribute? hfield) htype) rfl) hfollow types htypes
          · split at hfollow
            · obtain rfl := Except.ok.inj hfollow
              cases htypes
            · cases hfollow
      intro position segments last hreached hfollow types htypes
      cases hreached with
      | document hframe => exact hdocument hframe hfollow types htypes
      | @value scope candidates place _ hreached =>
          cases hpart : Decimal.parseIndex? part with
          | some index =>
              by_cases hlists : part ≠ "" ∧ elementTypes candidates ≠ []
              · rw [follow_item hpart hlists] at hfollow
                exact ih (.value (reached_elementTypes hreached) rfl) hfollow types htypes
              · obtain ⟨cause, hcause⟩ := exists_follow_item_eq_error hpart hlists
                rw [hcause] at hfollow
                cases hfollow
          | none =>
              have hframe : Option.Rel (Frame.Alike reach Eq) (descend? scope place candidates part)
                  (descend? scope place candidates part) :=
                descend?_at Eq (congrArg Place.enter) hreached rfl part
              cases hdescend : descend? scope place candidates part with
              | some frame =>
                  rw [hdescend] at hframe
                  rw [follow_descend hpart hdescend] at hfollow
                  cases hframe with
                  | some hframe => exact hdocument hframe hfollow types htypes
              | none =>
                  simp only [follow, hpart, hdescend] at hfollow
                  split at hfollow <;> cases hfollow

end PathPosition

namespace Scope

variable {start : Scope σ} {path path' : String}

/-- The spellings of a path are places of the same form. -/
theorem below_ofText
    (hspells : start.SpellsDocument start.root (Dotted.split path) (Dotted.split path')) :
    Place.Below (Dotted.split path) (Dotted.split path') (.ofText path) (.ofText path') :=
  ⟨⟨[], (List.append_nil _).symm, (List.append_nil _).symm⟩, rfl, hspells.length_eq⟩

/-- Two spellings of a path lead to the same target, if they lead anywhere. -/
theorem lookups_agree
    (hspells : start.SpellsDocument start.root (Dotted.split path) (Dotted.split path')) :
    LookupsAgree (start.reach.BlindTo (Place.Below (Dotted.split path) (Dotted.split path')))
      (start.lookup path) (start.lookup path') := by
  have hroot : start.reach.schemas start start.root := Reaches.root
  refine PathPosition.follow_document path path' hspells hroot ?_ [] none
  rw [Place.Ahead, Place.foldl_child, Place.foldl_child]
  exact below_ofText hspells

end Scope

end ItemMapper
