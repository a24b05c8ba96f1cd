import ItemMapper.Expression.Update
import ItemMapper.Proofs.Spelling.Paths
import ItemMapper.Proofs.Spelling.Written

/-!
# Changes in other spellings

The changes of an update keep the paths that they were requested for, as they were spelled, next to
the targets that these lead to.  Two changes are alike if only the spelling differs
(`Change.Alike`).  Every stage of an update turns changes that are alike into changes that are alike,
and in the end into the same actions (`Scope.agree_actions`).

The types at the end of a path are looked at from the outermost document, wherever they were found.
Whatever can be reached is therefore considered in every scope that can be (`Scope.anywhere`).
-/

namespace ItemMapper

variable {σ : Type}

/-! ## Types from the outermost document -/

/-- What can be reached, in every scope that can be reached; and what sets hold. -/
def Scope.anywhere (start : Scope σ) : Reach σ where
  schemas scope schema := (∃ other, start.Reaches scope other) ∧ start.Mentions schema
  types scope type := (∃ schema, start.Reaches scope schema) ∧
    ((∃ other, start.Uses other type) ∨ type.isSetElement = true)
  inside := by
    rintro scope inner type schema ⟨⟨other, hscope⟩, htype⟩ hopens
    have hcovers := ((closed_covers start).of_reaches hscope).2
    rcases htype with ⟨found, huses⟩ | helement
    · cases hopens with
      | object => exact ⟨⟨other, hscope⟩, found, .inside huses .object⟩
      | self => exact ⟨⟨other, hscope⟩, hcovers.root⟩
      | model hmodel =>
          have hregistry := ((closed_covers start).of_uses huses).2.registry
          rw [hcovers.registry, ← hregistry] at hmodel
          have hreaches := Reaches.inside huses (.model hmodel)
          rw [hcovers.registry, ← hregistry]
          exact ⟨⟨_, hreaches⟩, _, hreaches⟩
    · cases hopens <;> cases helement
  field := by
    rintro scope schema field type ⟨hscope, found, hreaches⟩ hfield htype
    exact ⟨hscope, .inl ⟨found, .attribute hreaches hfield htype⟩⟩
  element := by
    rintro scope elements type ⟨hscope, ⟨found, huses⟩ | helement⟩ htype
    · exact ⟨hscope, .inl ⟨found, .element huses htype⟩⟩
    · cases helement

/-- Places are the same, or alike in some other way. -/
def Place.SameOr (alike : Place → Place → Prop) (near far : Place) : Prop :=
  near = far ∨ alike near far

/-- Patterns that tell no places apart tell none apart in any scope. -/
theorem Scope.blind_anywhere {start : Scope σ} {alike : Place → Place → Prop}
    (hblind : start.reach.BlindTo alike) : start.anywhere.BlindTo (Place.SameOr alike) where
  child := fun hplaces key =>
    hplaces.imp (congrArg (Place.child · key)) fun hother => hblind.child hother key
  enter := fun hplaces => hplaces.imp (congrArg Place.enter) hblind.enter
  restart := fun hplaces => hplaces.imp (congrArg Place.restart) hblind.restart
  wellFormed := by
    rintro scope schema ⟨-, found, hreaches⟩
    exact hblind.wellFormed found schema hreaches
  scalarSets := by
    rintro scope element ⟨-, ⟨found, huses⟩ | helement⟩
    · exact hblind.scalarSets found element huses
    · cases helement
  unknownMatch := by
    rintro near far (rfl | hplaces) scope schema ⟨⟨other, hreaches⟩, -⟩
    · rfl
    · exact hblind.unknownMatch hplaces hreaches

namespace Scope

variable {start : Scope σ} {path path' : String}

theorem mentionsTypes_of_lookup {target : ResolvedPath σ} (hlookup : start.lookup path = .ok target)
    {types : List (CandidateType σ)} (htypes : target.types = some types) :
    start.MentionsTypes types := by
  have hroot : start.reach.schemas start start.root := Reaches.root
  obtain ⟨scope, hreached⟩ := PathPosition.reached_of_follow
    (.document (.intro hroot rfl)) hlookup types htypes
  exact fun type htype => ⟨scope, hreached type htype⟩

/-- The types at the end of a path can be looked at from the outermost document. -/
theorem types_anywhere {target : ResolvedPath σ} (hlookup : start.lookup path = .ok target)
    {types : List (CandidateType σ)} (htypes : target.types = some types) :
    ∀ type ∈ types, start.anywhere.types start type :=
  fun type htype => ⟨⟨_, .root⟩, .inl (mentionsTypes_of_lookup hlookup htypes type htype)⟩

end Scope

/-! ## Changes that are alike -/

/-- Two changes differ only in how their path is spelled.  What is added to an attribute depends on
the document that is known, which is asked under the path as it is spelled. -/
inductive Change.Alike (start : Scope σ) (alike : Place → Place → Prop) (current : Document) :
    Change σ → Change σ → Prop
  | intro {path path' : String} {target : ResolvedPath σ} {request : Request}
      (hplaces : Place.SameOr alike (.ofText path) (.ofText path'))
      (htypes : ∀ types, target.types = some types → ∀ type ∈ types, start.anywhere.types start type)
      (hitems : ∀ value, request = .add value →
        current.lacksItems path' = current.lacksItems path) :
      Alike start alike current ⟨path, target, request⟩ ⟨path', target, request⟩

namespace Change

variable {start : Scope σ} {alike : Place → Place → Prop} {current : Document}
  {change other : Change σ} {writing : Writing}
  {changes others : List (Change σ)}

/-- What the schema implies is the same change on both sides. -/
theorem alike_of_lookup {path : String} {target : ResolvedPath σ}
    (hlookup : start.lookup path = .ok target) (request : Request) :
    Alike start alike current ⟨path, target, request⟩ ⟨path, target, request⟩ :=
  .intro (.inl rfl) (fun _ => Scope.types_anywhere hlookup) fun _ _ => rfl

/-- Another value may be set on both sides. -/
theorem alike_set {path path' : String} {target : ResolvedPath σ} {request : Request}
    (halike : Alike start alike current ⟨path, target, request⟩ ⟨path', target, request⟩)
    (value : Value) :
    Alike start alike current ⟨path, target, .set value⟩ ⟨path', target, .set value⟩ := by
  cases halike with
  | intro hplaces htypes => exact .intro hplaces htypes fun _ hadd => nomatch hadd

/-- What looks only at targets and requests sees no difference. -/
theorem any_alike (hchanges : List.Forall₂ (Alike start alike current) changes others)
    {test : Change σ → Bool} (htest : ∀ path path' target request,
      test ⟨path', target, request⟩ = test ⟨path, target, request⟩) :
    others.any test = changes.any test := by
  induction hchanges with
  | nil => rfl
  | cons halike _ ih =>
      cases halike
      rw [List.any_cons, List.any_cons, ih, htest]

/-! ## Preparing changes -/

theorem agree_restoreDefault (halike : change.Alike start alike current other) :
    Pipeline.Agree (Alike start alike current) (change.restoreDefault writing current)
      (other.restoreDefault writing current) := by
  obtain @⟨path, path', target, request⟩ := id halike
  unfold restoreDefault
  dsimp -zeta only
  split
  · next restores field _ _ =>
      extract_lets restored rerestored
      have hrestored : ∀ value, Pipeline.Agree (Alike start alike current) (restored value)
          (rerestored value) := by
        intro value
        dsimp only [restored, rerestored]
        cases value with
        | some value => exact .pure (alike_set halike value)
        | none =>
            dsimp only
            split
            · exact .throw _ _
            · exact .pure halike
      split
      · refine (agree_evaluateDefault _ _ _ _ _).bind ?_
        rintro value _ rfl
        exact hrestored value
      · exact hrestored none
  · exact .pure halike

theorem agree_prepare (halike : change.Alike start alike current other) :
    Pipeline.Agree (Alike start alike current) (change.prepare writing) (other.prepare writing) := by
  obtain @⟨path, path', target, request⟩ := id halike
  unfold prepare
  dsimp -zeta only
  split
  · next given field _ _ =>
      extract_lets checked rechecked
      have hchecked : ∀ value, Pipeline.Agree (Alike start alike current) (checked value)
          (rechecked value) := by
        intro value
        dsimp only [checked, rechecked]
        split
        · exact .throw_bind _ _ _ _
        · refine (agree_checkValue (fun _ _ => rfl) (fun _ _ => rfl) _ _).bind fun _ _ _ => ?_
          exact .pure (alike_set halike value)
      split
      · refine (agree_applyModifiers _ _ _ _).bind ?_
        rintro value _ rfl
        exact hchecked value
      · exact hchecked given
  · exact .pure halike

end Change

/-! ## Derived changes -/

namespace Scope

variable {start : Scope σ} {alike : Place → Place → Prop} {current : Document} {writing : Writing}
  {changes others : List (Change σ)}
  {path path' : String}

/-- The path of a request may be spelled in another way. -/
theorem agree_change (hlookups : Except.Agree Eq (start.lookup path) (start.lookup path'))
    (hplaces : Place.SameOr alike (.ofText path) (.ofText path')) {request : Request}
    (hitems : ∀ value, request = .add value →
      current.lacksItems path' = current.lacksItems path) :
    Except.Agree (Change.Alike start alike current) (start.change path request)
      (start.change path' request) := by
  unfold change
  obtain ⟨target, _, hlookup, hother, rfl⟩ | ⟨cause, other, hlookup, hother⟩ := hlookups.cases
  · have halike : Change.Alike start alike current ⟨path, target, request⟩ ⟨path', target, request⟩ :=
      .intro hplaces (fun _ => types_anywhere hlookup) hitems
    rw [hlookup, hother]
    dsimp only [bind, Except.bind]
    split
    · split
      · exact .error _ _
      · exact .ok halike
    · exact .ok halike
  · rw [hlookup, hother]
    exact .error cause other

theorem agree_assign (start : Scope σ) (alike : Place → Place → Prop) (current : Document)
    (path : String) (value : Value) :
    Except.Agree (Change.Alike start alike current) (start.assign path value)
      (start.assign path value) := by
  unfold assign
  cases hlookup : start.lookup path with
  | error cause => exact .error _ _
  | ok target => exact .ok (Change.alike_of_lookup hlookup _)

theorem agree_forcedDefault?
    (hchanges : List.Forall₂ (Change.Alike start alike current) changes others)
    (field : Attribute σ) :
    Pipeline.Agree (Option.Rel (Change.Alike start alike current))
      (start.forcedDefault? writing current changes field)
      (start.forcedDefault? writing current others field) := by
  unfold forcedDefault?
  rw [Change.any_alike hchanges fun _ _ _ _ => rfl]
  split
  · exact .pure .none
  · refine (Pipeline.Agree.refl _).bind ?_
    rintro value _ rfl
    cases value with
    | none => exact .pure .none
    | some value =>
        refine (Pipeline.Agree.ofExcept (agree_assign start alike current _ value)).bind
          fun change other halike => ?_
        exact .pure (.some halike)

theorem agree_updateTime?
    (hchanges : List.Forall₂ (Change.Alike start alike current) changes others) :
    Except.Agree (Option.Rel (Change.Alike start alike current)) (start.updateTime? writing changes)
      (start.updateTime? writing others) := by
  unfold updateTime?
  split
  · exact .ok .none
  · rw [Change.any_alike hchanges fun _ _ _ _ => rfl]
    split
    · exact .ok .none
    · refine (agree_assign start alike current _ _).bind fun change other halike => ?_
      exact .ok (.some halike)

/-! ### Combined attributes -/

theorem assignedValue?_alike
    (hchanges : List.Forall₂ (Change.Alike start alike current) changes others)
    (name : String) : assignedValue? others name = assignedValue? changes name := by
  unfold assignedValue?
  induction hchanges with
  | nil => rfl
  | cons halike _ ih =>
      cases halike
      rw [List.findSome?_cons, List.findSome?_cons, ih]
      rfl

theorem isRemoved_alike
    (hchanges : List.Forall₂ (Change.Alike start alike current) changes others) :
    isRemoved others = isRemoved changes :=
  funext fun _ => Change.any_alike hchanges fun _ _ _ _ => rfl

theorem updatedValue?_alike
    (hchanges : List.Forall₂ (Change.Alike start alike current) changes others) :
    start.updatedValue? current others = start.updatedValue? current changes := by
  funext name
  rw [updatedValue?, updatedValue?, assignedValue?_alike hchanges, isRemoved_alike hchanges]

theorem forall₂_filter_concerns
    (hchanges : List.Forall₂ (Change.Alike start alike current) changes others) (name : String) :
    List.Forall₂ (Change.Alike start alike current)
      (changes.filter fun change => !change.concerns name)
      (others.filter fun change => !change.concerns name) := by
  refine List.rel_filter ?_ hchanges
  intro change other halike
  cases halike
  rfl

theorem agree_recombine (hchanges : List.Forall₂ (Change.Alike start alike current) changes others)
    (field : Attribute σ) :
    Except.Agree (List.Forall₂ (Change.Alike start alike current))
      (start.recombine current changes field)
      (start.recombine current others field) := by
  have hkept := forall₂_filter_concerns hchanges field.name
  unfold recombine
  simp only [isRemoved_alike hchanges, updatedValue?_alike hchanges, assignedValue?_alike hchanges]
  split
  · exact .ok hchanges
  · split
    · exact .ok hchanges
    · split
      · cases hlookup : start.lookup field.nativeName with
        | error cause => exact .error _ _
        | ok target =>
            exact .ok (List.rel_append hkept (.cons (Change.alike_of_lookup hlookup _) .nil))
      · split
        · exact .error _ _
        · refine (Except.Agree.refl _).bind ?_
          rintro combined _ rfl
          refine (agree_assign start alike current _ _).bind fun change other halike => ?_
          exact .ok (List.rel_append hkept (.cons halike .nil))

theorem agree_allChanges
    (hchanges : List.Forall₂ (Change.Alike start alike current) changes others) :
    Pipeline.Agree (List.Forall₂ (Change.Alike start alike current))
      (start.allChanges writing current changes) (start.allChanges writing current others) := by
  unfold allChanges
  extract_lets completed recompleted
  have hcompleted : ∀ defaults redefaults,
      List.Forall₂ (Option.Rel (Change.Alike start alike current)) defaults redefaults →
        Pipeline.Agree (List.Forall₂ (Change.Alike start alike current)) (completed defaults)
          (recompleted redefaults) := by
    intro defaults redefaults hdefaults
    dsimp only [completed, recompleted]
    refine (Pipeline.Agree.ofExcept (agree_updateTime? hchanges)).bind fun time retime htime => ?_
    have htoList : List.Forall₂ (Change.Alike start alike current) time.toList retime.toList := by
      cases htime with
      | none => exact .nil
      | some halike => exact .cons halike .nil
    have hall := List.rel_append (List.rel_append hchanges
      (List.rel_filterMap (fun _ _ hrel => hrel) hdefaults)) htoList
    split
    · exact .ofExcept (.foldlM_same (fun field _ _ _ hgiven => agree_recombine hgiven field) hall)
    · exact .pure hall
  split
  · refine Pipeline.Agree.bind ?_ hcompleted
    exact .mapM (List.forall₂_same.mpr fun field _ => agree_forcedDefault? hchanges field)
  · exact hcompleted [] [] .nil

end Scope

/-! ## Actions -/

namespace Change

variable {start : Scope σ} {alike : Place → Place → Prop} {current : Document}
  {change other : Change σ} {writing : Writing}

theorem agree_encodeMembers (change other : Change σ) (element : CandidateType σ) (value : Value) :
    Except.Agree Eq (change.encodeMembers start element value)
      (other.encodeMembers start element value) := by
  have hsame : Except.Agree Eq
      (Reading.encodeScalar ⟨start, .ofText change.path, .set element⟩ (.set value.members))
      (Reading.encodeScalar ⟨start, .ofText other.path, .set element⟩ (.set value.members)) :=
    Reading.encodeScalar_at (by rfl) _
  exact hsame

variable (hblind : start.reach.BlindTo alike)

theorem agree_deletion (halike : change.Alike start alike current other) (value : Value) :
    Except.Agree Eq (change.deletion start value) (other.deletion start value) := by
  obtain @⟨path, path', target, request⟩ := halike
  unfold deletion
  dsimp only
  split
  · exact .error _ _
  · refine (agree_encodeMembers _ _ _ value).bind ?_
    rintro stored _ rfl
    cases stored with
    | none => exact .error _ _
    | some stored => exact .ok rfl

include hblind

theorem agree_addition (halike : change.Alike start alike current other) {value : Value}
    (hrequest : change.request = .add value) :
    Except.Agree Eq (change.addition start current value) (other.addition start current value) := by
  obtain @⟨path, path', target, request, hplaces, htypes, hitems⟩ := halike
  unfold addition
  cases htarget : target.types with
  | none =>
      dsimp only [htarget]
      cases addUndeclared? target.segments value with
      | none => exact .error _ _
      | some action => exact .ok rfl
  | some types =>
      dsimp only [htarget]
      split
      · exact .ok rfl
      · next value _ _ _ =>
          split
          · refine (agree_encodeMembers _ _ _ value).bind ?_
            rintro stored _ rfl
            cases stored with
            | none => exact .error _ _
            | some stored => exact .ok rfl
          · next array _ harray =>
              have htype := htypes types htarget array (List.mem_of_find?_eq_some harray)
              have hstored := Value.agree_encodeAs (Scope.blind_anywhere hblind).links
                (.list value.members) htype .same hplaces
              refine hstored.bind ?_
              rintro stored _ rfl
              rw [hitems value hrequest]
              cases stored with
              | none => exact .error _ _
              | some stored => exact .ok rfl
          · exact .error _ _

theorem agree_assignment (halike : change.Alike start alike current other) (value : Value) :
    Pipeline.Agree Eq (change.assignment start writing value)
      (other.assignment start writing value) := by
  obtain @⟨path, path', target, request, hplaces, htypes⟩ := halike
  unfold assignment
  dsimp -zeta only
  extract_lets assigned
  cases htarget : target.types with
  | none => exact .refl _
  | some types =>
      refine (Value.agree_writerTo ((Scope.blind_anywhere hblind).linksWriting writing) writing.depth
        value (htypes types htarget) rfl hplaces).bind ?_
      rintro stored _ rfl
      exact .refl _

theorem agree_action (halike : change.Alike start alike current other) :
    Pipeline.Agree Eq (change.action start writing current)
      (other.action start writing current) := by
  have hsame := halike
  obtain @⟨path, path', target, request⟩ := halike
  cases request with
  | remove restores => exact .refl _
  | set value => exact agree_assignment hblind hsame value
  | add value => exact .ofExcept (agree_addition hblind hsame rfl)
  | delete value => exact .ofExcept (agree_deletion hsame value)

end Change

/-- Requests that lead to changes that are alike lead to the same expression. -/
theorem Scope.agree_compileUpdate {start : Scope σ} {alike : Place → Place → Prop}
    (hblind : start.reach.BlindTo alike)
    (writing : Writing) {current update other : Document}
    (hrequested : Except.Agree (List.Forall₂ (Change.Alike start alike current))
      (start.requestedChanges update) (start.requestedChanges other)) :
    Pipeline.Agree Eq (start.compileUpdate writing current update)
      (start.compileUpdate writing current other) := by
  unfold compileUpdate updateActions
  refine Pipeline.Agree.bind ?_ fun actions others (hsame : actions = others) => hsame ▸ .refl _
  refine (Pipeline.Agree.ofExcept hrequested).bind fun requested others hrequested => ?_
  refine (Pipeline.Agree.mapM (hrequested.imp fun _ _ halike =>
    Change.agree_restoreDefault halike)).bind fun restored others hrestored => ?_
  refine (Pipeline.Agree.mapM (hrestored.imp fun _ _ halike =>
    Change.agree_prepare halike)).bind fun prepared others hprepared => ?_
  refine (agree_allChanges hprepared).bind fun changes others hchanges => ?_
  exact .mapM_eq (hchanges.imp fun _ _ halike => Change.agree_action hblind halike)

end ItemMapper
