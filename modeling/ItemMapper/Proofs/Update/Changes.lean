import ItemMapper.Expression.Update
import ItemMapper.Proofs.AttributePath

/-!
# The changes of an update

An update that compiles passes through three lists of changes.  The *requested* changes are those
of the update document, each followed through the schema.  Preparing them runs functions of the
application, which may fail and may replace values, but never turns a change of one attribute into
a change of another: `Change.Prepares` says what a prepared change still has of the requested one,
and `prepares_of_yields` that every run of the two rounds keeps to it.  The *implied* changes are
assignments of `Scope.impliedFields`, the attributes with a forced default and the time of the
update; `implied_of_yields` says so.

Which attributes are implied depends on the schema, the options and the requested changes alone,
not on what the functions of the application return.  The claims about keys and about overlapping
paths can therefore be stated without them.
-/

namespace ItemMapper

variable {σ : Type}

open Pipeline

/-! ## Requests and their targets -/

namespace Request

/-- The whole value is assigned or removed, so the value before the update does not matter. -/
def rewrites : Request → Bool
  | .set _ | .remove _ => true
  | .add _ | .delete _ => false

theorem rewrites_iff {request : Request} :
    request.rewrites = true ↔ request.assigned?.isSome = true ∨ request.isRemoval = true := by
  cases request <;> simp [rewrites, assigned?, isRemoval]

end Request

/-- The path of a declared attribute of the outermost document. -/
def ResolvedPath.ofAttribute (field : Attribute σ) : ResolvedPath σ :=
  ⟨[.name field.name], some field.types, some field⟩

namespace Change

/-- The first step of the path is the attribute of the outermost document with this name. -/
def startsAt (change : Change σ) (name : String) : Prop :=
  change.target.segments.head? = some (.name name)

/-- The removal is one that assigns the default instead. -/
def restores (change : Change σ) : Bool :=
  match change.request with
  | .remove restores => restores && change.target.topLevel?.any (·.defaultValue.isSome)
  | _ => false

theorem topLevelName?_ofAttribute {path : String} {field : Attribute σ} {request : Request} :
    (⟨path, .ofAttribute field, request⟩ : Change σ).topLevelName? = some field.name := by
  simp [topLevelName?, ResolvedPath.topLevel?, ResolvedPath.isTopLevel, ResolvedPath.ofAttribute]

theorem concerns_of_ofAttribute {change : Change σ} {field : Attribute σ} {name : String}
    (htarget : change.target = .ofAttribute field) :
    change.concerns name = (field.name == name) := by
  obtain ⟨path, target, request⟩ := change
  subst htarget
  rw [concerns, topLevelName?_ofAttribute]
  rfl

theorem concerns_iff_of_ofAttribute {change : Change σ} {field : Attribute σ} {name : String}
    (htarget : change.target = .ofAttribute field) :
    change.concerns name = true ↔ field.name = name := by
  rw [concerns_of_ofAttribute htarget, beq_iff_eq]

/-- A change is one of an attribute as a whole when the name of the attribute is its whole path. -/
theorem concerns_iff_of_lookup {scope : Scope σ} {change : Change σ} {name : String}
    (hlookup : scope.lookup change.path = .ok change.target)
    (hname : ∃ field ∈ scope.root.attributes, field.name = name) :
    change.concerns name = true ↔ change.target.segments = [.name name] := by
  rcases Scope.lookup_cases hlookup with ⟨field, -, htarget⟩ |
    ⟨field, -, segment, rest, hsegments, -⟩ | ⟨other, rest, hsegments, -, hlast, hother⟩
  · rw [concerns_iff_of_ofAttribute htarget]
    simp [htarget]
  · simp [concerns, topLevelName?, ResolvedPath.topLevel?, ResolvedPath.isTopLevel, hsegments]
  · obtain ⟨field, hfield, rfl⟩ := hname
    have hne := hother field hfield
    simp [concerns, topLevelName?, ResolvedPath.topLevel?, hlast, hsegments, Ne.symm hne]

/-- A change that begins with an attribute but is none of it as a whole lies inside it, and then
the attribute is not combined. -/
theorem combine?_eq_none_of_startsAt {scope : Scope σ} {change : Change σ} {field : Attribute σ}
    (hschema : scope.root.WellFormed) (hlookup : scope.lookup change.path = .ok change.target)
    (hfield : field ∈ scope.root.attributes) (hstart : change.startsAt field.name)
    (hinside : change.concerns field.name = false) : field.combine? = none := by
  rcases Scope.lookup_cases hlookup with ⟨other, -, htarget⟩ |
    ⟨other, hother, segment, rest, hsegments, hcombine⟩ | ⟨name, rest, hsegments, -, -, hname⟩
  · have hconcerns : change.concerns field.name = true := by
      rw [concerns_iff_of_ofAttribute htarget]
      simpa [startsAt, htarget] using hstart
    simp [hconcerns] at hinside
  · have hname : other.name = field.name := by simpa [startsAt, hsegments] using hstart
    rwa [← hschema.eq_of_name_eq hother hfield hname]
  · have hfieldName : name = field.name := by simpa [startsAt, hsegments] using hstart
    exact absurd hfieldName.symm (hname field hfield)

/-! ## Preparing changes -/

/-- What preparing a requested change makes of it: assignments and restored defaults assign some
value, and every other change stays what it is. -/
inductive Prepares (requested : Change σ) : Change σ → Prop
  | assigned (value : Value)
      (hrequest : requested.request.assigned?.isSome = true ∨ requested.restores = true) :
      Prepares requested { requested with request := .set value }
  | kept (hrequest : requested.request.assigned? = none) (hrestores : requested.restores = false) :
      Prepares requested requested

namespace Prepares

variable {requested prepared : Change σ}

theorem path_eq (h : Prepares requested prepared) : prepared.path = requested.path := by
  cases h <;> rfl

theorem target_eq (h : Prepares requested prepared) : prepared.target = requested.target := by
  cases h <;> rfl

theorem concerns_eq (h : Prepares requested prepared) (name : String) :
    prepared.concerns name = requested.concerns name := by
  simp [concerns, topLevelName?, h.target_eq]

theorem rewrites_eq (h : Prepares requested prepared) :
    prepared.request.rewrites = requested.request.rewrites := by
  cases h with
  | kept => rfl
  | assigned value hrequest =>
      cases hcase : requested.request <;> simp_all [Request.rewrites, Request.assigned?, restores]

theorem isSome_assigned?_eq (h : Prepares requested prepared) :
    prepared.request.assigned?.isSome =
      (requested.request.assigned?.isSome || requested.restores) := by
  cases h with
  | assigned value hrequest =>
      change true = _
      rcases hrequest with hrequest | hrequest <;> simp [hrequest]
  | kept hrequest hrestores => simp [hrequest, hrestores]

end Prepares

theorem isSome_of_yields_evaluateDefault {now : Instant} {field : Attribute σ}
    {document : Document} {path : String} {before after : σ} {value : Option Value}
    (hrun : Yields (evaluateDefault now field document path) before value after) :
    value.isSome = field.defaultValue.isSome := by
  -- a function of the application may fail, but if it returns there is a default
  unfold evaluateDefault at hrun
  split at hrun <;> rename_i hdefault <;> simp only [hdefault]
  · obtain ⟨rfl, -⟩ := yields_pure.mp hrun
    rfl
  · obtain ⟨rfl, -⟩ := yields_pure.mp hrun
    rfl
  · obtain ⟨_, _, -, hrun⟩ := yields_bind.mp hrun
    obtain ⟨rfl, -⟩ := yields_pure.mp hrun
    rfl
  · obtain ⟨_, _, -, hrun⟩ := yields_bind.mp hrun
    obtain ⟨rfl, -⟩ := yields_pure.mp hrun
    rfl
  · split at hrun
    · obtain ⟨rfl, -⟩ := yields_pure.mp hrun
      rfl
    · simp at hrun

theorem any_concerns_eq {requested prepared : List (Change σ)}
    (hprepares : List.Forall₂ Prepares requested prepared) (name : String) :
    prepared.any (·.concerns name) = requested.any (·.concerns name) := by
  induction hprepares with
  | nil => rfl
  | cons hprepares _ ih => simp only [List.any_cons, hprepares.concerns_eq, ih]

end Change

/-! ### What the rounds assign -/

namespace AttributeOf

/-- Some run of the default of the attribute, given a document, gives the value. -/
def DefaultsTo (field : Attribute σ) (now : Instant) (document : Document) (value : Value) : Prop :=
  ∃ path before after, Yields (evaluateDefault now field document path) before (some value) after

/-- The modifiers of the attribute, if they are run, make one value of another. -/
def ModifiesTo (field : Attribute σ) (options : MarshalOptions) (given value : Value) : Prop :=
  if options.modifiers then
    ∃ path before after, Yields (applyModifiers field.writeModifiers path given) before value after
  else value = given

theorem DefaultsTo.eq_of_literal {field : Attribute σ} {now : Instant} {document : Document}
    {value default : Value} (hvalue : field.DefaultsTo now document value)
    (hdefault : field.defaultValue = some (.literal default)) : value = default := by
  obtain ⟨path, before, after, hrun⟩ := hvalue
  simp only [evaluateDefault, hdefault, yields_pure, Option.some.injEq] at hrun
  exact hrun.1.symm

/-- Where no modifiers run, a value stays what it is. -/
theorem modifiesTo_self {field : Attribute σ} {options : MarshalOptions} {value : Value} (state : σ)
    (hidle : options.modifiers = false ∨ field.writeModifiers = []) :
    field.ModifiesTo options value value := by
  unfold ModifiesTo
  split
  · next hmodifiers =>
      have hnone : field.writeModifiers = [] := by simpa [hmodifiers] using hidle
      rw [hnone]
      exact ⟨"", state, state, yields_pure_self⟩
  · rfl

end AttributeOf

namespace Change

/-- What is to be assigned, once the modifiers have run.  Only the attributes of the outermost
document have any. -/
def ModifiesTo (change : Change σ) (options : MarshalOptions) (given value : Value) : Prop :=
  match change.target.topLevel? with
  | some field => field.ModifiesTo options given value
  | none => value = given

/-- Both rounds of preparing a change succeed. -/
def Rounds (writing : Writing) (current : Document) (requested prepared : Change σ) : Prop :=
  ∃ restored first second third fourth,
    Yields (requested.restoreDefault writing current) first restored second ∧
      Yields (restored.prepare writing) third prepared fourth

theorem rounds_of_yields {writing : Writing} {current : Document}
    {requested restored prepared : List (Change σ)} {first second third fourth : σ}
    (hrestore : Yields (requested.mapM (restoreDefault writing current)) first restored second)
    (hprepare : Yields (restored.mapM (prepare writing)) third prepared fourth) :
    List.Forall₂ (Rounds writing current) requested prepared := by
  have hfirst : List.Forall₂ (fun asked middle : Change σ => ∃ before after,
      Yields (asked.restoreDefault writing current) before middle after) requested restored :=
    Yields.forall₂_mapM (fun _ _ before after hstep => ⟨before, after, hstep⟩) hrestore
  have hsecond : List.Forall₂ (fun middle change : Change σ => ∃ before after,
      Yields (middle.prepare writing) before change after) restored prepared :=
    Yields.forall₂_mapM (fun _ _ before after hstep => ⟨before, after, hstep⟩) hprepare
  refine (forall₂_comp hfirst hsecond).imp ?_
  rintro asked change ⟨middle, ⟨before, between, hmiddle⟩, ⟨later, after, hchange⟩⟩
  exact ⟨middle, before, between, later, after, hmiddle, hchange⟩

/-- A run of the second round modifies what is assigned, and leaves every other change alone. -/
theorem of_yields_prepare {writing : Writing} {change prepared : Change σ} {before after : σ}
    (hrun : Yields (change.prepare writing) before prepared after) :
    (∃ given value, change.request = .set given ∧
      change.ModifiesTo writing.options given value ∧
      prepared = { change with request := .set value }) ∨
    (change.request.assigned? = none ∧ prepared = change) := by
  unfold prepare at hrun
  split at hrun
  case h_1 given field hrequest hfield =>
    obtain ⟨value, middle, hvalue, hrun⟩ := yields_ite_bind.mp hrun
    obtain ⟨-, hrun⟩ := yields_check.mp hrun
    obtain ⟨_, _, -, hrun⟩ := yields_bind.mp hrun
    obtain ⟨rfl, -⟩ := yields_pure.mp hrun
    refine .inl ⟨given, value, hrequest, ?_, rfl⟩
    rw [ModifiesTo, hfield]
    dsimp only [AttributeOf.ModifiesTo]
    cases hmodifiers : writing.options.modifiers with
    | true =>
        rw [if_pos hmodifiers] at hvalue
        exact ⟨change.path, before, middle, hvalue⟩
    | false =>
        rw [if_neg (by simp [hmodifiers])] at hvalue
        exact (yields_pure.mp hvalue).1.symm
  case h_2 hother =>
    obtain ⟨rfl, -⟩ := yields_pure.mp hrun
    cases hrequest : change.request with
    | set given =>
        refine .inl ⟨given, given, rfl, ?_, by rw [← hrequest]⟩
        cases hfield : change.target.topLevel? with
        | some field => exact (hother given field hrequest hfield).elim
        | none => rw [ModifiesTo, hfield]
    | _ => exact .inr ⟨rfl, rfl⟩

/-- A run of the first round lets the default take the place of what is removed, if there is one. -/
theorem of_yields_restoreDefault {writing : Writing} {current : Document}
    {change restored : Change σ} {before after : σ}
    (hrun : Yields (change.restoreDefault writing current) before restored after) :
    (change.restores = false ∧ restored = change) ∨
      ∃ field value, change.restores = true ∧ change.target.topLevel? = some field ∧
        field.DefaultsTo writing.now current value ∧
        restored = { change with request := .set value } := by
  unfold restoreDefault at hrun
  split at hrun
  case h_1 mayRestore field hrequest hfield =>
    obtain ⟨value, middle, hvalue, hrun⟩ := yields_ite_bind.mp hrun
    have hrestores : change.restores = value.isSome := by
      simp only [restores, hrequest, hfield, Option.any_some]
      cases mayRestore with
      | true => simpa using (isSome_of_yields_evaluateDefault hvalue).symm
      | false =>
          obtain ⟨rfl, -⟩ := yields_pure.mp hvalue
          rfl
    cases value with
    | some value =>
        obtain ⟨rfl, -⟩ := yields_pure.mp hrun
        refine .inr ⟨field, value, hrestores, hfield, ?_, rfl⟩
        split at hvalue
        · exact ⟨change.path, before, middle, hvalue⟩
        · cases (yields_pure.mp hvalue).1
    | none =>
        dsimp only at hrun
        split at hrun
        · simp at hrun
        · obtain ⟨rfl, -⟩ := yields_pure.mp hrun
          exact .inl ⟨hrestores, rfl⟩
  case h_2 hother =>
    obtain ⟨rfl, -⟩ := yields_pure.mp hrun
    refine .inl ⟨?_, rfl⟩
    unfold restores
    split
    case h_1 mayRestore hrequest =>
      cases hfield : change.target.topLevel? with
      | none => simp
      | some field => exact absurd hfield (hother mayRestore field hrequest)
    case h_2 => rfl

/-- What both rounds make of a change: what is assigned is modified, and so is the default that takes
the place of what is removed.  Every other change stays what it is. -/
theorem Rounds.cases {writing : Writing} {current : Document} {requested prepared : Change σ}
    (hrounds : requested.Rounds writing current prepared) :
    (∃ given value, requested.request = .set given ∧
      requested.ModifiesTo writing.options given value ∧
      prepared = { requested with request := .set value }) ∨
    (∃ field given value, requested.restores = true ∧
      requested.target.topLevel? = some field ∧ field.DefaultsTo writing.now current given ∧
      field.ModifiesTo writing.options given value ∧
      prepared = { requested with request := .set value }) ∨
    (requested.request.assigned? = none ∧ requested.restores = false ∧ prepared = requested) := by
  obtain ⟨restored, _, _, _, _, hrestore, hprepare⟩ := hrounds
  rcases of_yields_restoreDefault hrestore with ⟨hrestores, rfl⟩ |
    ⟨field, given, hrestores, hfield, hdefault, rfl⟩
  · rcases of_yields_prepare hprepare with hassigned | ⟨hrequest, rfl⟩
    · exact .inl hassigned
    · exact .inr (.inr ⟨hrequest, hrestores, rfl⟩)
  -- a restored default is an assignment already when the second round looks at it
  · rcases of_yields_prepare hprepare with ⟨_, value, hrequest, hvalue, rfl⟩ | ⟨hrequest, -⟩
    · obtain rfl := Request.set.inj hrequest
      rw [ModifiesTo, hfield] at hvalue
      exact .inr (.inl ⟨field, given, value, hrestores, hfield, hdefault, hvalue, rfl⟩)
    · cases hrequest

theorem Rounds.prepares {writing : Writing} {current : Document} {requested prepared : Change σ}
    (hrounds : requested.Rounds writing current prepared) : requested.Prepares prepared := by
  rcases hrounds.cases with ⟨given, value, hrequest, -, rfl⟩ |
    ⟨field, given, value, hrestores, -, -, -, rfl⟩ | ⟨hrequest, hrestores, rfl⟩
  · exact .assigned value (.inl (by simp [hrequest, Request.assigned?]))
  · exact .assigned value (.inr hrestores)
  · exact .kept hrequest hrestores

/-- Both rounds together prepare each requested change. -/
theorem prepares_of_yields {writing : Writing} {current : Document}
    {requested restored prepared : List (Change σ)} {first second third fourth : σ}
    (hrestore : Yields (requested.mapM (restoreDefault writing current)) first restored second)
    (hprepare : Yields (restored.mapM (prepare writing)) third prepared fourth) :
    List.Forall₂ Prepares requested prepared :=
  (rounds_of_yields hrestore hprepare).imp fun _ _ => Rounds.prepares

end Change

end ItemMapper
