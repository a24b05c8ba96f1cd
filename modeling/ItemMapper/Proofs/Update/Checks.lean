import ItemMapper.Proofs.Update.Keys

/-!
# What an update checks

Attributes restrict their values by lists of allowed ones and by validators.  An update runs these
checks once, while it prepares its changes: a value that is to become an attribute of the outermost
document is checked, whether it was given or is the default that a removal restores.
`Change.of_yields_prepare_checks` says so of one change, and `checked_of_yields` of all of them.

The check is over when the other assignments come about, and it looks at the outermost document
only.  So nothing is known of what is assigned inside an attribute, of the items that make a new
list, of forced defaults, of the time and of the texts of combined attributes.  These are the
*unchecked* changes (`Scope.Unchecked`), and `Mapper.update_sound_iff` says that they are all: the
assignments of an update pass the checks of their attributes exactly when the unchecked ones do.
-/

namespace ItemMapper

variable {σ : Type}

open Pipeline

/-! ## What a check establishes -/

namespace Validator

/-- The answer depends on nothing but the value, and the state of the application stays the same. -/
def Pure (validator : Validator σ) : Prop :=
  ∀ value, ∃ passed, ∀ state, Id.run ((validator.check value).run state) = (passed, state)

/-- The value passes, whatever the state of the application is. -/
def Accepts (validator : Validator σ) (value : Value) : Prop :=
  ∀ state, (Id.run ((validator.check value).run state)).1 = true

/-- A pure validator that lets a value pass once always does. -/
theorem Pure.accepts {validator : Validator σ} {value : Value} {before after : σ}
    (hpure : validator.Pure) (hpassed : Id.run ((validator.check value).run before) = (true, after)) :
    validator.Accepts value := by
  obtain ⟨passed, hcheck⟩ := hpure value
  have htrue : passed = true := by
    rw [hcheck before] at hpassed
    exact congrArg Prod.fst hpassed
  intro state
  rw [hcheck state, htrue]

end Validator

namespace AttributeOf

/-- The value is an allowed one, if the attribute lists those, and its validator accepts it. -/
structure Admits (field : Attribute σ) (value : Value) : Prop where
  allowed : ∀ allowed, field.allowed = some allowed → allowed.any (· == value) = true
  accepted : ∀ validator, field.validator = some validator → validator.Accepts value

/-- The validator of the attribute, if it has one, is pure. -/
def ChecksPurely (field : Attribute σ) : Prop :=
  ∀ validator, field.validator = some validator → validator.Pure

end AttributeOf

theorem Pipeline.yields_liftM {α : Type} {step : StateM σ α} {value : α} {before after : σ} :
    Yields (liftM step : Pipeline σ α) before value after ↔
      Id.run (step.run before) = (value, after) := by
  have hrun : Id.run ((ExceptT.run (liftM step : Pipeline σ α)).run before) =
      (.ok (Id.run (step.run before)).1, (Id.run (step.run before)).2) := rfl
  rw [Yields, hrun, Prod.ext_iff, Prod.ext_iff, Except.ok.injEq]

/-- A check that lets a value pass establishes what the attribute asks of it. -/
theorem admits_of_yields_checkValue {options : MarshalOptions} {field : Attribute σ} {value : Value}
    {path : String} {before after : σ} {result : Unit} (henum : options.enumCheck = true)
    (hvalidate : options.validate = true) (hpure : field.ChecksPurely)
    (hrun : Yields (checkValue options field value path) before result after) :
    field.Admits value := by
  unfold checkValue at hrun
  simp only [henum, hvalidate, if_true] at hrun
  -- first the list of allowed values, where there is one
  obtain ⟨hallowed, hrun⟩ : (∀ allowed, field.allowed = some allowed →
      allowed.any (· == value) = true) ∧
      Yields (checkValue { options with enumCheck := false } field value path) before result
        after := by
    cases hallowed : field.allowed with
    | none =>
        simp only [hallowed] at hrun
        exact ⟨by simp, by simpa [checkValue, hvalidate] using hrun⟩
    | some allowed =>
        simp only [hallowed] at hrun
        obtain ⟨hmember, hrun⟩ := yields_check.mp hrun
        refine ⟨?_, by simpa [checkValue, hvalidate] using hrun⟩
        rintro _ ⟨⟩
        simpa using hmember
  refine ⟨hallowed, fun validator hvalidator => ?_⟩
  simp only [checkValue, hvalidate, hvalidator, if_true] at hrun
  obtain ⟨passed, _, hcheck, hrun⟩ := yields_bind.mp hrun
  have hpassed : passed = true := by
    cases passed with
    | true => rfl
    | false => simp at hrun
  rw [hpassed, yields_liftM] at hcheck
  exact (hpure validator hvalidator).accepts hcheck

/-! ## Declared attributes at the end of a path -/

/-- The declared attribute that a path leads to, unless it leads on to an item of a list. -/
def ResolvedPath.attribute? (path : ResolvedPath σ) : Option (Attribute σ) :=
  match path.segments.getLast? with
  | some (.name _) => path.types.bind fun _ => path.last
  | _ => none

namespace ResolvedPath

variable {path : ResolvedPath σ} {field : Attribute σ}

theorem last_eq_of_attribute? (hfield : path.attribute? = some field) : path.last = some field := by
  unfold attribute? at hfield
  split at hfield
  · obtain ⟨_, -, hlast⟩ := Option.bind_eq_some_iff.mp hfield
    exact hlast
  · simp at hfield

theorem last_eq_of_topLevel? (hfield : path.topLevel? = some field) : path.last = some field := by
  unfold topLevel? at hfield
  split at hfield
  · exact hfield
  · simp at hfield

end ResolvedPath

/-- Following a path keeps the last segment and the types in step with the last attribute. -/
theorem PathPosition.of_follow_attribute? {path : String} {field : Attribute σ} :
    ∀ {parts : List String} {position : PathPosition σ} {segments : List Segment}
      {last : Option (Attribute σ)} {target : ResolvedPath σ},
      ((⟨segments, position.types?, last⟩ : ResolvedPath σ).attribute? = some field →
        segments.getLast? = some (.name field.name) ∧ position.types? = some field.types) →
      follow path parts position segments last = .ok target → target.attribute? = some field →
      target.segments.getLast? = some (.name field.name) ∧ target.types = some field.types := by
  intro parts
  induction parts with
  | nil =>
      intro position segments last target hstart hfollow hfield
      obtain rfl := Except.ok.inj hfollow
      exact hstart hfield
  | cons part rest ih =>
      intro position segments last target _ hfollow hfield
      -- the way goes on from a declared attribute, from an item of a list, or is not declared
      have hdeclared : ∀ {scope : Scope σ} {place : Place} {next : Attribute σ},
          follow path rest (.value scope place next.types) (segments ++ [.name next.name])
            (some next) = .ok target →
          target.segments.getLast? = some (.name field.name) ∧ target.types = some field.types := by
        intro scope place next hfollow
        refine ih (fun hnext => ?_) hfollow hfield
        obtain rfl : next = field := by
          simpa using ResolvedPath.last_eq_of_attribute? hnext
        simp [types?]
      have hundeclared : (⟨undeclared segments (part :: rest), none, last⟩ : ResolvedPath σ) ≠
          target := by
        rintro rfl
        unfold ResolvedPath.attribute? at hfield
        split at hfield <;> simp at hfield
      simp only [follow] at hfollow
      split at hfollow
      · simp at hfollow
      · split at hfollow
        case h_1 frame =>
          split at hfollow
          · exact hdeclared hfollow
          · split at hfollow
            · exact absurd (Except.ok.inj hfollow) hundeclared
            · simp at hfollow
        case h_2 scope place types =>
          split at hfollow
          · split at hfollow
            · simp at hfollow
            · exact ih (fun hindex => by simp [ResolvedPath.attribute?] at hindex) hfollow hfield
          · split at hfollow
            · split at hfollow
              · exact hdeclared hfollow
              · split at hfollow
                · exact absurd (Except.ok.inj hfollow) hundeclared
                · simp at hfollow
            · simp at hfollow

/-- The last segment of a path to a declared attribute is the stored name of the attribute, and the
types at its end are those of the attribute. -/
theorem Scope.of_lookup_attribute? {scope : Scope σ} {path : String} {target : ResolvedPath σ}
    {field : Attribute σ} (hlookup : scope.lookup path = .ok target)
    (hfield : target.attribute? = some field) :
    target.segments.getLast? = some (.name field.name) ∧ target.types = some field.types :=
  PathPosition.of_follow_attribute? (fun hstart => by simp [ResolvedPath.attribute?] at hstart)
    hlookup hfield

/-! ## Assignments -/

namespace Change

/-- The value that an action assigns for a change.  An attribute that is known to have no items is
assigned the list of those that the change adds. -/
def written? (change : Change σ) (action : Action) : Option Value :=
  match action, change.request with
  | .set _ _, .set value => some value
  | .set _ _, .add value => some (.list value.members)
  | _, _ => none

/-- What the action assigns to a declared attribute passes the checks of the attribute. -/
def Sound (change : Change σ) (action : Action) : Prop :=
  ∀ field value, change.target.attribute? = some field → change.written? action = some value →
    field.Admits value

/-- The change assigns a value to an attribute of the outermost document, and it is known to pass
the checks of the attribute. -/
def Checked (change : Change σ) : Prop :=
  ∃ field value, change.target.topLevel? = some field ∧ change.request = .set value ∧
    field.Admits value

/-- A change that the checks do not look at. -/
def PassesBy (change : Change σ) : Prop :=
  change.target.topLevel? = none ∨ change.request.assigned? = none

theorem Checked.sound {change : Change σ} (hchecked : change.Checked) (action : Action) :
    change.Sound action := by
  obtain ⟨field, value, htop, hrequest, hadmits⟩ := hchecked
  intro other written hother hwritten
  have hfield : field = other := by
    have hlast := ResolvedPath.last_eq_of_topLevel? htop
    rw [ResolvedPath.last_eq_of_attribute? hother] at hlast
    exact (Option.some.inj hlast).symm
  have hvalue : value = written := by
    unfold written? at hwritten
    split at hwritten <;> simp_all
  rwa [← hfield, ← hvalue]

/-! ### Preparing changes -/

/-- The second round of preparing checks what is assigned to the outermost document, and leaves the
other changes alone. -/
theorem of_yields_prepare_checks {writing : Writing} {change prepared : Change σ} {before after : σ}
    (henum : writing.options.enumCheck = true) (hvalidate : writing.options.validate = true)
    (hpure : ∀ field, change.target.topLevel? = some field → field.ChecksPurely)
    (hrun : Yields (change.prepare writing) before prepared after) :
    prepared.Checked ∨ prepared = change ∧ change.PassesBy := by
  unfold prepare at hrun
  split at hrun
  case h_1 given field hrequest hfield =>
    obtain ⟨value, middle, -, hrun⟩ := yields_ite_bind.mp hrun
    obtain ⟨-, hrun⟩ := yields_check.mp hrun
    obtain ⟨_, _, hcheck, hrun⟩ := yields_bind.mp hrun
    obtain ⟨rfl, -⟩ := yields_pure.mp hrun
    exact .inl ⟨field, value, hfield, rfl,
      admits_of_yields_checkValue henum hvalidate (hpure field hfield) hcheck⟩
  case h_2 hother =>
    obtain ⟨rfl, -⟩ := yields_pure.mp hrun
    refine .inr ⟨rfl, ?_⟩
    unfold PassesBy
    cases htop : change.target.topLevel? with
    | none => exact .inl rfl
    | some field =>
        refine .inr ?_
        cases hrequest : change.request with
        | set value => exact (hother value field hrequest htop).elim
        | _ => rfl

/-- The first round of preparing touches attributes of the outermost document only, and makes
assignments of their removals. -/
theorem of_yields_restoreDefault_passesBy {writing : Writing} {current : Document}
    {change restored : Change σ} {before after : σ}
    (hrun : Yields (change.restoreDefault writing current) before restored after) :
    restored = change ∨
      restored.target = change.target ∧ ¬ restored.PassesBy := by
  unfold restoreDefault at hrun
  split at hrun
  case h_1 mayRestore field hrequest hfield =>
    obtain ⟨value, middle, -, hrun⟩ := yields_ite_bind.mp hrun
    cases value with
    | some value =>
        obtain ⟨rfl, -⟩ := yields_pure.mp hrun
        exact .inr ⟨rfl, by simp [PassesBy, hfield, Request.assigned?]⟩
    | none =>
        dsimp only at hrun
        split at hrun
        · simp at hrun
        · obtain ⟨rfl, -⟩ := yields_pure.mp hrun
          exact .inl rfl
  case h_2 =>
    obtain ⟨rfl, -⟩ := yields_pure.mp hrun
    exact .inl rfl

/-- Both rounds together: what is not checked is a change as it was requested. -/
theorem Rounds.checked {writing : Writing} {current : Document} {asked change : Change σ}
    (henum : writing.options.enumCheck = true) (hvalidate : writing.options.validate = true)
    (hpure : ∀ field, asked.target.topLevel? = some field → field.ChecksPurely)
    (hrounds : asked.Rounds writing current change) :
    change.Checked ∨ change = asked ∧ change.PassesBy := by
  obtain ⟨middle, _, _, _, _, hrestore, hprepare⟩ := hrounds
  have hrestored := of_yields_restoreDefault_passesBy hrestore
  have htarget : middle.target = asked.target := by
    rcases hrestored with rfl | ⟨htarget, -⟩
    · rfl
    · exact htarget
  rcases of_yields_prepare_checks henum hvalidate (htarget ▸ hpure) hprepare with
    hchecked | ⟨rfl, hpasses⟩
  · exact .inl hchecked
  · rcases hrestored with rfl | ⟨-, hrestored⟩
    · exact .inr ⟨rfl, hpasses⟩
    · exact absurd hpasses hrestored

end Change

namespace Scope

variable {scope : Scope σ} {writing : Writing} {current update : Document}
  {requested prepared changes : List (Change σ)}

/-! ### Derived changes -/

/-- The update makes the change without being asked to: it assigns a forced default or the time, or
it lets a combined attribute follow its sources. -/
inductive Derives (scope : Scope σ) (writing : Writing) : Change σ → Prop
  | forcedDefault {field : Attribute σ} {target : ResolvedPath σ} (value : Value)
      (hfield : field ∈ scope.root.attributes)
      (hforce : writing.options.forceDefaults = true ∧ field.forceDefault = true)
      (hlookup : scope.lookup field.nativeName = .ok target) :
      Derives scope writing ⟨field.nativeName, target, .set value⟩
  | time {name : String} {target : ResolvedPath σ}
      (hname : scope.root.timestamps.bind Timestamps.updatedAt = some name)
      (hstamps : writing.options.timestamps ≠ .off)
      (hlookup : scope.lookup name = .ok target) :
      Derives scope writing ⟨name, target, .set (.date writing.now)⟩
  | combined {field : Attribute σ} {target : ResolvedPath σ} (request : Request)
      (hfield : field ∈ scope.root.attributes)
      (hcombine : writing.options.combine = true ∧ field.combine?.isSome = true)
      (hrequest : request = .remove false ∨ ∃ text, request = .set (.string text))
      (hlookup : scope.lookup field.nativeName = .ok target) :
      Derives scope writing ⟨field.nativeName, target, request⟩

theorem lookup_of_derives {change : Change σ} (hderives : scope.Derives writing change) :
    scope.lookup change.path = .ok change.target := by
  cases hderives with
  | forcedDefault _ _ _ hlookup => exact hlookup
  | time _ _ hlookup => exact hlookup
  | combined _ _ _ _ hlookup => exact hlookup

theorem of_assign {path : String} {value : Value} {change : Change σ}
    (hassign : scope.assign path value = .ok change) :
    ∃ target, scope.lookup path = .ok target ∧ change = ⟨path, target, .set value⟩ := by
  simp only [assign, Except.bind_eq_ok, Except.pure_eq_ok] at hassign
  obtain ⟨target, hlookup, rfl⟩ := hassign
  exact ⟨target, hlookup, rfl⟩

theorem derives_of_forcedDefault? {field : Attribute σ} {change : Change σ} {before after : σ}
    (hfield : field ∈ scope.root.attributes) (hforce : writing.options.forceDefaults = true)
    (hrun : Yields (scope.forcedDefault? writing current requested field) before (some change)
      after) : scope.Derives writing change := by
  unfold forcedDefault? at hrun
  split at hrun
  case isTrue => simp at hrun
  case isFalse hkeep =>
    obtain ⟨value, _, -, hrun⟩ := yields_bind.mp hrun
    cases value with
    | none => simp at hrun
    | some value =>
        obtain ⟨given, _, hgiven, hrun⟩ := yields_bind.mp hrun
        obtain ⟨hgivenEq, -⟩ := yields_pure.mp hrun
        obtain rfl := Option.some.inj hgivenEq
        obtain ⟨target, hlookup, rfl⟩ := of_assign (yields_ofExcept.mp hgiven).1
        refine .forcedDefault value hfield ⟨hforce, ?_⟩ hlookup
        simp only [Bool.or_eq_true, Bool.not_eq_true', not_or, Bool.not_eq_false] at hkeep
        exact hkeep.1.1

theorem derives_of_updateTime? {change : Change σ}
    (hrun : scope.updateTime? writing requested = .ok (some change)) :
    scope.Derives writing change := by
  unfold updateTime? at hrun
  split at hrun
  case h_1 => simp at hrun
  case h_2 name hname =>
    split at hrun
    case isTrue => simp at hrun
    case isFalse hon =>
      simp only [Except.bind_eq_ok, Except.pure_eq_ok, Option.some.injEq] at hrun
      obtain ⟨_, hassign, rfl⟩ := hrun
      obtain ⟨target, hlookup, rfl⟩ := of_assign hassign
      simp only [Bool.or_eq_true, decide_eq_true_eq, not_or] at hon
      exact .time hname hon.1 hlookup

/-- A combined attribute that follows the changes adds none but its own, which is removed or gets a
text. -/
theorem of_recombine {field : Attribute σ} {after : List (Change σ)}
    (hrun : scope.recombine current changes field = .ok after) {change : Change σ}
    (hchange : change ∈ after) :
    change ∈ changes ∨ ∃ target request, field.combine?.isSome = true ∧
      scope.lookup field.nativeName = .ok target ∧
      (request = .remove false ∨ ∃ text, request = .set (.string text)) ∧
      change = ⟨field.nativeName, target, request⟩ := by
  unfold recombine at hrun
  split at hrun
  case h_1 =>
    obtain rfl := Except.ok.inj hrun
    exact .inl hchange
  case h_2 sources separator hsources =>
    have hsome : field.combine?.isSome = true := by rw [hsources, Option.isSome_some]
    dsimp only at hrun
    split at hrun
    case isTrue =>
      obtain rfl := Except.ok.inj hrun
      exact .inl hchange
    case isFalse =>
      -- the changes of the others stay, and the last one is that of the attribute
      suffices hlast : ∃ target request, scope.lookup field.nativeName = .ok target ∧
          (request = .remove false ∨ ∃ text, request = .set (.string text)) ∧
          after = (changes.filter fun other => !other.concerns field.name) ++
            [⟨field.nativeName, target, request⟩] by
        obtain ⟨target, request, hlookup, hrequest, rfl⟩ := hlast
        rcases List.mem_append.mp hchange with hchange | hchange
        · exact .inl (List.mem_filter.mp hchange).1
        · exact .inr ⟨target, request, hsome, hlookup, hrequest, List.mem_singleton.mp hchange⟩
      split at hrun
      case isTrue =>
        simp only [Except.bind_eq_ok, Except.pure_eq_ok] at hrun
        obtain ⟨target, hlookup, rfl⟩ := hrun
        exact ⟨target, _, hlookup, .inl rfl, rfl⟩
      case isFalse =>
        split at hrun
        case isTrue => simp at hrun
        case isFalse =>
          simp only [Except.bind_eq_ok, Except.pure_eq_ok] at hrun
          obtain ⟨text, -, change, hassign, rfl⟩ := hrun
          obtain ⟨target, hlookup, rfl⟩ := of_assign hassign
          exact ⟨target, _, hlookup, .inr ⟨text, rfl⟩, rfl⟩

/-- What holds of the prepared changes, of each forced default and of the time holds of all changes
of an update, if the changes of combined attributes keep to it. -/
theorem of_yields_allChanges {property : Change σ → Prop} {before after : σ}
    (hrun : Yields (scope.allChanges writing current prepared) before changes after)
    (hprepared : ∀ change ∈ prepared, property change)
    (hforced : writing.options.forceDefaults = true → ∀ field ∈ scope.root.attributes,
      ∀ first change last,
        Yields (scope.forcedDefault? writing current prepared field) first (some change) last →
          property change)
    (htimed : ∀ change, scope.updateTime? writing prepared = .ok (some change) → property change)
    (hcombined : writing.options.combine = true → ∀ field ∈ scope.root.attributes,
      ∀ target request, field.combine?.isSome = true → scope.lookup field.nativeName = .ok target →
        (request = .remove false ∨ ∃ text, request = .set (.string text)) →
          property ⟨field.nativeName, target, request⟩) :
    ∀ change ∈ changes, property change := by
  unfold allChanges at hrun
  obtain ⟨defaults, _, hdefaults, hrun⟩ := yields_ite_bind.mp hrun
  obtain ⟨time, _, htime, hrun⟩ := yields_bind.mp hrun
  -- before the combined attributes follow
  have hearlier : ∀ change ∈ prepared ++ defaults.filterMap id ++ time.toList, property change := by
    intro change hchange
    simp only [List.mem_append, List.mem_filterMap, id_eq, exists_eq_right, Option.mem_toList]
      at hchange
    rcases hchange with (hmember | hdefault) | hstamp
    · exact hprepared change hmember
    · split at hdefaults
      case isTrue hforce =>
        have hmade : List.Forall₂ (fun field made => ∃ first last,
            Yields (scope.forcedDefault? writing current prepared field) first made last)
            scope.root.attributes defaults :=
          Yields.forall₂_mapM (fun _ _ first last hstep => ⟨first, last, hstep⟩) hdefaults
        obtain ⟨field, hfield, first, last, hstep⟩ := exists_related_right hmade hdefault
        exact hforced hforce field hfield first change last hstep
      case isFalse =>
        obtain ⟨rfl, -⟩ := yields_pure.mp hdefaults
        simp at hdefault
    · subst hstamp
      exact htimed change (yields_ofExcept.mp htime).1
  dsimp only at hrun
  split at hrun
  case isFalse =>
    obtain ⟨rfl, -⟩ := yields_pure.mp hrun
    exact hearlier
  case isTrue hcombine =>
    have hstep : ∀ field ∈ scope.root.attributes, ∀ given next, (∀ change ∈ given, property change) →
        scope.recombine current given field = .ok next → ∀ change ∈ next, property change := by
      intro field hfield given next hgiven hnext change hchange
      rcases of_recombine hnext hchange with
        hkept | ⟨target, request, hsome, hlookup, hrequest, rfl⟩
      · exact hgiven change hkept
      · exact hcombined hcombine field hfield target request hsome hlookup hrequest
    exact Except.of_foldlM hstep hearlier (yields_ofExcept.mp hrun).1

/-- All changes of an update are prepared or derived ones. -/
theorem derives_of_yields_allChanges {before after : σ}
    (hrun : Yields (scope.allChanges writing current prepared) before changes after) :
    ∀ change ∈ changes, change ∈ prepared ∨ scope.Derives writing change := by
  refine of_yields_allChanges hrun (fun change hchange => .inl hchange) ?_ ?_ ?_
  · exact fun hforce field hfield _ _ _ hstep => .inr (derives_of_forcedDefault? hfield hforce hstep)
  · exact fun change htime => .inr (derives_of_updateTime? htime)
  · exact fun hcombine field hfield _ request hsome hlookup hrequest =>
      .inr (.combined request hfield ⟨hcombine, hsome⟩ hrequest hlookup)

/-- Every change of an update stands where its path leads, and comes from a requested change in both
rounds, or is a derived one. -/
theorem rounds_or_derived {actions : List Action} {before after : σ}
    (hrun : Yields (scope.updateActions writing current update) before actions after) :
    ∃ requested changes, scope.requestedChanges update = .ok requested ∧
      List.Forall₂ (Change.Stores scope writing current) changes actions ∧
      ∀ change ∈ changes, scope.lookup change.path = .ok change.target ∧
        ((∃ asked ∈ requested, asked.Rounds writing current change) ∨
          scope.Derives writing change) := by
  unfold updateActions at hrun
  obtain ⟨requested, _, hrequests, hrun⟩ := yields_bind.mp hrun
  obtain ⟨hrequested, rfl⟩ := yields_ofExcept.mp hrequests
  obtain ⟨restored, _, hrestored, hrun⟩ := yields_bind.mp hrun
  obtain ⟨prepared, _, hprepared, hrun⟩ := yields_bind.mp hrun
  obtain ⟨changes, _, hchanges, hactions⟩ := yields_bind.mp hrun
  refine ⟨requested, changes, hrequested, Yields.forall₂_mapM (fun _ _ first last haction =>
    ⟨first, last, haction⟩) hactions, fun change hchange => ?_⟩
  rcases derives_of_yields_allChanges hchanges change hchange with hmember | hderives
  · obtain ⟨asked, hasked, hrounds⟩ :=
      exists_related_right (Change.rounds_of_yields hrestored hprepared) hmember
    refine ⟨?_, .inl ⟨asked, hasked, hrounds⟩⟩
    rw [hrounds.prepares.path_eq, hrounds.prepares.target_eq]
    exact (of_requestedChanges hrequested asked hasked).1
  · exact ⟨lookup_of_derives hderives, .inr hderives⟩

/-! ## All assignments -/

theorem mem_of_topLevel? {path : String} {target : ResolvedPath σ} {field : Attribute σ}
    (hlookup : scope.lookup path = .ok target) (hfield : target.topLevel? = some field) :
    field ∈ scope.root.attributes := by
  have hlast := ResolvedPath.last_eq_of_topLevel? hfield
  rcases lookup_cases hlookup with ⟨other, hother, rfl⟩ |
    ⟨_, -, segment, rest, hsegments, -⟩ | ⟨_, _, -, -, hnone, -⟩
  · obtain rfl := Option.some.inj hlast
    exact hother
  · simp [ResolvedPath.topLevel?, ResolvedPath.isTopLevel, hsegments] at hfield
  · simp [hnone] at hlast

/-- Nothing looks at what the change assigns.  Either it was requested, but is not an assignment to
the outermost document, or it was not requested at all. -/
def Unchecked (scope : Scope σ) (writing : Writing) (requested : List (Change σ))
    (change : Change σ) : Prop :=
  change ∈ requested ∧ change.PassesBy ∨ scope.Derives writing change

/-- Every change of an update is checked or unchecked. -/
theorem checked_or_unchecked {actions : List Action} {before after : σ}
    (henum : writing.options.enumCheck = true) (hvalidate : writing.options.validate = true)
    (hpure : ∀ field ∈ scope.root.attributes, field.ChecksPurely)
    (hrun : Yields (scope.updateActions writing current update) before actions after) :
    ∃ requested changes, scope.requestedChanges update = .ok requested ∧
      List.Forall₂ (Change.Stores scope writing current) changes actions ∧
      ∀ change ∈ changes, change.Checked ∨ scope.Unchecked writing requested change := by
  obtain ⟨requested, changes, hrequested, hstores, hall⟩ := rounds_or_derived hrun
  refine ⟨requested, changes, hrequested, hstores, fun change hchange => ?_⟩
  rcases (hall change hchange).2 with ⟨asked, hasked, hrounds⟩ | hderives
  · have hlookup := (of_requestedChanges hrequested asked hasked).1
    rcases hrounds.checked henum hvalidate
      (fun field hfield => hpure field (mem_of_topLevel? hlookup hfield)) with hchecked | ⟨rfl, hpasses⟩
    · exact .inl hchecked
    · exact .inr (.inl ⟨hasked, hpasses⟩)
  · exact .inr (.inr hderives)

end Scope

/-- If the validators of the outermost document are pure and both checks are on, then what an update
assigns to declared attributes, at whatever depth, passes the checks of these attributes exactly
when the unchecked changes see to it by themselves. -/
theorem Mapper.update_sound_iff {mapper : Mapper σ} {writing : Writing} {current update : Document}
    {before after : σ} {compiled : CompiledExpression}
    (hpure : ∀ field ∈ mapper.model.schema.attributes, field.ChecksPurely)
    (henum : writing.options.enumCheck = true) (hvalidate : writing.options.validate = true)
    (hrun : Yields (mapper.update writing current update) before compiled after) :
    ∃ requested changes actions, mapper.scope.requestedChanges update = .ok requested ∧
      List.Forall₂ (Change.Stores mapper.scope writing current) changes actions ∧
      compiled = .ofPieces (Action.updatePieces actions) ∧
      ((∀ pair ∈ changes.zip actions, pair.1.Sound pair.2) ↔
        ∀ pair ∈ changes.zip actions, mapper.scope.Unchecked writing requested pair.1 →
          pair.1.Sound pair.2) := by
  obtain ⟨actions, hactions, hcompiled⟩ := Mapper.actions_of_yields_update hrun
  obtain ⟨requested, changes, hrequested, hstores, hall⟩ :=
    Scope.checked_or_unchecked henum hvalidate hpure hactions
  refine ⟨requested, changes, actions, hrequested, hstores, hcompiled,
    fun hsound pair hpair _ => hsound pair hpair, fun hsound pair hpair => ?_⟩
  rcases hall pair.1 (List.of_mem_zip hpair).1 with hchecked | hunchecked
  · exact hchecked.sound pair.2
  · exact hsound pair hpair hunchecked

/-! ## A contact and its home -/

/-- A home is a flat or a house. -/
def SchemaOf.contact : Schema Unit where
  attributes := [.plain "id" [.primitive .string], .plain "home" [.object {
    attributes := [{ AttributeOf.plain "kind" [.primitive .string] with
      allowed := some [.string "flat", .string "house"] }]
    keepUnknown := .disabled
    timestamps := none }]]
  keepUnknown := .disabled
  timestamps := none

/-- The mapper of the only model, which has the schema `SchemaOf.contact`. -/
def Mapper.contact : Mapper Unit :=
  ⟨⟨[⟨"Contact", .contact, none⟩]⟩, ⟨"Contact", .contact, none⟩⟩

/-- A home of another kind is refused as a whole, but assigned if the path leads to its kind. -/
theorem Mapper.update_sets_unlisted_kind :
    (.save : MarshalOptions).enumCheck = true ∧ (.save : MarshalOptions).validate = true ∧
    (contact.update ⟨.save, .epoch, 0⟩ [] [("home", .map [("kind", .string "tent")])]).value? =
      none ∧
    Yields (contact.update ⟨.save, .epoch, 0⟩ [] [("home.kind", .string "tent")]) ()
      ⟨"SET #a0.#a1 = :v0", [("#a0", "home"), ("#a1", "kind")], [(":v0", .string "tent")]⟩ () ∧
    ∃ target field, contact.scope.lookup "home.kind" = .ok target ∧
      target.segments = [.name "home", .name "kind"] ∧ target.attribute? = some field ∧
      ¬ field.Admits (.string "tent") := by
  refine ⟨rfl, rfl, by decide +kernel, yields_of_value? (by decide +kernel), _, _, rfl, rfl, rfl, ?_⟩
  intro hadmits
  exact absurd (hadmits.allowed _ rfl) (by decide)

theorem Mapper.update_sound_iff_contact :
    (∀ field ∈ contact.model.schema.attributes, field.ChecksPurely) ∧
    ∃ requested changes actions,
      contact.scope.requestedChanges [("home.kind", .string "flat")] = .ok requested ∧
      List.Forall₂ (Change.Stores contact.scope ⟨.save, .epoch, 0⟩ []) changes actions ∧
      ⟨"SET #a0.#a1 = :v0", [("#a0", "home"), ("#a1", "kind")], [(":v0", .string "flat")]⟩ =
        CompiledExpression.ofPieces (Action.updatePieces actions) ∧
      ((∀ pair ∈ changes.zip actions, pair.1.Sound pair.2) ↔
        ∀ pair ∈ changes.zip actions,
          contact.scope.Unchecked ⟨.save, .epoch, 0⟩ requested pair.1 → pair.1.Sound pair.2) := by
  have hpure : ∀ field ∈ contact.model.schema.attributes, field.ChecksPurely := by
    rintro field (_ | ⟨_, _ | ⟨_, ⟨⟩⟩⟩) validator hvalidator <;> cases hvalidator
  exact ⟨hpure, update_sound_iff hpure rfl rfl (yields_of_value? (by decide +kernel))⟩

end ItemMapper
