import ItemMapper.Mapper
import ItemMapper.Proofs.Agreement
import ItemMapper.Proofs.Plain.Assignments
import ItemMapper.Proofs.Reading.Documents
import ItemMapper.Proofs.Saving.Stages

/-!
# Two forms of an update

The values of an update stand under the paths of the attributes, or all of them in the bucket of
assignments.  In the first form the undefined value asks for a removal; in the second it is assigned
like any other value, and the attribute is removed because nothing is stored of it.  On the way it
meets the modifiers and checks of its attribute, which a removal does not, and it counts as assigned
where combined attributes look at their sources.

`Mapper.bucket_agrees`: the two forms are interchangeable where modifiers and checks let undefined
values pass (`AttributeOf.LetsPass`) and no combined attribute is involved, and always where no value
is undefined.  The changes of the two forms are compared one by one (`Change.Counterpart`) through all
stages of an update.
-/

namespace ItemMapper

variable {σ α β : Type}

open Pipeline

/-! ## Undefined values -/

/-- The attribute that a path leads to, if it is one of the outermost document. -/
def Scope.attributeAt? (scope : Scope σ) (path : String) : Option (Attribute σ) :=
  (scope.lookup path).toOption.bind ResolvedPath.topLevel?

/-- The attribute with this name is combined, or a source of a combined one. -/
def SchemaOf.Involves (schema : Schema σ) (name : String) : Prop :=
  ∃ field ∈ schema.attributes, ∃ sources separator,
    field.combine? = some (sources, separator) ∧ name ∈ field.name :: sources

/-- The modifiers that run hand on the undefined value as it is, whatever the state of the
application, and leave that alone. -/
def AttributeOf.HandsOn (field : Attribute σ) (options : MarshalOptions) (path : String) : Prop :=
  options.modifiers = true → (applyModifiers field.writeModifiers path .undefined).Gives .undefined

/-- The modifiers and checks that run let the undefined value pass. -/
structure AttributeOf.LetsPass (field : Attribute σ) (options : MarshalOptions) (path : String) :
    Prop where
  modified : field.HandsOn options path
  checked : (checkValue options field .undefined path).Gives ()

/-- An attribute without functions lets the undefined value pass. -/
theorem AttributeOf.letsPass_of_noFunctions {field : Attribute σ}
    (hmodifiers : field.writeModifiers = []) (hallowed : field.allowed = none)
    (hvalidator : field.validator = none) (options : MarshalOptions) (path : String) :
    field.LetsPass options path where
  modified := by
    intro _ state
    rw [hmodifiers]
    exact yields_pure_self
  checked := by
    intro state
    simp only [checkValue, hallowed, hvalidator, ite_self]
    exact yields_pure_self

/-- Undefined values in an update meet nothing but modifiers and checks that let them pass, and no
combined attribute depends on them. -/
def Scope.LetsPass (scope : Scope σ) (options : MarshalOptions) (update : Document) : Prop :=
  ∀ entry ∈ update, entry.2.isUndefined = true → ∀ field,
    scope.attributeAt? entry.1 = some field → field.LetsPass options entry.1 ∧
      (options.combine = true → ¬ scope.root.Involves field.name)

/-! ## Steps that agree -/

namespace Pipeline

/-- A step that always succeeds may be left out. -/
theorem Gives.agree {related : α → β → Prop} {step : Pipeline σ β} {given : α} {value : β}
    (hgives : step.Gives value) (hrelated : related given value) :
    Agree related (pure given) step := by
  intro before
  rw [outcome_eq_some.mpr (hgives before), outcome_eq_some.mpr yields_pure_self]
  exact .some ⟨hrelated, rfl⟩

/-- The step succeeds in no state. -/
def Refuses (step : Pipeline σ α) : Prop :=
  ∀ before value after, ¬ Yields step before value after

theorem Refuses.outcome_eq {step : Pipeline σ α} (hrefuses : step.Refuses) (before : σ) :
    step.outcome before = none :=
  Option.eq_none_iff_forall_ne_some.mpr fun _ hresult =>
    hrefuses _ _ _ (outcome_eq_some.mp hresult)

theorem Refuses.agree {related : α → β → Prop} {first : Pipeline σ α} {second : Pipeline σ β}
    (hfirst : first.Refuses) (hsecond : second.Refuses) : Agree related first second := by
  intro before
  rw [hfirst.outcome_eq, hsecond.outcome_eq]
  exact .none

theorem Refuses.bind {first : Pipeline σ α} (hrefuses : first.Refuses) (next : α → Pipeline σ β) :
    (first >>= next).Refuses := by
  intro before value after hrun
  obtain ⟨_, _, hfirst, -⟩ := yields_bind.mp hrun
  exact hrefuses _ _ _ hfirst

theorem Refuses.mapM {step : α → Pipeline σ β} {items : List α} {item : α} (hitem : item ∈ items)
    (hrefuses : (step item).Refuses) : (items.mapM step).Refuses := by
  intro before values after hrun
  obtain ⟨_, _, _, _, _, _, -, -, hstep, -⟩ := hrun.exists_of_mem_mapM hitem
  exact hrefuses _ _ _ hstep

end Pipeline

/-! ## The requests -/

/-- All values of an update in the bucket of assignments. -/
def Document.bucketed (update : Document) : Document :=
  [("$SET", .map update)]

theorem Request.ofDocument_bucketed (update : Document) :
    ofDocument update.bucketed = .ok (update.map fun entry => (entry.1, .set entry.2)) := by
  simp [ofDocument, Document.bucketed, ofField, ofBucket]

/-! ## Values that are refused -/

/-- An attribute that must not lose its value. -/
def AttributeOf.isKept (field : Attribute σ) (options : MarshalOptions) : Bool :=
  field.required && options.required != .off

/-- Preparing an undefined value refuses it for a required attribute, and where a check does. -/
theorem Change.refuses_prepare {writing : Writing} {path : String} {target : ResolvedPath σ}
    {field : Attribute σ} (hfield : target.topLevel? = some field)
    (hhands : field.HandsOn writing.options path)
    (hrefused : field.isKept writing.options = true ∨
      (checkValue writing.options field .undefined path).Refuses) :
    (Change.prepare writing ⟨path, target, .set .undefined⟩).Refuses := by
  intro before prepared after hrun
  simp only [prepare, hfield] at hrun
  obtain ⟨value, between, hmodified, hrun⟩ := yields_ite_bind.mp hrun
  obtain rfl : value = .undefined := by
    split at hmodified
    · next hmodifiers =>
        have hsame := (hhands hmodifiers before).symm.trans hmodified
        exact (Except.ok.inj (Prod.mk.inj hsame).1).symm
    · exact (yields_pure.mp hmodified).1.symm
  obtain ⟨hremovable, hrun⟩ := yields_check.mp hrun
  obtain ⟨_, _, hchecked, -⟩ := yields_bind.mp hrun
  rcases hrefused with hkept | hrefused
  · rw [AttributeOf.isKept, Bool.and_eq_true] at hkept
    simp [hkept.1, hkept.2, Value.isUndefined] at hremovable
  · exact hrefused _ _ _ hchecked

namespace Scope

variable {scope : Scope σ} {writing : Writing} {current update : Document}

/-- Every field of an update is one of the requested changes. -/
theorem exists_change_of_requestedChanges {requests : List (String × Request)}
    {changes : List (Change σ)} (hrequests : Request.ofDocument update = .ok requests)
    (hchanges : scope.requestedChanges update = .ok changes) {request : String × Request}
    (hrequest : request ∈ requests) :
    ∃ change ∈ changes, change.path = request.1 ∧ change.request = request.2 ∧
      scope.lookup request.1 = .ok change.target := by
  rw [requestedChanges, hrequests] at hchanges
  have hall : List.Forall₂ (fun request change => scope.change request.1 request.2 = .ok change)
      requests changes := Except.mapM_eq_ok.mp hchanges
  obtain ⟨change, hchange, hmade⟩ := exists_related_left hall hrequest
  exact ⟨change, hchange, of_change_request hmade⟩

/-- An update in the bucket of assignments is refused with any of its values. -/
theorem refuses_bucketed {entry : String × Value} (hentry : entry ∈ update)
    {target : ResolvedPath σ} (hlookup : scope.lookup entry.1 = .ok target)
    (hprepare : (Change.prepare writing ⟨entry.1, target, .set entry.2⟩).Refuses) :
    (scope.updateActions writing current update.bucketed).Refuses := by
  intro before actions after hrun
  obtain ⟨requested, _, hrequests, hrun⟩ := yields_bind.mp hrun
  obtain ⟨restored, _, hrestored, hrun⟩ := yields_bind.mp hrun
  obtain ⟨⟨path, _, request⟩, hchange, rfl, rfl, htarget⟩ := exists_change_of_requestedChanges
    (Request.ofDocument_bucketed update) (yields_ofExcept.mp hrequests).1
    (List.mem_map_of_mem hentry)
  obtain rfl := Except.ok.inj (hlookup.symm.trans htarget)
  -- an assignment restores no default
  have hkept : ⟨entry.1, target, .set entry.2⟩ ∈ restored := by
    obtain ⟨_, _, _, found, _, _, -, -, hfound, hmem⟩ := hrestored.exists_of_mem_mapM hchange
    obtain ⟨rfl, -⟩ := yields_pure.mp hfound
    exact (List.of_mem_zip hmem).2
  exact (Refuses.mapM hkept hprepare).bind _ _ _ _ hrun

/-- Without its bucket it is refused with an undefined value for a required attribute. -/
theorem refuses_flattened (hflat : ∀ entry ∈ update, entry.1.startsWith "$" = false)
    {entry : String × Value} (hentry : entry ∈ update) (hundefined : entry.2.isUndefined = true)
    {field : Attribute σ} (hfield : scope.attributeAt? entry.1 = some field)
    (hkept : field.isKept writing.options = true) :
    (scope.updateActions writing current update).Refuses := by
  intro before actions after hrun
  obtain ⟨requested, _, hrequests, hrun⟩ := yields_bind.mp hrun
  obtain ⟨⟨path, target, request⟩, hchange, rfl, rfl, htarget⟩ := exists_change_of_requestedChanges
    (Request.ofDocument_of_flat hflat) (yields_ofExcept.mp hrequests).1
    (List.mem_map_of_mem hentry)
  have htop : target.topLevel? = some field := by
    simpa [attributeAt?, htarget, Except.toOption] using hfield
  have hrefuses : (Change.restoreDefault writing current
      ⟨entry.1, target, Request.ofValue entry.2⟩).Refuses := by
    intro start restored last hrestored
    rw [AttributeOf.isKept] at hkept
    simp [Change.restoreDefault, Request.ofValue, hundefined, htop, hkept] at hrestored
  exact (Refuses.mapM hchange hrefuses).bind _ _ _ _ hrun

end Scope

/-! ## The changes -/

/-- Two changes in the two forms of an update: they are the same, or one removes what the other
assigns the undefined value to, and the attribute lets that pass. -/
inductive Change.Counterpart (scope : Scope σ) (options : MarshalOptions) :
    Change σ → Change σ → Prop where
  | same (change : Change σ) : Counterpart scope options change change
  | undefined {path : String} {target : ResolvedPath σ}
      (hpasses : ∀ field, target.topLevel? = some field → field.LetsPass options path)
      (hplain : options.combine = true → ∀ field, target.topLevel? = some field →
        ¬ scope.root.Involves field.name)
      (hremovable : ∀ field, target.topLevel? = some field → field.isKept options = false) :
      Counterpart scope options ⟨path, target, .remove false⟩ ⟨path, target, .set .undefined⟩

namespace Scope

variable {scope : Scope σ} {writing : Writing} {current update : Document}
  {changes others : List (Change σ)}

/-- A change of the first form is an assignment or removes without a default. -/
theorem agree_change_ofValue {path : String} {value : Value}
    (hpasses : value.isUndefined = true → ∀ field, scope.attributeAt? path = some field →
      field.LetsPass writing.options path ∧
        (writing.options.combine = true → ¬ scope.root.Involves field.name))
    (hremovable : value.isUndefined = true → ∀ field, scope.attributeAt? path = some field →
      field.isKept writing.options = false) :
    Except.Agree (Change.Counterpart scope writing.options) (scope.change path (.ofValue value))
      (scope.change path (.set value)) := by
  unfold change
  cases hlookup : scope.lookup path with
  | error cause => exact .error _ _
  | ok target =>
      have hcounterpart : Change.Counterpart scope writing.options ⟨path, target, .ofValue value⟩
          ⟨path, target, .set value⟩ := by
        unfold Request.ofValue
        cases hundefined : value.isUndefined with
        | false => exact .same _
        | true =>
            obtain rfl := Value.eq_undefined hundefined
            have hat : ∀ field, target.topLevel? = some field → scope.attributeAt? path = some field := by
              intro field hfield
              simp [attributeAt?, hlookup, hfield, Except.toOption]
            exact .undefined (fun field hfield => (hpasses hundefined field (hat field hfield)).1)
              (fun hcombine field hfield => (hpasses hundefined field (hat field hfield)).2 hcombine)
              (fun field hfield => hremovable hundefined field (hat field hfield))
      dsimp only [bind, Except.bind]
      split
      · split
        · exact .error _ _
        · exact .ok hcounterpart
      · exact .ok hcounterpart

/-- The two forms of an update request counterparts. -/
theorem agree_requestedChanges_bucketed (hflat : ∀ entry ∈ update, entry.1.startsWith "$" = false)
    (hpasses : scope.LetsPass writing.options update)
    (hremovable : ∀ entry ∈ update, entry.2.isUndefined = true → ∀ field,
      scope.attributeAt? entry.1 = some field → field.isKept writing.options = false) :
    Except.Agree (List.Forall₂ (Change.Counterpart scope writing.options))
      (scope.requestedChanges update) (scope.requestedChanges update.bucketed) := by
  unfold requestedChanges
  rw [Request.ofDocument_of_flat hflat, Request.ofDocument_bucketed]
  refine Except.Agree.mapM ?_
  rw [List.forall₂_map_left_iff, List.forall₂_map_right_iff, List.forall₂_same]
  exact fun entry hentry => agree_change_ofValue (hpasses entry hentry) (hremovable entry hentry)

/-! ### Preparing -/

end Scope

namespace Change

variable {scope : Scope σ} {writing : Writing} {current : Document} {change other : Change σ}

theorem Counterpart.agree_restoreDefault (hchange : change.Counterpart scope writing.options other) :
    Pipeline.Agree (Counterpart scope writing.options) (change.restoreDefault writing current)
      (other.restoreDefault writing current) := by
  have hsame : ∀ change : Change σ, Pipeline.Agree (Counterpart scope writing.options)
      (change.restoreDefault writing current) (change.restoreDefault writing current) := by
    refine fun change => (Pipeline.Agree.refl _).mono ?_
    rintro restored _ rfl
    exact .same restored
  cases hchange with
  | same => exact hsame change
  | @undefined path target hpasses hplain hremovable =>
      have hcounterpart := Counterpart.undefined hpasses hplain hremovable
      unfold restoreDefault
      cases htop : target.topLevel? with
      | none => exact .pure hcounterpart
      | some field =>
          have hkept := hremovable field htop
          rw [AttributeOf.isKept] at hkept
          simp only [hkept, Bool.false_eq_true, if_false, pure_bind]
          exact .pure hcounterpart

theorem Counterpart.agree_prepare (hchange : change.Counterpart scope writing.options other) :
    Pipeline.Agree (Counterpart scope writing.options) (change.prepare writing)
      (other.prepare writing) := by
  cases hchange with
  | same =>
      refine (Pipeline.Agree.refl _).mono ?_
      rintro prepared _ rfl
      exact .same prepared
  | @undefined path target hpasses hplain hremovable =>
      have hcounterpart := Counterpart.undefined hpasses hplain hremovable
      unfold prepare
      cases htop : target.topLevel? with
      | none => exact .pure hcounterpart
      | some field =>
          obtain ⟨hmodified, hchecked⟩ := hpasses field htop
          have hkept := hremovable field htop
          rw [AttributeOf.isKept] at hkept
          refine Gives.agree (fun state => ?_) hcounterpart
          refine yields_ite_bind.mpr ⟨.undefined, state, ?_, yields_check.mpr ⟨?_, ?_⟩⟩
          · split
            · next hmodifiers => exact hmodified hmodifiers state
            · exact yields_pure_self
          · simp [hkept]
          · exact (hchecked state).bind yields_pure_self

/-- What a removal and an undefined value become in the end is the same. -/
theorem Counterpart.agree_action (hchange : change.Counterpart scope writing.options other) :
    Pipeline.Agree Eq (change.action scope writing current) (other.action scope writing current) := by
  cases hchange with
  | same => exact .refl _
  | @undefined path target hpasses hplain hremovable =>
      have hstored : assignment scope writing ⟨path, target, .set .undefined⟩ .undefined =
          pure (.remove target.segments) := by
        unfold assignment
        cases target.types with
        | none => rfl
        | some types =>
            have hwrite : Value.writerTo writing writing.depth .undefined scope (.ofText path) types =
                pure none := by
              cases writing.depth <;> rw [Value.writerTo] <;> simp only [Value.writer]
            simp only [hwrite, pure_bind]
      unfold action
      dsimp only
      rw [hstored]
      exact .refl _

end Change

/-! ### Derived changes -/

namespace Scope

variable {scope : Scope σ} {writing : Writing} {current update : Document}
  {changes others : List (Change σ)}
  (hchanges : List.Forall₂ (Change.Counterpart scope writing.options) changes others)

include hchanges

/-- Counterparts are changes of the same attributes. -/
theorem any_concerns_counterpart (name : String) :
    others.any (·.concerns name) = changes.any (·.concerns name) := by
  induction hchanges with
  | nil => rfl
  | cons hchange _ ih =>
      rw [List.any_cons, List.any_cons, ih]
      cases hchange <;> rfl

omit hchanges in
theorem concerns_of_topLevel? {change : Change σ} {name : String}
    (hconcerns : change.concerns name = true) :
    ∃ field, change.target.topLevel? = some field ∧ field.name = name := by
  simpa [Change.concerns, Change.topLevelName?, Option.map_eq_some_iff] using hconcerns

/-- What combined attributes ask for is the same of counterparts. -/
theorem sameAt_counterpart (hcombine : writing.options.combine = true) {name : String}
    (hinvolves : scope.root.Involves name) : SameAt others changes name := by
  induction hchanges with
  | nil => exact ⟨rfl, rfl⟩
  | @cons change other _ _ hchange _ ih =>
      obtain ⟨hassigned, hremoved⟩ := ih
      simp only [assignedValue?, isRemoved] at hassigned hremoved
      cases hchange with
      | same =>
          constructor
          · rw [assignedValue?, assignedValue?, List.findSome?_cons, List.findSome?_cons, hassigned]
          · rw [isRemoved, isRemoved, List.any_cons, List.any_cons, hremoved]
      | @undefined path target hpasses hplain hremovable =>
          have hforeign : ∀ request, (⟨path, target, request⟩ : Change σ).concerns name = false := by
            intro request
            rw [Bool.eq_false_iff]
            intro hconcerns
            obtain ⟨field, hfield, rfl⟩ := concerns_of_topLevel? hconcerns
            exact hplain hcombine field hfield hinvolves
          constructor
          · simp [assignedValue?, hforeign, hassigned]
          · simp [isRemoved, hforeign, hremoved]

theorem agree_recombine_counterpart (hcombine : writing.options.combine = true)
    {field : Attribute σ} (hfield : field ∈ scope.root.attributes) :
    Except.Agree (List.Forall₂ (Change.Counterpart scope writing.options))
      (scope.recombine current changes field) (scope.recombine current others field) := by
  unfold recombine
  cases hcombined : field.combine? with
  | none => exact .ok hchanges
  | some sourced =>
      obtain ⟨sources, separator⟩ := sourced
      have hsame : ∀ name ∈ field.name :: sources, SameAt others changes name := fun name hname =>
        sameAt_counterpart hchanges hcombine ⟨field, hfield, sources, separator, hcombined, hname⟩
      have hremoved : sources.any (isRemoved others) = sources.any (isRemoved changes) := by
        rw [Bool.eq_iff_iff, List.any_eq_true, List.any_eq_true]
        refine exists_congr fun source => and_congr_right fun hsource => ?_
        rw [(hsame source (List.mem_cons_of_mem _ hsource)).removed]
      have hidle : ((field.name :: sources).all fun name => (assignedValue? others name).isNone) =
          (field.name :: sources).all fun name => (assignedValue? changes name).isNone := by
        rw [Bool.eq_iff_iff, List.all_eq_true, List.all_eq_true]
        refine forall_congr' fun name => forall_congr' fun hname => ?_
        rw [(hsame name hname).assigned]
      have hupdated : ∀ source ∈ sources,
          scope.updatedValue? current others source = scope.updatedValue? current changes source :=
        fun source hsource => (hsame source (List.mem_cons_of_mem _ hsource)).updatedValue?_eq
      have hvalues := List.filterMap_congr hupdated
      have hmissing : (sources.filter fun source =>
            (scope.updatedValue? current others source).isNone) =
          sources.filter fun source => (scope.updatedValue? current changes source).isNone :=
        List.filter_congr fun source hsource => by rw [hupdated source hsource]
      have hkept : List.Forall₂ (Change.Counterpart scope writing.options)
          (changes.filter fun change => !change.concerns field.name)
          (others.filter fun change => !change.concerns field.name) := by
        refine List.rel_filter (fun change other hchange => ?_) hchanges
        cases hchange <;> rfl
      dsimp only
      rw [hremoved, hidle, hvalues, hmissing]
      split
      · exact .ok hchanges
      · split
        · refine (Except.Agree.refl _).bind ?_
          rintro target _ rfl
          exact .ok (List.rel_append hkept (.cons (.same _) .nil))
        · split
          · exact .error _ _
          · refine (Except.Agree.refl _).bind ?_
            rintro combined _ rfl
            refine (Except.Agree.refl _).bind ?_
            rintro assigned _ rfl
            exact .ok (List.rel_append hkept (.cons (.same _) .nil))

theorem agree_allChanges_counterpart :
    Pipeline.Agree (List.Forall₂ (Change.Counterpart scope writing.options))
      (scope.allChanges writing current changes) (scope.allChanges writing current others) := by
  have hforced : scope.forcedDefault? writing current others =
      scope.forcedDefault? writing current changes := by
    funext field
    simp only [forcedDefault?, any_concerns_counterpart hchanges]
  have htime : scope.updateTime? writing others = scope.updateTime? writing changes := by
    simp only [updateTime?, any_concerns_counterpart hchanges]
  unfold allChanges
  rw [hforced, htime]
  extract_lets completed recompleted
  have hcompleted : ∀ defaults, Pipeline.Agree (List.Forall₂ (Change.Counterpart scope writing.options))
      (completed defaults) (recompleted defaults) := by
    intro defaults
    dsimp only [completed, recompleted]
    refine (Pipeline.Agree.refl _).bind ?_
    rintro time _ rfl
    have hderived : ∀ derived : List (Change σ),
        List.Forall₂ (Change.Counterpart scope writing.options) derived derived :=
      fun derived => List.forall₂_same.mpr fun change _ => .same change
    have hall := List.rel_append (List.rel_append hchanges (hderived (defaults.filterMap id)))
      (hderived time.toList)
    split
    · next hcombine =>
        exact .ofExcept (.foldlM_same (fun field hfield _ _ hgiven =>
          agree_recombine_counterpart hgiven hcombine hfield) hall)
    · exact .pure hall
  split
  · refine (Pipeline.Agree.refl _).bind ?_
    rintro defaults _ rfl
    exact hcompleted defaults
  · exact hcompleted []

end Scope

/-! ## Both forms -/

namespace Scope

variable {scope : Scope σ} {writing : Writing} {current update : Document}

/-- The two forms of an update agree on the actions. -/
theorem agree_updateActions_bucketed (hflat : ∀ entry ∈ update, entry.1.startsWith "$" = false)
    (hpasses : scope.LetsPass writing.options update) :
    Pipeline.Agree Eq (scope.updateActions writing current update)
      (scope.updateActions writing current update.bucketed) := by
  by_cases hremovable : ∀ entry ∈ update, entry.2.isUndefined = true → ∀ field,
      scope.attributeAt? entry.1 = some field → field.isKept writing.options = false
  · unfold updateActions
    refine (Pipeline.Agree.ofExcept (agree_requestedChanges_bucketed hflat hpasses hremovable)).bind
      fun requested others hrequested => ?_
    refine (Pipeline.Agree.mapM (hrequested.imp fun _ _ hchange =>
      hchange.agree_restoreDefault)).bind fun restored others hrestored => ?_
    refine (Pipeline.Agree.mapM (hrestored.imp fun _ _ hchange =>
      hchange.agree_prepare)).bind fun prepared others hprepared => ?_
    refine (agree_allChanges_counterpart hprepared).bind fun changes others hchanges => ?_
    exact .mapM_eq (hchanges.imp fun _ _ hchange => hchange.agree_action)
  · -- both forms are refused, though not at the same stage
    push Not at hremovable
    obtain ⟨entry, hentry, hundefined, field, hfield, hkept⟩ := hremovable
    rw [ne_eq, Bool.not_eq_false] at hkept
    refine Refuses.agree (refuses_flattened hflat hentry hundefined hfield hkept) ?_
    obtain ⟨target, hlookup, htop⟩ : ∃ target, scope.lookup entry.1 = .ok target ∧
        target.topLevel? = some field := by
      obtain ⟨target, htarget, htop⟩ := Option.bind_eq_some_iff.mp hfield
      exact ⟨target, Except.toOption_eq_some.mp htarget, htop⟩
    refine refuses_bucketed hentry hlookup ?_
    rw [Value.eq_undefined hundefined]
    exact Change.refuses_prepare htop (hpasses entry hentry hundefined field hfield).1.modified
      (.inl hkept)

end Scope

/-- An update whose values stand under paths, and the same values in the bucket of assignments.  Where
modifiers and checks let the undefined values pass, and these concern no combined attribute, both
forms fail or both compile to the same expression; this is so if no value is undefined.  Where
modifiers hand on an undefined value and a check does not let it pass, the second form fails. -/
theorem Mapper.bucket_agrees {mapper : Mapper σ} {writing : Writing} {current update : Document}
    (hflat : ∀ entry ∈ update, entry.1.startsWith "$" = false) :
    (mapper.scope.LetsPass writing.options update → ∀ before compiled after,
      Yields (mapper.update writing current update) before compiled after ↔
        Yields (mapper.update writing current [("$SET", .map update)]) before compiled after) ∧
    ∀ entry ∈ update, entry.2.isUndefined = true → ∀ field,
      mapper.scope.attributeAt? entry.1 = some field → field.HandsOn writing.options entry.1 →
      (checkValue writing.options field .undefined entry.1).Refuses →
        (mapper.update writing current [("$SET", .map update)]).Refuses := by
  constructor
  · intro hpasses before compiled after
    apply Pipeline.Agree.yields_iff
    refine (Scope.agree_updateActions_bucketed hflat hpasses).bind ?_
    rintro actions _ rfl
    exact .refl _
  · intro entry hentry hundefined field hfield hhands hchecks
    obtain ⟨target, htarget, htop⟩ := Option.bind_eq_some_iff.mp hfield
    refine (Scope.refuses_bucketed hentry (Except.toOption_eq_some.mp htarget) ?_).bind _
    rw [Value.eq_undefined hundefined]
    exact Change.refuses_prepare htop hhands (.inr hchecks)

/-! ## Posters -/

/-- A poster has a mood, which is one of two, and a tag that repeats the title. -/
def SchemaOf.poster : Schema Unit where
  attributes := [.plain "id" [.primitive .string], .plain "title" [.primitive .string],
    .plain "note" [.primitive .string],
    { AttributeOf.plain "mood" [.primitive .string] with
      allowed := some [.string "calm", .string "loud"] },
    .plain "tag" [.combine ["title"] ","]]
  keepUnknown := .disabled
  timestamps := none

/-- The mapper of the only model, which has the schema `SchemaOf.poster`. -/
def Mapper.poster : Mapper Unit :=
  ⟨⟨[⟨"Poster", .poster, none⟩]⟩, ⟨"Poster", .poster, none⟩⟩

namespace Mapper

/-- The mood of a poster can be removed, but it can not be set to be undefined. -/
theorem poster_mood_differs :
    Yields (poster.update ⟨.update, .epoch, 0⟩ [] [("mood", .undefined)]) ()
      ⟨"REMOVE #a0", [("#a0", "mood")], []⟩ () ∧
    ∀ compiled after, ¬ Yields (poster.update ⟨.update, .epoch, 0⟩ []
      [("$SET", .map [("mood", .undefined)])]) () compiled after := by
  refine ⟨yields_of_value? (by decide +kernel), fun compiled after hrun => ?_⟩
  exact Option.some_ne_none _ (hrun.value?_eq.symm.trans (by decide +kernel))

theorem letsPass_poster : poster.scope.LetsPass (.update : MarshalOptions)
    [("note", .undefined), ("title", .string "Fair")] := by
  intro entry hentry hundefined field hfield
  simp only [List.mem_cons, List.not_mem_nil, or_false] at hentry
  rcases hentry with rfl | rfl
  · have hnote : poster.scope.attributeAt? "note" = some (.plain "note" [.primitive .string]) := rfl
    obtain rfl := Option.some.inj (hnote.symm.trans hfield)
    refine ⟨AttributeOf.letsPass_of_noFunctions rfl rfl rfl _ _, fun _ hinvolves => ?_⟩
    obtain ⟨other, hother, sources, separator, hcombine, hname⟩ := hinvolves
    simp only [scope, poster, SchemaOf.poster, List.mem_cons, List.not_mem_nil, or_false] at hother
    rcases hother with rfl | rfl | rfl | rfl | rfl
    · cases hcombine
    · cases hcombine
    · cases hcombine
    · cases hcombine
    · cases hcombine
      simp [AttributeOf.plain] at hname
  · cases hundefined

/-- The note of a poster can be removed while its title is set, in both forms.  The mood is refused
in the second one. -/
theorem bucket_agrees_poster :
    (∀ entry ∈ [("note", Value.undefined), ("title", .string "Fair")],
      entry.1.startsWith "$" = false) ∧
    poster.scope.LetsPass (.update : MarshalOptions)
      [("note", .undefined), ("title", .string "Fair")] ∧
    Yields (poster.update ⟨.update, .epoch, 0⟩ [] [("$SET", .map [("note", .undefined),
        ("title", .string "Fair")])]) ()
      ⟨"REMOVE #a0 SET #a1 = :v0, #a2 = :v1", [("#a0", "note"), ("#a1", "title"), ("#a2", "tag")],
        [(":v0", .string "Fair"), (":v1", .string "Fair")]⟩ () ∧
    (∀ entry ∈ [("mood", Value.undefined)], entry.1.startsWith "$" = false) ∧
    poster.scope.attributeAt? "mood" = some { AttributeOf.plain "mood" [.primitive .string] with
      allowed := some [.string "calm", .string "loud"] } ∧
    (poster.update ⟨.update, .epoch, 0⟩ [] [("$SET", .map [("mood", .undefined)])]).Refuses := by
  have hflat : ∀ entry ∈ [("note", Value.undefined), ("title", .string "Fair")],
      entry.1.startsWith "$" = false := by simp
  have hmood : ∀ entry ∈ [("mood", Value.undefined)], entry.1.startsWith "$" = false := by simp
  have hcompiles : Yields (poster.update ⟨.update, .epoch, 0⟩ [] [("note", .undefined),
        ("title", .string "Fair")]) ()
      ⟨"REMOVE #a0 SET #a1 = :v0, #a2 = :v1", [("#a0", "note"), ("#a1", "title"), ("#a2", "tag")],
        [(":v0", .string "Fair"), (":v1", .string "Fair")]⟩ () :=
    yields_of_value? (by decide +kernel)
  refine ⟨hflat, letsPass_poster, ?_, hmood, rfl, ?_⟩
  · exact ((@bucket_agrees Unit poster ⟨.update, .epoch, 0⟩ [] _ hflat).1 letsPass_poster _ _ _).mp
      hcompiles
  · refine (@bucket_agrees Unit poster ⟨.update, .epoch, 0⟩ [] _ hmood).2 _ (.head _) rfl _ rfl ?_ ?_
    · intro _ state
      exact yields_pure_self
    · intro before value after hrun
      exact Option.some_ne_none _ (hrun.value?_eq.symm.trans (by decide +kernel))

end Mapper

end ItemMapper
