import ItemMapper.Proofs.Update.Changes

/-!
# The changes that an update implies

An update assigns some attributes without being asked to: forced defaults, and the time of the
update.  `Scope.impliedFields` lists them.  The list depends on the schema, the options and the
requested changes alone: an attribute with a forced default is on it unless it is requested as a
whole or is a key, and the attribute of the time unless it is requested as a whole.  In particular
the time is on the list also when it is a key, and an attribute can be on it twice.

`implied_of_yields` says that the implied changes of a run assign exactly these attributes, in this
order, if native names lead to their attributes.
-/

namespace ItemMapper

variable {σ : Type}

open Pipeline

/-! ## Runs over a list that keep some of the results -/

/-- A list of optional results has a result for each item that the step keeps. -/
theorem Pipeline.Yields.forall₂_filterMap {α β : Type} {step : α → Pipeline σ (Option β)}
    {keeps : α → Bool} {related : α → β → Prop} :
    ∀ {items : List α} {values : List (Option β)} {before after : σ},
      (∀ item ∈ items, ∀ value before after, Yields (step item) before value after →
        value.isSome = keeps item ∧ ∀ result, value = some result → related item result) →
      Yields (items.mapM step) before values after →
      List.Forall₂ related (items.filter keeps) (values.filterMap id) := by
  intro items
  induction items with
  | nil =>
      intro values before after _ hrun
      obtain ⟨rfl, -⟩ := yields_mapM_nil.mp hrun
      exact .nil
  | cons item rest ih =>
      intro values before after hstep hrun
      obtain ⟨value, between, others, hvalue, hothers, rfl⟩ := yields_mapM_cons.mp hrun
      obtain ⟨hkeeps, hrelated⟩ := hstep item (by simp) value _ _ hvalue
      have hrest := ih (fun other hother => hstep other (by simp [hother])) hothers
      cases value with
      | none => simpa [← hkeeps] using hrest
      | some result =>
          rw [List.filter_cons_of_pos (by simpa using hkeeps.symm)]
          exact .cons (hrelated result rfl) hrest

/-- A list without repetitions keeps exactly one item if only that one passes. -/
theorem filter_eq_singleton {α : Type} {keeps : α → Bool} {items : List α} {kept : α}
    (hdistinct : items.Nodup) (hkept : kept ∈ items)
    (honly : ∀ item ∈ items, keeps item = true ↔ item = kept) : items.filter keeps = [kept] := by
  refine List.perm_singleton.mp ?_
  refine (List.perm_ext_iff_of_nodup (hdistinct.filter _) (List.nodup_singleton _)).mpr ?_
  intro item
  simp only [List.mem_filter, List.mem_singleton]
  constructor
  · rintro ⟨hitem, hkeeps⟩
    exact (honly item hitem).mp hkeeps
  · rintro rfl
    exact ⟨hkept, (honly _ hkept).mpr rfl⟩

namespace Scope

variable {scope : Scope σ} {writing : Writing} {requested : List (Change σ)}

/-! ## Which attributes are implied -/

/-- The default of an attribute is forced and nothing is in its way. -/
def impliesDefault (scope : Scope σ) (writing : Writing) (requested : List (Change σ))
    (field : Attribute σ) : Bool :=
  writing.options.forceDefaults && field.forceDefault && field.defaultValue.isSome &&
    !requested.any (·.concerns field.name) && !scope.root.isKey field.name

/-- The attribute holds the time of the update and is not requested. -/
def impliesTime (scope : Scope σ) (writing : Writing) (requested : List (Change σ))
    (field : Attribute σ) : Bool :=
  writing.options.timestamps != .off &&
    scope.root.timestamps.bind Timestamps.updatedAt == some field.name &&
    !requested.any (·.concerns field.name)

/-- The attributes that an update assigns without being asked to. -/
def impliedFields (scope : Scope σ) (writing : Writing) (requested : List (Change σ)) :
    List (Attribute σ) :=
  scope.root.attributes.filter (scope.impliesDefault writing requested) ++
    scope.root.attributes.filter (scope.impliesTime writing requested)

/-- The change assigns some value to the attribute. -/
def Assigns (field : Attribute σ) (change : Change σ) : Prop :=
  change.target = .ofAttribute field ∧ ∃ value, change.request = .set value

/-- The change assigns what is implied for the attribute. -/
inductive Implies (scope : Scope σ) (writing : Writing) (current : Document) (field : Attribute σ) :
    Change σ → Prop
  | default {value : Value} (hdefault : field.DefaultsTo writing.now current value) :
      Implies scope writing current field ⟨field.nativeName, .ofAttribute field, .set value⟩
  | time (hname : scope.root.timestamps.bind Timestamps.updatedAt = some field.name) :
      Implies scope writing current field ⟨field.name, .ofAttribute field, .set (.date writing.now)⟩

theorem Implies.assigns {current : Document} {field : Attribute σ} {change : Change σ}
    (himplies : scope.Implies writing current field change) : Assigns field change := by
  cases himplies with
  | default => exact ⟨rfl, _, rfl⟩
  | time => exact ⟨rfl, _, rfl⟩

theorem mem_impliedFields {field : Attribute σ} :
    field ∈ scope.impliedFields writing requested ↔ field ∈ scope.root.attributes ∧
      (scope.impliesDefault writing requested field = true ∨
        scope.impliesTime writing requested field = true) := by
  simp [impliedFields, and_or_left]

/-- What is implied is not requested as a whole. -/
theorem not_concerns_of_implied {field : Attribute σ}
    (hfield : field ∈ scope.impliedFields writing requested) :
    ∀ change ∈ requested, change.concerns field.name = false := by
  rcases (mem_impliedFields.mp hfield).2 with himplied | himplied
  · simp only [impliesDefault, Bool.and_eq_true] at himplied
    simpa using himplied.1.2
  · simp only [impliesTime, Bool.and_eq_true] at himplied
    simpa using himplied.2

/-- What is implied depends on the attributes that are requested, not on what is requested. -/
theorem impliedFields_congr {prepared : List (Change σ)}
    (hsame : ∀ name, prepared.any (·.concerns name) = requested.any (·.concerns name)) :
    scope.impliedFields writing prepared = scope.impliedFields writing requested := by
  have hdefault : scope.impliesDefault writing prepared = scope.impliesDefault writing requested := by
    funext field
    simp only [impliesDefault, hsame]
  have htime : scope.impliesTime writing prepared = scope.impliesTime writing requested := by
    funext field
    simp only [impliesTime, hsame]
  rw [impliedFields, impliedFields, hdefault, htime]

/-! ## Runs -/

theorem eq_of_assign {path : String} {value : Value} {change : Change σ} {target : ResolvedPath σ}
    (hlookup : scope.lookup path = .ok target)
    (hassign : scope.assign path value = .ok change) : change = ⟨path, target, .set value⟩ := by
  simp only [assign, hlookup] at hassign
  exact (Except.ok.inj hassign).symm

theorem of_yields_forcedDefault? {current : Document} {field : Attribute σ} {before after : σ}
    {change : Option (Change σ)} (hschema : scope.root.WellFormed)
    (hnames : scope.root.Addressable)
    (hfield : field ∈ scope.root.attributes) (hforce : writing.options.forceDefaults = true)
    (hrun : Yields (scope.forcedDefault? writing current requested field) before change after) :
    change.isSome = scope.impliesDefault writing requested field ∧
      ∀ given, change = some given → scope.Implies writing current field given := by
  unfold forcedDefault? at hrun
  split at hrun
  case isTrue hskip =>
    obtain ⟨rfl, -⟩ := yields_pure.mp hrun
    simp only [Bool.or_eq_true, Bool.not_eq_true'] at hskip
    refine ⟨?_, by simp⟩
    rcases hskip with (hskip | hskip) | hskip <;> simp [impliesDefault, hskip]
  case isFalse hkeep =>
    simp only [Bool.or_eq_true, Bool.not_eq_true', not_or, Bool.not_eq_true,
      Bool.not_eq_false] at hkeep
    -- all conditions but one are decided, and evaluating decides whether there is a default
    obtain ⟨⟨hforced, hfree⟩, hkey⟩ := hkeep
    obtain ⟨value, between, hvalue, hrun⟩ := yields_bind.mp hrun
    have hsome := Change.isSome_of_yields_evaluateDefault hvalue
    cases value with
    | none =>
        obtain ⟨rfl, -⟩ := yields_pure.mp hrun
        exact ⟨by simp [impliesDefault, ← hsome], by simp⟩
    | some value =>
        obtain ⟨given, _, hgiven, hrun⟩ := yields_bind.mp hrun
        obtain ⟨rfl, -⟩ := yields_pure.mp hrun
        obtain ⟨hassign, -⟩ := yields_ofExcept.mp hgiven
        obtain rfl := eq_of_assign (lookup_nativeName hschema hnames hfield) hassign
        refine ⟨by simp [impliesDefault, ← hsome, hforce, hforced, hfree, hkey], ?_⟩
        intro change hchange
        obtain rfl := Option.some.inj hchange
        exact .default ⟨_, _, _, hvalue⟩

/-- Only the attribute of the time can be implied by it. -/
theorem impliesTime_iff {field other : Attribute σ} (hschema : scope.root.WellFormed)
    (hfield : field ∈ scope.root.attributes) (hother : other ∈ scope.root.attributes)
    (hname : scope.root.timestamps.bind Timestamps.updatedAt = some field.name) :
    scope.impliesTime writing requested other = true ↔
      other = field ∧ writing.options.timestamps ≠ .off ∧
        requested.any (·.concerns field.name) = false := by
  simp only [impliesTime, hname, Bool.and_eq_true, bne_iff_ne, ne_eq, beq_iff_eq, Option.some.injEq,
    Bool.not_eq_true']
  constructor
  · rintro ⟨⟨hon, heq⟩, hfree⟩
    obtain rfl := hschema.eq_of_name_eq hfield hother heq
    exact ⟨rfl, hon, hfree⟩
  · rintro ⟨rfl, hon, hfree⟩
    exact ⟨⟨hon, rfl⟩, hfree⟩

theorem of_updateTime? {current : Document} {time : Option (Change σ)}
    (hschema : scope.root.WellFormed)
    (hrun : scope.updateTime? writing requested = .ok time) :
    List.Forall₂ (scope.Implies writing current)
      (scope.root.attributes.filter (scope.impliesTime writing requested)) time.toList := by
  unfold updateTime? at hrun
  split at hrun
  case h_1 hnone =>
    obtain rfl := Except.ok.inj hrun
    simp [impliesTime, hnone]
  case h_2 name hname =>
    -- the attribute of the time is declared, and no other one has its name
    obtain ⟨stamps, hstamps, hupdated⟩ := Option.bind_eq_some_iff.mp hname
    obtain ⟨field, hfield, rfl⟩ := hschema.stampsDeclared stamps hstamps name (.inr hupdated)
    have himplies : ∀ other ∈ scope.root.attributes,
        scope.impliesTime writing requested other = true ↔ other = field ∧
          writing.options.timestamps ≠ .off ∧ requested.any (·.concerns field.name) = false :=
      fun other hother => impliesTime_iff hschema hfield hother hname
    split at hrun
    case isTrue hoff =>
      obtain rfl := Except.ok.inj hrun
      have hfilter : scope.root.attributes.filter (scope.impliesTime writing requested) = [] := by
        rw [List.filter_eq_nil_iff]
        intro other hother htime
        obtain ⟨-, hon, hfree⟩ := (himplies other hother).mp htime
        simp [hon, hfree] at hoff
      rw [hfilter]
      exact .nil
    case isFalse hon =>
      simp only [Except.bind_eq_ok, Except.pure_eq_ok] at hrun
      obtain ⟨change, hchange, rfl⟩ := hrun
      obtain rfl := eq_of_assign (lookup_name hschema hfield) hchange
      have hfilter : scope.root.attributes.filter (scope.impliesTime writing requested) =
          [field] := by
        apply filter_eq_singleton hschema.nodup_attributes hfield
        intro other hother
        rw [himplies other hother]
        exact ⟨And.left, fun hother => ⟨hother, by simpa using hon⟩⟩
      rw [hfilter]
      exact .cons (.time hname) .nil

/-- The implied changes of a run assign the implied attributes their defaults and the time. -/
theorem implied_of_yields {current : Document} {defaults : List (Option (Change σ))}
    {time : Option (Change σ)} {before after : σ} (hschema : scope.root.WellFormed)
    (hnames : scope.root.Addressable)
    (hdefaults : Yields
      (if writing.options.forceDefaults then
        scope.root.attributes.mapM (scope.forcedDefault? writing current requested)
      else pure []) before defaults after)
    (htime : scope.updateTime? writing requested = .ok time) :
    List.Forall₂ (scope.Implies writing current) (scope.impliedFields writing requested)
      (defaults.filterMap id ++ time.toList) := by
  refine List.rel_append ?_ (of_updateTime? hschema htime)
  split at hdefaults
  case isTrue hforce =>
    exact Yields.forall₂_filterMap (fun field hfield value before after hrun =>
      of_yields_forcedDefault? hschema hnames hfield hforce hrun) hdefaults
  case isFalse hforce =>
    obtain ⟨rfl, -⟩ := yields_pure.mp hdefaults
    simp [impliesDefault, hforce]

end Scope

end ItemMapper
