import ItemMapper.Proofs.Update.Paths
import ItemMapper.Proofs.Update.Recombine

/-!
# The stages of an update

A successful compilation has gone through all stages, and `Stages` keeps what each of them has left
behind: the requested changes, the prepared ones, the implied ones, all changes once the combined
attributes have followed, and the actions.  Each stage is given by a relation between its input and
its output that does not mention the state of the application; `stages_of_yields` says that a run
satisfies all of them.

Everything that a compiled update does at the top level is settled by which attributes the update
*settles*, that is rewrites or implies (`Scope.Settles`).  `isRecombined_iff` puts the condition
under which a combined attribute follows in these terms, which are about the requested changes.
-/

namespace ItemMapper

variable {σ : Type}

open Pipeline

namespace Scope

variable {scope : Scope σ} {writing : Writing} {current update : Document}
  {requested prepared implied changes : List (Change σ)} {actions : List Action}

/-! ## Requested changes -/

theorem of_change {path : String} {request : Request} {change : Change σ}
    (hchange : scope.change path request = .ok change) :
    scope.lookup change.path = .ok change.target ∧
      ∀ name, scope.root.isKey name = true → change.concerns name = false := by
  rw [Scope.change, Except.bind_eq_ok] at hchange
  obtain ⟨target, hlookup, hchange⟩ := hchange
  split at hchange
  case h_1 field hfield =>
    split at hchange
    case isTrue => simp at hchange
    case isFalse hkey =>
      obtain rfl := Except.ok.inj hchange
      refine ⟨hlookup, fun name hname => ?_⟩
      have hne : field.name ≠ name := fun heq => hkey (heq ▸ hname)
      simpa [Change.concerns, Change.topLevelName?, hfield] using hne
  case h_2 hnone =>
    obtain rfl := Except.ok.inj hchange
    exact ⟨hlookup, fun name _ => by simp [Change.concerns, Change.topLevelName?, hnone]⟩

/-- The requests of an update become its requested changes. -/
theorem exists_requests (hrequested : scope.requestedChanges update = .ok requested) :
    ∃ requests, Request.ofDocument update = .ok requests ∧
      List.Forall₂ (fun request asked => scope.change request.1 request.2 = .ok asked) requests
        requested := by
  rw [requestedChanges, Except.bind_eq_ok] at hrequested
  obtain ⟨requests, hrequests, hchanges⟩ := hrequested
  refine ⟨requests, ?_, Except.mapM_eq_ok.mp hchanges⟩
  cases hdocument : Request.ofDocument update with
  | error cause =>
      rw [hdocument] at hrequests
      cases hrequests
  | ok given =>
      rw [hdocument] at hrequests
      exact congrArg Except.ok (Except.ok.inj hrequests)

/-- A requested change is where its path leads, and is not one of a key as a whole. -/
theorem of_requestedChanges (hrequested : scope.requestedChanges update = .ok requested) :
    ∀ change ∈ requested, scope.lookup change.path = .ok change.target ∧
      ∀ name, scope.root.isKey name = true → change.concerns name = false := by
  obtain ⟨requests, -, hmade⟩ := exists_requests hrequested
  intro change hchange
  obtain ⟨request, -, hrequest⟩ := exists_related_right hmade hchange
  exact of_change hrequest

theorem segments_ne_nil {path : String} {target : ResolvedPath σ}
    (hlookup : scope.lookup path = .ok target) : target.segments ≠ [] := by
  rcases lookup_cases hlookup with ⟨_, -, rfl⟩ | ⟨_, -, _, _, hsegments, -⟩ | ⟨_, _, hsegments, -⟩
  · simp
  · simp [hsegments]
  · simp [hsegments]

/-! ## All stages -/

/-- The combined attributes that follow the changes. -/
def recombinedFields (scope : Scope σ) (writing : Writing) (changes : List (Change σ)) :
    List (Attribute σ) :=
  if writing.options.combine then scope.root.attributes.filter (isRecombined changes) else []

theorem mem_recombinedFields {field : Attribute σ} :
    field ∈ scope.recombinedFields writing changes ↔
      writing.options.combine = true ∧ field ∈ scope.root.attributes ∧
        isRecombined changes field = true := by
  unfold recombinedFields
  split <;> simp [*]

theorem nodup_recombinedFields (hschema : scope.root.WellFormed) :
    (scope.recombinedFields writing changes).Nodup := by
  unfold recombinedFields
  split
  · exact hschema.nodup_attributes.filter _
  · exact .nil

/-- The attributes that get a change beyond what is requested: the recombined ones, and the implied
ones among the others. -/
def addedFields (scope : Scope σ) (writing : Writing) (requested : List (Change σ))
    (recombined : List (Attribute σ)) : List (Attribute σ) :=
  ((scope.impliedFields writing requested).filter fun field =>
    !recombined.any (field.name == ·.name)) ++ recombined

theorem mem_addedFields {recombined : List (Attribute σ)} {field : Attribute σ} :
    field ∈ scope.addedFields writing requested recombined ↔
      (field ∈ scope.impliedFields writing requested ∧
        ∀ other ∈ recombined, field.name ≠ other.name) ∨ field ∈ recombined := by
  simp [addedFields]

theorem mem_attributes_of_added {field : Attribute σ}
    (hfield : field ∈ scope.addedFields writing requested
      (scope.recombinedFields writing changes)) : field ∈ scope.root.attributes := by
  rcases mem_addedFields.mp hfield with ⟨himplied, -⟩ | hrecombined
  · exact (mem_impliedFields.mp himplied).1
  · exact (mem_recombinedFields.mp hrecombined).2.1

theorem exists_added_of_implied {recombined : List (Attribute σ)} {field : Attribute σ}
    (hfield : field ∈ scope.impliedFields writing requested) :
    ∃ added ∈ scope.addedFields writing requested recombined, added.name = field.name := by
  by_cases hfollows : ∃ other ∈ recombined, field.name = other.name
  · obtain ⟨other, hother, hname⟩ := hfollows
    exact ⟨other, mem_addedFields.mpr (.inr hother), hname.symm⟩
  · exact ⟨field, mem_addedFields.mpr (.inl ⟨hfield, by simpa using hfollows⟩), rfl⟩

/-- What the stages of a successful compilation have left behind. -/
structure Stages (scope : Scope σ) (writing : Writing) (current update : Document)
    (requested prepared implied changes : List (Change σ)) (actions : List Action) : Prop where
  requests : scope.requestedChanges update = .ok requested
  prepares : List.Forall₂ Change.Prepares requested prepared
  implies : List.Forall₂ Assigns (scope.impliedFields writing requested) implied
  follows : ∃ followed,
    changes = besides (scope.recombinedFields writing (prepared ++ implied)) (prepared ++ implied) ++
      followed ∧
    List.Forall₂ (scope.Recombines current (prepared ++ implied))
      (scope.recombinedFields writing (prepared ++ implied)) followed
  stores : List.Forall₂ (Change.Stores scope writing current) changes actions

/-- A run goes through all stages.  Each requested change goes through both rounds, and what is
implied is assigned. -/
theorem stages_and_origins_of_yields {before after : σ} (hschema : scope.root.WellFormed)
    (hnames : scope.root.Addressable)
    (hrun : Yields (scope.updateActions writing current update) before actions after) :
    ∃ requested prepared implied changes,
      Stages scope writing current update requested prepared implied changes actions ∧
      List.Forall₂ (Change.Rounds writing current) requested prepared ∧
      List.Forall₂ (scope.Implies writing current) (scope.impliedFields writing requested)
        implied := by
  unfold updateActions at hrun
  obtain ⟨requested, _, hrequests, hrun⟩ := yields_bind.mp hrun
  obtain ⟨hrequested, rfl⟩ := yields_ofExcept.mp hrequests
  obtain ⟨restored, _, hrestored, hrun⟩ := yields_bind.mp hrun
  obtain ⟨prepared, middle, hprepared, hrun⟩ := yields_bind.mp hrun
  obtain ⟨changes, last, hchanges, hactions⟩ := yields_bind.mp hrun
  have hrounds := Change.rounds_of_yields hrestored hprepared
  have hprepares := hrounds.imp fun _ _ => Change.Rounds.prepares
  unfold allChanges at hchanges
  obtain ⟨defaults, _, hdefaults, hchanges⟩ := yields_ite_bind.mp hchanges
  obtain ⟨time, _, hstamp, hchanges⟩ := yields_bind.mp hchanges
  obtain ⟨htime, rfl⟩ := yields_ofExcept.mp hstamp
  -- the implied changes look only at which attributes are requested
  have himplied := implied_of_yields hschema hnames hdefaults htime
  rw [impliedFields_congr (Change.any_concerns_eq hprepares)] at himplied
  refine ⟨requested, prepared, defaults.filterMap id ++ time.toList, changes, {
    requests := hrequested
    prepares := hprepares
    implies := himplied.imp fun _ _ => Implies.assigns
    follows := ?_
    stores := Yields.forall₂_mapM (fun change action first second haction =>
      ⟨first, second, haction⟩) hactions }, hrounds, himplied⟩
  rw [List.append_assoc] at hchanges
  dsimp only at hchanges
  unfold recombinedFields
  split at hchanges
  case isTrue hcombine =>
    rw [if_pos hcombine]
    exact recombine_fold hschema hnames (independent_attributes hschema) (fun _ h => h)
      (yields_ofExcept.mp hchanges).1
  case isFalse hcombine =>
    obtain ⟨rfl, -⟩ := yields_pure.mp hchanges
    rw [if_neg hcombine]
    exact ⟨[], by simp [besides], .nil⟩

theorem stages_of_yields {before after : σ} (hschema : scope.root.WellFormed)
    (hnames : scope.root.Addressable)
    (hrun : Yields (scope.updateActions writing current update) before actions after) :
    ∃ requested prepared implied changes,
      Stages scope writing current update requested prepared implied changes actions := by
  obtain ⟨requested, prepared, implied, changes, hstages, -⟩ :=
    stages_and_origins_of_yields hschema hnames hrun
  exact ⟨requested, prepared, implied, changes, hstages⟩

namespace Stages

theorem path_eq (h : Stages scope writing current update requested prepared implied changes actions) :
    actions.map Action.path = changes.map (·.target.segments) := by
  exact (map_eq_map_of_related (fun _ _ hstores => hstores.path_eq.symm) h.stores).symm

/-- Nothing is said of a plain attribute by the combined ones. -/
theorem sameAt_of_plain {name : String} (hplain : ∀ field ∈ scope.root.attributes,
      field.combine?.isSome = true → field.name ≠ name)
    (h : Stages scope writing current update requested prepared implied changes actions) :
    SameAt changes (prepared ++ implied) name := by
  obtain ⟨followed, rfl, hfollowed⟩ := h.follows
  have hrecombined : ∀ field ∈ scope.recombinedFields writing (prepared ++ implied),
      field.name ≠ name := by
    intro field hfield
    obtain ⟨-, hdeclared, hactive⟩ := mem_recombinedFields.mp hfield
    exact hplain field hdeclared (isSome_combine?_of_isRecombined hactive)
  refine (sameAt_append ?_).trans (sameAt_filter ?_)
  · intro change hchange
    obtain ⟨field, hfield, htarget, -⟩ := exists_related_right hfollowed hchange
    rw [Change.concerns_of_ofAttribute htarget, beq_eq_false_iff_ne]
    exact hrecombined field hfield
  -- a change that concerns the plain attribute concerns no other
  · intro change _ hconcerns
    simp only [Change.concerns, beq_iff_eq] at hconcerns
    simp only [Bool.not_eq_true', List.any_eq_false, Change.concerns, hconcerns, beq_iff_eq,
      Option.some.injEq]
    exact fun field hfield heq => hrecombined field hfield heq.symm

end Stages

/-! ## What an update settles -/

/-- The update gives the whole value of the attribute with this name, or takes it away. -/
def Settles (scope : Scope σ) (writing : Writing) (requested : List (Change σ)) (name : String) :
    Prop :=
  (∃ change ∈ requested, change.concerns name = true ∧ change.request.rewrites = true) ∨
    ∃ field ∈ scope.impliedFields writing requested, field.name = name

theorem isSome_assignedValue?_iff {name : String} :
    (assignedValue? changes name).isSome = true ↔
      ∃ change ∈ changes, change.concerns name = true ∧ change.request.assigned?.isSome = true := by
  simp only [assignedValue?, List.findSome?_isSome_iff]
  refine exists_congr fun change => and_congr_right fun _ => ?_
  split <;> simp_all

theorem isRemoved_iff {name : String} :
    isRemoved changes name = true ↔
      ∃ change ∈ changes, change.concerns name = true ∧ change.request.isRemoval = true := by
  simp [isRemoved]

/-- Whether an attribute is assigned or removed is whether some change rewrites it. -/
theorem rewritten_iff {name : String} :
    ((assignedValue? changes name).isSome = true ∨ isRemoved changes name = true) ↔
      ∃ change ∈ changes, change.concerns name = true ∧ change.request.rewrites = true := by
  rw [isSome_assignedValue?_iff, isRemoved_iff, ← exists_or]
  refine exists_congr fun change => ?_
  rw [← and_or_left, ← and_or_left, Request.rewrites_iff]

namespace Stages

variable (h : Stages scope writing current update requested prepared implied changes actions)

include h

/-- What preparing leaves recognizable, and what holds of every assignment, can be told of the
prepared and the implied changes by the requested ones. -/
theorem exists_made_iff {made asked : Change σ → Prop} (name : String)
    (hprepared : ∀ change prepared, Change.Prepares change prepared → (made prepared ↔ asked change))
    (hassigned : ∀ change value, change.request = .set value → made change) :
    (∃ change ∈ prepared ++ implied, change.concerns name = true ∧ made change) ↔
      (∃ change ∈ requested, change.concerns name = true ∧ asked change) ∨
        ∃ field ∈ scope.impliedFields writing requested, field.name = name := by
  constructor
  · rintro ⟨change, hchange, hconcerns, hmade⟩
    rcases List.mem_append.mp hchange with hchange | hchange
    · obtain ⟨given, hgiven, hprepares⟩ := exists_related_right h.prepares hchange
      rw [hprepares.concerns_eq] at hconcerns
      exact .inl ⟨given, hgiven, hconcerns, (hprepared given change hprepares).mp hmade⟩
    · obtain ⟨field, hfield, htarget, -⟩ := exists_related_right h.implies hchange
      exact .inr ⟨field, hfield, (Change.concerns_iff_of_ofAttribute htarget).mp hconcerns⟩
  · rintro (⟨given, hgiven, hconcerns, hasked⟩ | ⟨field, hfield, hname⟩)
    · obtain ⟨change, hchange, hprepares⟩ := exists_related_left h.prepares hgiven
      rw [← hprepares.concerns_eq] at hconcerns
      exact ⟨change, List.mem_append_left _ hchange, hconcerns,
        (hprepared given change hprepares).mpr hasked⟩
    · obtain ⟨change, hchange, htarget, value, hrequest⟩ := exists_related_left h.implies hfield
      exact ⟨change, List.mem_append_right _ hchange,
        (Change.concerns_iff_of_ofAttribute htarget).mpr hname, hassigned change value hrequest⟩

/-- What the prepared and the implied changes say of an attribute shows whether it is settled. -/
theorem settles_iff {name : String} :
    scope.Settles writing requested name ↔
      (assignedValue? (prepared ++ implied) name).isSome = true ∨
        isRemoved (prepared ++ implied) name = true := by
  rw [rewritten_iff]
  apply Iff.symm
  apply h.exists_made_iff name
  · intro change prepared hprepares
    rw [hprepares.rewrites_eq]
  · intro change value hrequest
    rw [hrequest, Request.rewrites]

/-- A combined attribute follows exactly when a source is settled or it is assigned itself. -/
theorem isRecombined_iff {field : Attribute σ} :
    isRecombined (prepared ++ implied) field = true ↔
      ∃ sources separator, field.combine? = some (sources, separator) ∧
        ((∃ source ∈ sources, scope.Settles writing requested source) ∨
          (assignedValue? (prepared ++ implied) field.name).isSome = true) := by
  simp only [isRecombined, Option.any_eq_true, Prod.exists, Bool.or_eq_true, List.any_eq_true,
    List.mem_cons, exists_eq_or_imp, h.settles_iff, and_or_left, exists_or]
  grind

theorem changes_segments :
    changes.map (·.target.segments) =
      (besides (scope.recombinedFields writing (prepared ++ implied)) requested).map
          (·.target.segments) ++
        (scope.addedFields writing requested
          (scope.recombinedFields writing (prepared ++ implied))).map
            fun field => [.name field.name] := by
  obtain ⟨followed, hchanges, hfollowed⟩ := h.follows
  set recombined := scope.recombinedFields writing (prepared ++ implied)
  have hprepared : (besides recombined prepared).map (·.target.segments) =
      (besides recombined requested).map (·.target.segments) := by
    have hrel := List.rel_filter (R := Change.Prepares)
      (p := fun change => !recombined.any fun field => change.concerns field.name)
      (q := fun change => !recombined.any fun field => change.concerns field.name)
      (fun _ _ hprepares => by simp only [hprepares.concerns_eq]) h.prepares
    refine (map_eq_map_of_related (fun _ _ hprepares => ?_) hrel).symm
    rw [hprepares.target_eq]
  have himplied : (besides recombined implied).map (·.target.segments) =
      ((scope.impliedFields writing requested).filter fun field =>
        !recombined.any (field.name == ·.name)).map fun field => [.name field.name] := by
    have hrel := List.rel_filter (R := Assigns)
      (p := fun field => !recombined.any (field.name == ·.name))
      (q := fun change => !recombined.any fun field => change.concerns field.name)
      (fun _ _ hassigns => by simp only [Change.concerns_of_ofAttribute hassigns.1]) h.implies
    refine (map_eq_map_of_related (fun _ _ hassigns => ?_) hrel).symm
    rw [hassigns.1]
    rfl
  have hlast : followed.map (·.target.segments) =
      recombined.map fun field => [.name field.name] := by
    refine (map_eq_map_of_related (fun _ _ hrecombines => ?_) hfollowed).symm
    rw [hrecombines.1]
    rfl
  rw [hchanges, List.map_append, hlast, besides, List.filter_append, List.map_append, ← besides,
    ← besides, hprepared, himplied, addedFields, List.map_append, List.append_assoc]

theorem segments_of_added {field : Attribute σ}
    (hfield : field ∈ scope.addedFields writing requested
      (scope.recombinedFields writing (prepared ++ implied))) :
    [.name field.name] ∈ changes.map (·.target.segments) := by
  rw [h.changes_segments]
  exact List.mem_append_right _ (List.mem_map_of_mem hfield)

/-- A requested change inside an attribute is never replaced by another one. -/
theorem mem_besides_of_inside {change : Change σ} {name : String} (hchange : change ∈ requested)
    (hstart : change.startsAt name) (hinside : change.concerns name = false) :
    change ∈ besides (scope.recombinedFields writing (prepared ++ implied)) requested := by
  refine List.mem_filter.mpr ⟨hchange, ?_⟩
  simp only [Bool.not_eq_true', List.any_eq_false, Bool.not_eq_true]
  intro field hfield
  -- a change of the attribute as a whole has no other segment, so it is one of `name`
  by_contra hconcerns
  simp only [Bool.not_eq_false] at hconcerns
  have hdeclared := (mem_recombinedFields.mp hfield).2.1
  have hsegments := (Change.concerns_iff_of_lookup
    (of_requestedChanges h.requests change hchange).1 ⟨field, hdeclared, rfl⟩).mp hconcerns
  obtain rfl : field.name = name := by simpa [Change.startsAt, hsegments] using hstart
  simp [hinside] at hconcerns

end Stages

end Scope

end ItemMapper
