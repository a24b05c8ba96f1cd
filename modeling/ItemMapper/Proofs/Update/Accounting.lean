import ItemMapper.Proofs.Update.Checks

/-!
# No request is lost and none is invented

Between what an update requests and what it compiles to, removals become assignments, attributes are
assigned that nobody asked for, and combined attributes take the place of what was said of them.
`update_accounts_for_requests` balances the two sides.  Every requested path is the path of an
action.  An action at any other path is there for a forced default, for the time of the update, or
for a combined attribute.  And a path that is requested once, and is not that of a combined
attribute, is the path of one action only, the one that *answers* the request (`Change.Answers`).

The account is kept by stored names, while the update itself looks up what it implies by native
names.  It is right only where these lead to the attributes that they belong to:
`update_sets_row` gives a hall in which they do not.
-/

namespace ItemMapper

variable {σ : Type}

open Pipeline

namespace Change

variable {scope : Scope σ} {writing : Writing} {current : Document} {asked change : Change σ}
  {action : Action}

/-! ## The answer to a request -/

/-- The action is what the request asks for. -/
inductive Answers (scope : Scope σ) (writing : Writing) (current : Document) (asked : Change σ) :
    Action → Prop
  /-- The value is set once it is modified.  The attribute is removed if nothing is stored of it. -/
  | assigned {given value : Value} {stored : Option WireValue}
      (hrequest : asked.request = .set given)
      (hvalue : asked.ModifiesTo writing.options given value)
      (hwrites : asked.Writes scope writing value stored) :
      Answers scope writing current asked (.ofStored asked.target.segments stored)
  /-- The default takes the place of what is removed, and is set as if it had been asked for. -/
  | restored {field : Attribute σ} {given value : Value} {stored : Option WireValue}
      (hrestores : asked.restores = true) (hfield : asked.target.topLevel? = some field)
      (hdefault : field.DefaultsTo writing.now current given)
      (hvalue : field.ModifiesTo writing.options given value)
      (hwrites : asked.Writes scope writing value stored) :
      Answers scope writing current asked (.ofStored asked.target.segments stored)
  | removed {restores : Bool} (hrequest : asked.request = .remove restores)
      (hnone : asked.restores = false) :
      Answers scope writing current asked (.remove asked.target.segments)
  | added {value : Value} {operand : WireValue} (hrequest : asked.request = .add value) :
      Answers scope writing current asked (.add asked.target.segments operand)
  | appended {value : Value} {operand : WireValue} (hrequest : asked.request = .add value) :
      Answers scope writing current asked (.append asked.target.segments operand)
  /-- The list that is to grow has no items yet, and becomes that of the new ones. -/
  | begun {value : Value} {operand : WireValue} (hrequest : asked.request = .add value)
      (hitems : current.lacksItems asked.path = true) :
      Answers scope writing current asked (.set asked.target.segments operand)
  | deleted {value : Value} {operand : WireValue} (hrequest : asked.request = .delete value) :
      Answers scope writing current asked (.delete asked.target.segments operand)

theorem answers_of_addition {value : Value} (hrequest : asked.request = .add value)
    (hadd : asked.addition scope current value = .ok action) :
    asked.Answers scope writing current action := by
  rcases addition_cases hadd with ⟨-, hundeclared⟩ |
    ⟨types, -, ⟨x, -, -, rfl⟩ | ⟨element, operand, -, -, rfl⟩ | ⟨array, operand, -, -, -, rfl⟩⟩
  · obtain ⟨operand, -, rfl | rfl⟩ := addUndeclared?_cases hundeclared
    · exact .added hrequest
    · exact .appended hrequest
  · exact .added hrequest
  · exact .added hrequest
  · split
    · next hitems => exact .begun hrequest hitems
    · exact .appended hrequest

/-- A request that goes through both rounds is answered. -/
theorem Rounds.answers (hrounds : asked.Rounds writing current change)
    (hstores : change.Stores scope writing current action) :
    asked.Answers scope writing current action := by
  obtain ⟨before, after, hrun⟩ := hstores
  unfold Change.action at hrun
  rcases hrounds.cases with ⟨given, value, hrequest, hvalue, rfl⟩ |
    ⟨field, given, value, hrestores, hfield, hdefault, hvalue, rfl⟩ | ⟨hnone, hrestores, rfl⟩
  · obtain ⟨stored, hwrites, rfl⟩ := assignment_cases hrun
    exact .assigned hrequest hvalue hwrites
  · obtain ⟨stored, hwrites, rfl⟩ := assignment_cases hrun
    exact .restored hrestores hfield hdefault hvalue hwrites
  -- what is kept through both rounds is no assignment
  · split at hrun
    · next hrequest =>
        obtain rfl := (yields_pure.mp hrun).1
        exact .removed hrequest hrestores
    · next value hrequest => simp [hrequest, Request.assigned?] at hnone
    · next hrequest => exact answers_of_addition hrequest (yields_ofExcept.mp hrun).1
    · next hrequest =>
        obtain ⟨element, operand, -, -, rfl⟩ := deletion_cases (yields_ofExcept.mp hrun).1
        exact .deleted hrequest

end Change

namespace Scope

variable {scope : Scope σ} {writing : Writing} {current update : Document}
  {requested prepared implied changes : List (Change σ)} {actions : List Action}

/-! ## The two sides of the account -/

/-- The attribute gets a change that nobody has asked for: it has a forced default, holds the time
of the update, or is combined. -/
def Volunteers (scope : Scope σ) (writing : Writing) (field : Attribute σ) : Prop :=
  (writing.options.forceDefaults = true ∧ field.forceDefault = true) ∨
    (writing.options.timestamps ≠ .off ∧
      scope.root.timestamps.bind Timestamps.updatedAt = some field.name) ∨
    (writing.options.combine = true ∧ field.combine?.isSome = true)

theorem volunteers_of_added {field : Attribute σ}
    (hfield : field ∈ scope.addedFields writing requested
      (scope.recombinedFields writing changes)) : scope.Volunteers writing field := by
  rcases mem_addedFields.mp hfield with ⟨himplied, -⟩ | hrecombined
  · rcases (mem_impliedFields.mp himplied).2 with hdefault | htime
    · simp only [impliesDefault, Bool.and_eq_true] at hdefault
      exact .inl hdefault.1.1.1
    · simp only [impliesTime, Bool.and_eq_true, bne_iff_ne, beq_iff_eq] at htime
      exact .inr (.inl htime.1)
  · obtain ⟨hcombine, -, hactive⟩ := mem_recombinedFields.mp hrecombined
    exact .inr (.inr ⟨hcombine, isSome_combine?_of_isRecombined hactive⟩)

namespace Stages

variable (h : Stages scope writing current update requested prepared implied changes actions)

include h

/-- No request is lost: what is not kept gives way to a combined attribute at the same path. -/
theorem segments_of_requested {asked : Change σ} (hasked : asked ∈ requested) :
    asked.target.segments ∈ changes.map (·.target.segments) := by
  set recombined := scope.recombinedFields writing (prepared ++ implied) with hrecombined
  by_cases hreplaced : ∃ field ∈ recombined, asked.concerns field.name = true
  · obtain ⟨field, hfield, hconcerns⟩ := hreplaced
    have hsegments := (Change.concerns_iff_of_lookup
      (of_requestedChanges h.requests asked hasked).1
      ⟨field, (mem_recombinedFields.mp hfield).2.1, rfl⟩).mp hconcerns
    rw [hsegments]
    exact h.segments_of_added (mem_addedFields.mpr (.inr hfield))
  · rw [h.changes_segments]
    refine List.mem_append_left _ (List.mem_map_of_mem (List.mem_filter.mpr ⟨hasked, ?_⟩))
    simpa using hreplaced

/-- No request is invented. -/
theorem requested_or_volunteers {path : List Segment}
    (hpath : path ∈ changes.map (·.target.segments)) :
    (∃ asked ∈ requested, path = asked.target.segments) ∨
      ∃ field ∈ scope.root.attributes, path = [.name field.name] ∧
        scope.Volunteers writing field := by
  rw [h.changes_segments, List.mem_append, List.mem_map, List.mem_map] at hpath
  rcases hpath with ⟨asked, hasked, rfl⟩ | ⟨field, hfield, rfl⟩
  · exact .inl ⟨asked, (List.mem_filter.mp hasked).1, rfl⟩
  · exact .inr ⟨field, mem_attributes_of_added hfield, rfl, volunteers_of_added hfield⟩

/-- A requested change is one of an attribute as a whole when its path is the name. -/
theorem concerns_of_requested {asked : Change σ} {field : Attribute σ} (hasked : asked ∈ requested)
    (hfield : field ∈ scope.root.attributes)
    (hpath : asked.target.segments = [.name field.name]) : asked.concerns field.name = true :=
  (Change.concerns_iff_of_lookup (of_requestedChanges h.requests asked hasked).1
    ⟨field, hfield, rfl⟩).mpr hpath

/-- Nothing is implied at a requested path. -/
theorem segments_ne_of_implied {asked : Change σ} {field : Attribute σ}
    (hasked : asked ∈ requested) (hfield : field ∈ scope.impliedFields writing requested) :
    asked.target.segments ≠ [.name field.name] := by
  intro hpath
  have hconcerns := h.concerns_of_requested hasked (mem_impliedFields.mp hfield).1 hpath
  simp [not_concerns_of_implied hfield asked hasked] at hconcerns

/-- No combined attribute follows at the path of a request for anything else. -/
theorem segments_ne_of_recombined {asked : Change σ} {field : Attribute σ}
    (hschema : scope.root.WellFormed) (hasked : asked ∈ requested)
    (hplain : ∀ field, asked.target.topLevel? = some field → field.combine? = none)
    (hfield : field ∈ scope.recombinedFields writing (prepared ++ implied)) :
    asked.target.segments ≠ [.name field.name] := by
  intro hpath
  obtain ⟨-, hdeclared, hactive⟩ := mem_recombinedFields.mp hfield
  have hconcerns := h.concerns_of_requested hasked hdeclared hpath
  simp only [Change.concerns, Change.topLevelName?, beq_iff_eq, Option.map_eq_some_iff] at hconcerns
  obtain ⟨found, hfound, hname⟩ := hconcerns
  have hmember := mem_of_topLevel? (of_requestedChanges h.requests asked hasked).1 hfound
  obtain rfl := hschema.eq_of_name_eq hmember hdeclared hname
  have hcombined := isSome_combine?_of_isRecombined hactive
  simp [hplain found hfound] at hcombined

/-- A prepared change with the name of an attribute as its path is one of it as a whole. -/
theorem segments_of_prepared {change : Change σ} {field : Attribute σ}
    (hchange : change ∈ prepared) (hfield : field ∈ scope.root.attributes)
    (hconcerns : change.concerns field.name = true) :
    change.target.segments = [.name field.name] := by
  obtain ⟨asked, hasked, hprepares⟩ := exists_related_right h.prepares hchange
  rw [hprepares.concerns_eq] at hconcerns
  rw [hprepares.target_eq]
  exact (Change.concerns_iff_of_lookup (of_requestedChanges h.requests asked hasked).1
    ⟨field, hfield, rfl⟩).mp hconcerns

/-- What is requested of anything but a combined attribute is all that the update does at its
path. -/
theorem filter_changes {asked : Change σ} (hschema : scope.root.WellFormed)
    (hasked : asked ∈ requested)
    (hplain : ∀ field, asked.target.topLevel? = some field → field.combine? = none) :
    changes.filter (·.target.segments = asked.target.segments) =
      prepared.filter (·.target.segments = asked.target.segments) := by
  obtain ⟨followed, hchanges, hfollowed⟩ := h.follows
  have hother : ∀ field ∈ scope.recombinedFields writing (prepared ++ implied),
      asked.target.segments ≠ [.name field.name] :=
    fun field => h.segments_ne_of_recombined hschema hasked hplain
  have himplied : implied.filter (·.target.segments = asked.target.segments) = [] := by
    simp only [List.filter_eq_nil_iff, decide_eq_true_eq]
    intro change hchange hpath
    obtain ⟨field, hfield, htarget, -⟩ := exists_related_right h.implies hchange
    rw [htarget] at hpath
    exact h.segments_ne_of_implied hasked hfield hpath.symm
  have hlast : followed.filter (·.target.segments = asked.target.segments) = [] := by
    simp only [List.filter_eq_nil_iff, decide_eq_true_eq]
    intro change hchange hpath
    obtain ⟨field, hfield, htarget, -⟩ := exists_related_right hfollowed hchange
    rw [htarget] at hpath
    exact hother field hfield hpath.symm
  -- what gives way to a combined attribute has another path
  have hkept : (besides (scope.recombinedFields writing (prepared ++ implied)) prepared).filter
      (·.target.segments = asked.target.segments) =
      prepared.filter (·.target.segments = asked.target.segments) := by
    rw [besides, List.filter_filter]
    refine List.filter_congr fun change hchange => ?_
    rw [Bool.and_eq_left_iff_imp, decide_eq_true_eq]
    intro hpath
    simp only [Bool.not_eq_true', List.any_eq_false]
    intro field hfield hconcerns
    have hsegments :=
      h.segments_of_prepared hchange (mem_recombinedFields.mp hfield).2.1 hconcerns
    exact hother field hfield (hpath.symm.trans hsegments)
  have hnone : (besides (scope.recombinedFields writing (prepared ++ implied)) implied).filter
      (·.target.segments = asked.target.segments) = [] := by
    rw [besides, List.filter_comm, himplied, List.filter_nil]
  rw [hchanges, List.filter_append, hlast, besides, List.filter_append, List.filter_append,
    ← besides, ← besides, hkept, hnone, List.append_nil, List.append_nil]

/-- A request that is the only one of its path has the only action there for an answer. -/
theorem exists_answer {asked : Change σ} (hschema : scope.root.WellFormed)
    (hrounds : List.Forall₂ (Change.Rounds writing current) requested prepared)
    (honce : requested.filter (·.target.segments = asked.target.segments) = [asked])
    (hplain : ∀ field, asked.target.topLevel? = some field → field.combine? = none) :
    ∃ action, actions.filter (·.path = asked.target.segments) = [action] ∧
      asked.Answers scope writing current action := by
  have hasked : asked ∈ requested := List.mem_of_mem_filter (honce ▸ List.mem_singleton_self asked)
  have hprepared := List.rel_filter (R := Change.Rounds writing current)
    (p := (·.target.segments = asked.target.segments))
    (q := (·.target.segments = asked.target.segments))
    (fun _ _ hround => by simp only [hround.prepares.target_eq]) hrounds
  have hstored := List.rel_filter (R := Change.Stores scope writing current)
    (p := (·.target.segments = asked.target.segments))
    (q := (·.path = asked.target.segments))
    (fun _ _ hstores => by simp only [hstores.path_eq]) h.stores
  rw [honce] at hprepared
  rw [h.filter_changes hschema hasked hplain] at hstored
  obtain ⟨change, _, hround, hothers, hchange⟩ := List.forall₂_cons_left_iff.mp hprepared
  obtain rfl := List.forall₂_nil_left_iff.mp hothers
  rw [hchange] at hstored
  obtain ⟨action, _, hstores, hothers, haction⟩ := List.forall₂_cons_left_iff.mp hstored
  obtain rfl := List.forall₂_nil_left_iff.mp hothers
  exact ⟨action, haction, hround.answers hstores⟩

end Stages

end Scope

/-! ## Compiled updates -/

/-- If native names lead to their attributes, every path that an update requests is that of an
action, and every other action is one of an attribute with a forced default, of the time of the
update or of a combined attribute.  A path that is requested once, other than that of a combined
attribute, has one action, and it answers the request. -/
theorem Mapper.update_accounts_for_requests {mapper : Mapper σ} {writing : Writing}
    {current update : Document} {before after : σ} {compiled : CompiledExpression}
    (hschema : mapper.model.schema.WellFormed) (hnames : mapper.model.schema.Addressable)
    (hrun : Yields (mapper.update writing current update) before compiled after) :
    ∃ requested actions, mapper.scope.requestedChanges update = .ok requested ∧
      Yields (mapper.scope.updateActions writing current update) before actions after ∧
      compiled = .ofPieces (Action.updatePieces actions) ∧
      (∀ asked ∈ requested, mapper.scope.lookup asked.path = .ok asked.target ∧
        ∃ action ∈ actions, action.path = asked.target.segments) ∧
      (∀ action ∈ actions, (∃ asked ∈ requested, action.path = asked.target.segments) ∨
        ∃ field ∈ mapper.model.schema.attributes, action.path = [.name field.name] ∧
          mapper.scope.Volunteers writing field) ∧
      ∀ asked : Change σ,
        requested.filter (·.target.segments = asked.target.segments) = [asked] →
        (∀ field, asked.target.topLevel? = some field → field.combine? = none) →
        ∃ action, actions.filter (·.path = asked.target.segments) = [action] ∧
          asked.Answers mapper.scope writing current action := by
  obtain ⟨actions, hactions, hcompiled⟩ := Mapper.actions_of_yields_update hrun
  obtain ⟨requested, prepared, implied, changes, hstages, hrounds, -⟩ :=
    Scope.stages_and_origins_of_yields hschema hnames hactions
  refine ⟨requested, actions, hstages.requests, hactions, hcompiled, fun asked hasked => ⟨?_, ?_⟩,
    fun action haction => ?_, fun asked => hstages.exists_answer hschema hrounds⟩
  · exact (Scope.of_requestedChanges hstages.requests asked hasked).1
  · have hpath := hstages.segments_of_requested hasked
    rw [← hstages.path_eq] at hpath
    exact List.mem_map.mp hpath
  · apply hstages.requested_or_volunteers
    rw [← hstages.path_eq]
    exact List.mem_map_of_mem haction

/-! ## Halls -/

/-- A hall is told by its row and its seat.  Both are said to be its place. -/
def SchemaOf.hall : Schema Unit where
  attributes := [.plain "id" [.primitive .string],
    { AttributeOf.plain "row" [.primitive .number] with nativeAlias := some "place" },
    { AttributeOf.plain "seat" [.primitive .number] with
      nativeAlias := some "place"
      defaultValue := some (.literal (.number (.ofInt 1)))
      forceDefault := true }]
  keepUnknown := .disabled
  timestamps := none

theorem SchemaOf.build_hall : build hall.attributes .disabled none = .ok hall :=
  rfl

/-- The mapper of the only model, which has the schema `SchemaOf.hall`. -/
def Mapper.hall : Mapper Unit :=
  ⟨⟨[⟨"Hall", .hall, none⟩]⟩, ⟨"Hall", .hall, none⟩⟩

/-- The default of the seat is assigned to the row, which nobody has asked for. -/
theorem Mapper.update_sets_row :
    ∃ action, hall.scope.requestedChanges [] = .ok [] ∧
      Yields (hall.scope.updateActions ⟨.update, .epoch, 0⟩ [] []) () [action] () ∧
      action.path = [.name "row"] ∧
      ¬ ∃ field ∈ hall.model.schema.attributes, action.path = [.name field.name] ∧
        hall.scope.Volunteers ⟨.update, .epoch, 0⟩ field := by
  have hidle : ∀ field ∈ hall.model.schema.attributes, field.name = "row" →
      field.forceDefault = false ∧ field.combine?.isSome = false := by decide
  refine ⟨.set [.name "row"] (.number "1"), rfl, yields_of_value? (by decide +kernel), rfl, ?_⟩
  rintro ⟨field, hfield, hpath, hvolunteers⟩
  obtain ⟨hfree, hplain⟩ := hidle field hfield (by simpa [Action.path, eq_comm] using hpath)
  rcases hvolunteers with ⟨-, hforce⟩ | ⟨-, hstamp⟩ | ⟨-, hcombined⟩
  · simp [hfree] at hforce
  · cases hstamp
  · simp [hplain] at hcombined

/-- In a theatre the row and the seat have names of their own. -/
def SchemaOf.theatre : Schema Unit where
  attributes := [.plain "id" [.primitive .string],
    { AttributeOf.plain "row" [.primitive .number] with nativeAlias := some "line" },
    { AttributeOf.plain "seat" [.primitive .number] with
      nativeAlias := some "place"
      defaultValue := some (.literal (.number (.ofInt 1)))
      forceDefault := true }]
  keepUnknown := .disabled
  timestamps := none

theorem SchemaOf.build_theatre : build theatre.attributes .disabled none = .ok theatre :=
  rfl

/-- The mapper of the only model, which has the schema `SchemaOf.theatre`. -/
def Mapper.theatre : Mapper Unit :=
  ⟨⟨[⟨"Theatre", .theatre, none⟩]⟩, ⟨"Theatre", .theatre, none⟩⟩

theorem Mapper.update_accounts_for_requests_theatre :
    ∃ requested actions, theatre.scope.requestedChanges [("line", .number (.ofInt 3))] =
        .ok requested ∧
      Yields (theatre.scope.updateActions ⟨.update, .epoch, 0⟩ []
        [("line", .number (.ofInt 3))]) () actions () ∧
      ⟨"SET #a0 = :v0, #a1 = :v1", [("#a0", "row"), ("#a1", "seat")],
        [(":v0", .number "3"), (":v1", .number "1")]⟩ =
          CompiledExpression.ofPieces (Action.updatePieces actions) ∧
      (∀ asked ∈ requested, theatre.scope.lookup asked.path = .ok asked.target ∧
        ∃ action ∈ actions, action.path = asked.target.segments) ∧
      (∀ action ∈ actions, (∃ asked ∈ requested, action.path = asked.target.segments) ∨
        ∃ field ∈ theatre.model.schema.attributes, action.path = [.name field.name] ∧
          theatre.scope.Volunteers ⟨.update, .epoch, 0⟩ field) ∧
      ∀ asked : Change Unit,
        requested.filter (·.target.segments = asked.target.segments) = [asked] →
        (∀ field, asked.target.topLevel? = some field → field.combine? = none) →
        ∃ action, actions.filter (·.path = asked.target.segments) = [action] ∧
          asked.Answers theatre.scope ⟨.update, .epoch, 0⟩ [] action := by
  have hnames : theatre.model.schema.Addressable := ⟨by decide, by decide⟩
  exact update_accounts_for_requests (SchemaOf.wellFormed_of_build SchemaOf.build_theatre) hnames
    (yields_of_value? (by decide +kernel))

end ItemMapper
