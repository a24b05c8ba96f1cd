import ItemMapper.Proofs.Update.Keys

/-!
# When the paths of an update overlap

An update whose requested paths do not overlap can still compile to one in which two paths do,
because what it implies is decided by the attributes that are requested *as a whole*.
`update_paths_apart_iff` says exactly when that happens.

* An implied attribute covers a path that is requested inside it (`CoversRequest`).
* An attribute has a forced default and holds the time of the update, and is assigned once for each
  (`ImpliedTwice`).  If it is combined as well, and combined attributes follow, its last assignment
  takes the place of the two.

Combined attributes overlap with nothing else: they replace what concerns them, and nothing lies
inside them.
-/

namespace ItemMapper

variable {σ : Type}

open Pipeline

namespace Scope

variable {scope : Scope σ} {writing : Writing} {current update : Document}
  {requested prepared implied changes : List (Change σ)} {actions : List Action}

/-! ## Two ways to an overlap -/

/-- An implied attribute is the beginning of a requested path. -/
def CoversRequest (scope : Scope σ) (writing : Writing) (requested : List (Change σ)) : Prop :=
  ∃ field ∈ scope.impliedFields writing requested, ∃ change ∈ requested, change.startsAt field.name

/-- An attribute is implied by its default and as the time of the update. -/
def ImpliedTwice (scope : Scope σ) (writing : Writing) (requested : List (Change σ)) : Prop :=
  ∃ field ∈ scope.root.attributes, scope.impliesDefault writing requested field = true ∧
    scope.impliesTime writing requested field = true ∧
      (writing.options.combine && field.combine?.isSome) = false

/-! ## There are no others -/

/-- An attribute that is implied twice is added twice: nothing recombines it. -/
theorem not_nodup_of_impliedTwice (hschema : scope.root.WellFormed)
    (htwice : scope.ImpliedTwice writing requested) :
    ¬ (scope.addedFields writing requested
      (scope.recombinedFields writing changes)).Nodup := by
  obtain ⟨field, hfield, hdefault, htime, hplain⟩ := htwice
  have hfree : ∀ other ∈ scope.recombinedFields writing changes,
      field.name ≠ other.name := by
    intro other hother hname
    obtain ⟨hcombine, hdeclared, hactive⟩ := mem_recombinedFields.mp hother
    obtain rfl := hschema.eq_of_name_eq hfield hdeclared hname
    simp only [hcombine, Bool.true_and, Option.isSome_eq_false_iff, Option.isNone_iff_eq_none]
      at hplain
    simp [isRecombined, hplain] at hactive
  -- it stands in both halves of the implied attributes
  intro hnodup
  rw [addedFields, impliedFields, List.filter_append, List.nodup_append, List.nodup_append]
    at hnodup
  exact hnodup.1.2.2 field (by simpa [hfield, hdefault] using hfree) field
    (by simpa [hfield, htime] using hfree) rfl

namespace Stages

variable (h : Stages scope writing current update requested prepared implied changes actions)

include h

/-- An implied combined attribute is recombined. -/
theorem recombined_of_implied {field : Attribute σ}
    (hfield : field ∈ scope.impliedFields writing requested)
    (hcombined : (writing.options.combine && field.combine?.isSome) = true) :
    field ∈ scope.recombinedFields writing (prepared ++ implied) := by
  rw [Bool.and_eq_true, Option.isSome_iff_exists] at hcombined
  obtain ⟨hcombine, ⟨sources, separator⟩, hfieldCombine⟩ := hcombined
  obtain ⟨change, hchange, htarget, value, hrequest⟩ := exists_related_left h.implies hfield
  refine mem_recombinedFields.mpr ⟨hcombine, (mem_impliedFields.mp hfield).1,
    h.isRecombined_iff.mpr ⟨sources, separator, hfieldCombine, .inr ?_⟩⟩
  refine isSome_assignedValue?_iff.mpr ⟨change, by simp [hchange],
    (Change.concerns_iff_of_ofAttribute htarget).mpr rfl, by simp [hrequest, Request.assigned?]⟩

/-- An implied attribute inside of which something is requested is not recombined. -/
theorem added_of_covers {field : Attribute σ} {change : Change σ}
    (hschema : scope.root.WellFormed) (hfield : field ∈ scope.impliedFields writing requested)
    (hchange : change ∈ requested) (hstart : change.startsAt field.name) :
    field ∈ scope.addedFields writing requested
      (scope.recombinedFields writing (prepared ++ implied)) := by
  have hdeclared := (mem_impliedFields.mp hfield).1
  -- nothing lies inside a combined attribute, so this one is plain
  have hplain := Change.combine?_eq_none_of_startsAt hschema
    (of_requestedChanges h.requests change hchange).1 hdeclared hstart
    (not_concerns_of_implied hfield change hchange)
  refine mem_addedFields.mpr (.inl ⟨hfield, fun other hother hname => ?_⟩)
  obtain ⟨-, hotherDeclared, hactive⟩ := mem_recombinedFields.mp hother
  obtain rfl := hschema.eq_of_name_eq hdeclared hotherDeclared hname
  simp [isRecombined, hplain] at hactive

/-- A recombined attribute is never the beginning of a requested path that is kept. -/
theorem not_startsAt_of_recombined {field : Attribute σ} {change : Change σ}
    (hschema : scope.root.WellFormed)
    (hfield : field ∈ scope.recombinedFields writing (prepared ++ implied))
    (hchange : change ∈ besides (scope.recombinedFields writing (prepared ++ implied)) requested) :
    ¬ change.startsAt field.name := by
  intro hstart
  obtain ⟨hmem, hkept⟩ := List.mem_filter.mp hchange
  obtain ⟨-, hdeclared, hactive⟩ := mem_recombinedFields.mp hfield
  have hinside : change.concerns field.name = false := by
    simp only [Bool.not_eq_true', List.any_eq_false, Bool.not_eq_true] at hkept
    exact hkept field hfield
  have hplain := Change.combine?_eq_none_of_startsAt hschema
    (of_requestedChanges h.requests change hmem).1 hdeclared hstart hinside
  simp [isRecombined, hplain] at hactive

/-- The requested paths that are kept begin with no added attribute exactly when no implied one
covers a requested path. -/
theorem forall_not_startsAt_iff (hschema : scope.root.WellFormed) :
    (∀ change ∈ besides (scope.recombinedFields writing (prepared ++ implied)) requested,
        ∀ field ∈ scope.addedFields writing requested
          (scope.recombinedFields writing (prepared ++ implied)), ¬ change.startsAt field.name) ↔
      ¬ scope.CoversRequest writing requested := by
  constructor
  · rintro hnone ⟨field, hfield, change, hchange, hstart⟩
    have hinside := not_concerns_of_implied hfield change hchange
    exact hnone change (h.mem_besides_of_inside hchange hstart hinside) field
      (h.added_of_covers hschema hfield hchange hstart) hstart
  · intro hcovers change hchange field hfield hstart
    rcases mem_addedFields.mp hfield with ⟨himplied, -⟩ | hrecombined
    · exact hcovers ⟨field, himplied, change, (List.mem_filter.mp hchange).1, hstart⟩
    · exact h.not_startsAt_of_recombined hschema hrecombined hchange hstart

/-- Without such an attribute, each added one is added once. -/
theorem nodup_of_not_impliedTwice (hschema : scope.root.WellFormed)
    (honce : ¬ scope.ImpliedTwice writing requested) :
    (scope.addedFields writing requested
      (scope.recombinedFields writing (prepared ++ implied))).Nodup := by
  have hattributes := hschema.nodup_attributes
  rw [addedFields, List.nodup_append]
  refine ⟨?_, nodup_recombinedFields hschema, ?_⟩
  · rw [impliedFields, List.filter_append, List.nodup_append]
    refine ⟨(hattributes.filter _).filter _, (hattributes.filter _).filter _, ?_⟩
    -- an attribute in both halves would be implied twice, unless it is recombined
    rintro field hdefault other htime rfl
    simp only [List.mem_filter] at hdefault htime
    obtain ⟨⟨hfield, hdefault⟩, hfree⟩ := hdefault
    have hplain : (writing.options.combine && field.combine?.isSome) = false := by
      rw [Bool.eq_false_iff]
      intro hcombined
      have hrecombined :=
        h.recombined_of_implied (mem_impliedFields.mpr ⟨hfield, .inl hdefault⟩) hcombined
      simp only [Bool.not_eq_true', List.any_eq_false] at hfree
      exact hfree field hrecombined (by simp)
    exact honce ⟨field, hfield, hdefault, htime.1.2, hplain⟩
  · rintro field himplied other hother rfl
    have hfree := (List.mem_filter.mp himplied).2
    simp only [Bool.not_eq_true', List.any_eq_false] at hfree
    exact hfree field hother (by simp)

/-- The added attributes have different names exactly when none is implied twice. -/
theorem nodup_added_iff (hschema : scope.root.WellFormed) :
    ((scope.addedFields writing requested
        (scope.recombinedFields writing (prepared ++ implied))).map AttributeOf.name).Nodup ↔
      ¬ scope.ImpliedTwice writing requested := by
  constructor
  · exact fun hnodup htwice => not_nodup_of_impliedTwice hschema htwice hnodup.of_map
  · intro honce
    refine (h.nodup_of_not_impliedTwice hschema honce).map_on ?_
    intro first hfirst second hsecond hname
    exact hschema.eq_of_name_eq (mem_attributes_of_added hfirst) (mem_attributes_of_added hsecond)
      hname

/-- The paths of the changes are apart exactly when nothing is covered and nothing implied twice. -/
theorem pairwise_apart_iff (hschema : scope.root.WellFormed)
    (hrequested : (requested.map (·.target.segments)).Pairwise Segment.Apart) :
    (changes.map (·.target.segments)).Pairwise Segment.Apart ↔
      ¬ (scope.CoversRequest writing requested ∨ scope.ImpliedTwice writing requested) := by
  rw [not_or, ← h.forall_not_startsAt_iff hschema, ← h.nodup_added_iff hschema, h.changes_segments,
    List.pairwise_append]
  set recombined := scope.recombinedFields writing (prepared ++ implied)
  -- kept paths among themselves, added paths among themselves, and one against the other
  have hkept : ((besides recombined requested).map (·.target.segments)).Pairwise Segment.Apart :=
    hrequested.sublist (List.filter_sublist.map _)
  have hadded : ((scope.addedFields writing requested recombined).map
        fun field => [Segment.name field.name]).Pairwise Segment.Apart ↔
      ((scope.addedFields writing requested recombined).map AttributeOf.name).Nodup := by
    rw [List.Nodup, List.pairwise_map, List.pairwise_map]
    simp [Segment.apart_singleton, eq_comm]
  have hcross : (∀ path ∈ (besides recombined requested).map (·.target.segments),
        ∀ other ∈ (scope.addedFields writing requested recombined).map
          fun field => [Segment.name field.name], Segment.Apart path other) ↔
      ∀ change ∈ besides recombined requested,
        ∀ field ∈ scope.addedFields writing requested recombined,
          ¬ change.startsAt field.name := by
    simp only [List.forall_mem_map]
    refine forall₂_congr fun change hchange => forall₂_congr fun field hfield => ?_
    have hsegments := segments_ne_nil
      (of_requestedChanges h.requests change (List.mem_filter.mp hchange).1).1
    exact ⟨fun hapart => (Segment.apart_singleton hsegments).mp hapart.symm,
      fun hstart => ((Segment.apart_singleton hsegments).mpr hstart).symm⟩
  rw [hadded, hcross]
  exact ⟨fun ⟨_, hnodup, hfree⟩ => ⟨hfree, hnodup⟩, fun ⟨hfree, hnodup⟩ => ⟨hkept, hnodup, hfree⟩⟩

end Stages

end Scope

/-! ## Compiled updates -/

/-- If the requested paths do not overlap, those of the compiled update do not overlap either,
except for an implied attribute inside of which something is requested, and one that is implied
twice. -/
theorem Mapper.update_paths_apart_iff {mapper : Mapper σ} {writing : Writing}
    {current update : Document} {before after : σ} {compiled : CompiledExpression}
    (hschema : mapper.model.schema.WellFormed) (hnames : mapper.model.schema.Addressable)
    (hrun : Yields (mapper.update writing current update) before compiled after) :
    ∃ requested actions, mapper.scope.requestedChanges update = .ok requested ∧
      Yields (mapper.scope.updateActions writing current update) before actions after ∧
      compiled = .ofPieces (Action.updatePieces actions) ∧
      ((requested.map (·.target.segments)).Pairwise Segment.Apart →
        ((actions.map Action.path).Pairwise Segment.Apart ↔
          ¬ (mapper.scope.CoversRequest writing requested ∨
            mapper.scope.ImpliedTwice writing requested))) := by
  obtain ⟨actions, hactions, hcompiled⟩ := Mapper.actions_of_yields_update hrun
  obtain ⟨requested, prepared, implied, changes, hstages⟩ :=
    Scope.stages_of_yields hschema hnames hactions
  refine ⟨requested, actions, hstages.requests, hactions, hcompiled, fun hapart => ?_⟩
  rw [hstages.path_eq]
  exact hstages.pairwise_apart_iff hschema hapart

/-! ## A forced default around a request -/

/-- The whole of `point` is set again with every update. -/
def SchemaOf.forcedPoint : Schema Unit where
  attributes := [.plain "id" [.primitive .string],
    { AttributeOf.plain "point" [.object ⟨[.plain "x" [.primitive .number]], .disabled, none⟩] with
      defaultValue := some (.literal (.map [("x", .number (.ofInt 1))]))
      forceDefault := true }]
  keepUnknown := .disabled
  timestamps := none

theorem SchemaOf.build_forcedPoint :
    build forcedPoint.attributes .disabled none = .ok forcedPoint :=
  rfl

/-- The mapper of the only model, which has the schema `SchemaOf.forcedPoint`. -/
def Mapper.forcedPoint : Mapper Unit :=
  ⟨⟨[⟨"Shape", .forcedPoint, none⟩]⟩, ⟨"Shape", .forcedPoint, none⟩⟩

/-- A request for `point.x` alone compiles to an assignment of `point.x` and one of `point`. -/
theorem Mapper.update_paths_overlap :
    ∃ requested actions,
      forcedPoint.scope.requestedChanges [("point.x", .number (.ofInt 2))] = .ok requested ∧
      Yields (forcedPoint.scope.updateActions ⟨.update, .epoch, 0⟩ []
        [("point.x", .number (.ofInt 2))]) () actions () ∧
      (requested.map (·.target.segments)).Pairwise Segment.Apart ∧
      ¬ (actions.map Action.path).Pairwise Segment.Apart := by
  have hsegments : (forcedPoint.scope.requestedChanges [("point.x", .number (.ofInt 2))]).toOption.map
      (List.map (·.target.segments)) = some [[.name "point", .name "x"]] := by decide +kernel
  obtain ⟨requested, hrequested, hsegments⟩ := Option.map_eq_some_iff.mp hsegments
  refine ⟨requested,
    [.set [.name "point", .name "x"] (.number "2"),
      .set [.name "point"] (.map [("x", .number "1")])],
    Except.toOption_eq_some.mp hrequested, yields_of_value? (by decide +kernel), ?_, ?_⟩
  · rw [hsegments]
    exact List.pairwise_singleton _ _
  · simp [Action.path, Segment.Apart]

theorem Mapper.update_paths_apart_forcedPoint :
    ∃ requested actions,
      forcedPoint.scope.requestedChanges [("point.x", .number (.ofInt 2))] = .ok requested ∧
      Yields (forcedPoint.scope.updateActions ⟨.update, .epoch, 0⟩ []
        [("point.x", .number (.ofInt 2))]) () actions () ∧
      ⟨"SET #a0.#a1 = :v0, #a0 = :v1", [("#a0", "point"), ("#a1", "x")],
          [(":v0", .number "2"), (":v1", .map [("x", .number "1")])]⟩ =
        CompiledExpression.ofPieces (Action.updatePieces actions) ∧
      ((requested.map (·.target.segments)).Pairwise Segment.Apart →
        ((actions.map Action.path).Pairwise Segment.Apart ↔
          ¬ (forcedPoint.scope.CoversRequest ⟨.update, .epoch, 0⟩ requested ∨
            forcedPoint.scope.ImpliedTwice ⟨.update, .epoch, 0⟩ requested))) := by
  have hschema : forcedPoint.model.schema.WellFormed :=
    SchemaOf.wellFormed_of_build SchemaOf.build_forcedPoint
  refine update_paths_apart_iff hschema (SchemaOf.addressable_of_noAlias hschema ?_)
    (yields_of_value? (by decide +kernel))
  rintro field (_ | ⟨_, _ | ⟨_, ⟨⟩⟩⟩) <;> rfl

end ItemMapper
