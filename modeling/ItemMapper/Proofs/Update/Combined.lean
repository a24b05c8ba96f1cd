import ItemMapper.Proofs.Update.Overlaps

/-!
# What an update makes of a combined attribute

A combined attribute follows an update that rewrites one of its sources or assigns it.  Then the
update does exactly one thing with it, whatever else is requested: it assigns the joined text of
the sources as they are after the update, or it removes the attribute, and the latter only if none
of the sources has a value left (`update_combine_follows`).

What a source is after the update is told by the changes alone: `HasAfter` and `LacksAfter` look at
what is assigned and removed, and at the item as it was.  A change that adds to a source or deletes
from it is *not* followed, and the value before the update counts in its place.

Sources are plain, so the changes that say what becomes of them are still there at the end
(`Stages.sameAt_of_plain`), and the changes of a combined attribute are not (`Stages.filter_eq`).
-/

namespace ItemMapper

variable {σ : Type}

open Pipeline

namespace Scope

variable {scope : Scope σ} {writing : Writing} {current update : Document}
  {requested prepared implied changes : List (Change σ)} {actions : List Action}

/-! ## Values after an update -/

/-- After some changes the attribute has this value: they assign it, or it had it before and they
neither assign nor remove it. -/
def HasAfter (scope : Scope σ) (current : Document) (changes : List (Change σ)) (name : String)
    (value : Value) : Prop :=
  value.isUndefined = false ∧
    ((∃ change ∈ changes, change.concerns name = true ∧ change.request = .set value) ∨
      ((∀ change ∈ changes, change.concerns name = true → change.request.rewrites = false) ∧
        scope.currentValue? current name = some value))

/-- After some changes the attribute has no value: they remove it, or it had none before. -/
def LacksAfter (scope : Scope σ) (current : Document) (changes : List (Change σ))
    (name : String) : Prop :=
  (∃ change ∈ changes, change.concerns name = true ∧
      (change.request.isRemoval = true ∨
        ∃ value, change.request = .set value ∧ value.isUndefined = true)) ∨
    ∀ value, scope.currentValue? current name = some value → value.isUndefined = true

/-- The update gives the attribute with this name a value. -/
def Gives (scope : Scope σ) (writing : Writing) (requested : List (Change σ)) (name : String) :
    Prop :=
  (∃ change ∈ requested, change.concerns name = true ∧
      (change.request.assigned?.isSome = true ∨ change.restores = true)) ∨
    ∃ field ∈ scope.impliedFields writing requested, field.name = name

theorem exists_of_assignedValue? {name : String} {value : Value}
    (hassigned : assignedValue? changes name = some value) :
    ∃ change ∈ changes, change.concerns name = true ∧ change.request = .set value := by
  rw [assignedValue?] at hassigned
  obtain ⟨change, hchange, hvalue⟩ := List.exists_of_findSome?_eq_some hassigned
  split at hvalue
  case isTrue hconcerns =>
    refine ⟨change, hchange, hconcerns, ?_⟩
    cases hrequest : change.request <;> simp_all [Request.assigned?]
  case isFalse => simp at hvalue

theorem hasAfter_of_updatedValue? {name : String} {value : Value}
    (hvalue : scope.updatedValue? current changes name = some value) :
    scope.HasAfter current changes name value := by
  rw [updatedValue?, Option.filter_eq_some_iff, Option.or_eq_some_iff] at hvalue
  obtain ⟨hknown, hdefined⟩ := hvalue
  refine ⟨by simpa using hdefined, ?_⟩
  rcases hknown with hassigned | ⟨hunassigned, hkept⟩
  · exact .inl (exists_of_assignedValue? hassigned)
  · split at hkept
    case isTrue => simp at hkept
    case isFalse hremoved =>
      refine .inr ⟨fun change hchange hconcerns => ?_, hkept⟩
      rw [Bool.eq_false_iff]
      intro hrewrites
      rcases rewritten_iff.mpr ⟨change, hchange, hconcerns, hrewrites⟩ with hassigned | htaken
      · simp [hunassigned] at hassigned
      · exact hremoved htaken

theorem lacksAfter_of_updatedValue? {name : String}
    (hnone : scope.updatedValue? current changes name = none) :
    scope.LacksAfter current changes name := by
  rw [updatedValue?, Option.filter_eq_none_iff] at hnone
  cases hassigned : assignedValue? changes name with
  | some value =>
      obtain ⟨change, hchange, hconcerns, hrequest⟩ := exists_of_assignedValue? hassigned
      refine .inl ⟨change, hchange, hconcerns, .inr ⟨value, hrequest, ?_⟩⟩
      simpa using hnone value (by simp [hassigned])
  | none =>
      by_cases hremoved : isRemoved changes name = true
      · obtain ⟨change, hchange, hconcerns, hremoval⟩ := isRemoved_iff.mp hremoved
        exact .inl ⟨change, hchange, hconcerns, .inl hremoval⟩
      · refine .inr fun value hvalue => ?_
        simpa using hnone value (by simp [hassigned, hremoved, hvalue])

/-! ## The text of a combined attribute -/

/-- A text is stored as it is where a combined attribute is expected. -/
theorem stored_of_writeChosen {place : Place} {text separator : String} {sources : List String}
    {before after : σ} {stored : Option WireValue}
    (hrun : Yields ((Value.string text).writeChosen writing scope place
      [.combine sources separator] fun _ => none) before stored after) :
    stored = some (.string text) := by
  have hpositive : (0 : Rat) < 1 := by decide
  have hchoice : scope.resolve place [.combine sources separator] (.string text) =
      .ok ⟨.combine sources separator, ⟨scope, place, .combine sources separator⟩⟩ := by
    simp [resolve, choose?, choices, readings, Score.firstBest, Value.score, Value.scalarScore,
      Score.ofBool, hpositive]
  simp only [Value.writeChosen, hchoice] at hrun
  obtain ⟨hstored, -⟩ := yields_ofExcept.mp hrun
  exact (Except.ok.inj hstored).symm

/-- A recombined attribute is assigned its text or removed. -/
theorem action_of_recombines {field : Attribute σ} {change : Change σ} {action : Action}
    {earlier : List (Change σ)} (hchange : scope.Recombines current earlier field change)
    (hstores : change.Stores scope writing current action) :
    ∃ sources separator, field.combine? = some (sources, separator) ∧
      ((∃ values text,
          List.Forall₂ (fun source value => scope.updatedValue? current earlier source = some value)
            sources values ∧
          joinSources values separator field.name = .ok text ∧
          action = .set [.name field.name] (.string text)) ∨
        (action = .remove [.name field.name] ∧
          (∃ source ∈ sources, isRemoved earlier source = true) ∧
          ∀ source ∈ sources, scope.updatedValue? current earlier source = none)) := by
  obtain ⟨htarget, sources, separator, hcombine, hrequest⟩ := hchange
  obtain ⟨_, _, hrun⟩ := hstores
  refine ⟨sources, separator, hcombine, ?_⟩
  have htypes := AttributeOf.types_of_combine? hcombine
  unfold Change.action at hrun
  rcases hrequest with ⟨values, text, hvalues, htext, hrequest⟩ | ⟨hremoved, hnone, hrequest⟩
  · refine .inl ⟨values, text, hvalues, htext, ?_⟩
    simp only [hrequest, Change.assignment, htarget, ResolvedPath.ofAttribute, htypes] at hrun
    obtain ⟨stored, _, hstored, hrun⟩ := yields_bind.mp hrun
    -- the depth decides only how documents and lists are written
    obtain rfl : stored = some (.string text) := by
      cases hdepth : writing.depth <;> rw [hdepth] at hstored
      all_goals
        unfold Value.writerTo at hstored
        simp only [Value.writer] at hstored
        exact stored_of_writeChosen hstored
    obtain ⟨rfl, -⟩ := yields_pure.mp hrun
    rfl
  · simp only [hrequest, htarget, ResolvedPath.ofAttribute] at hrun
    obtain ⟨rfl, -⟩ := yields_pure.mp hrun
    exact .inr ⟨rfl, hremoved, hnone⟩

/-! ## The only action -/

namespace Stages

variable (h : Stages scope writing current update requested prepared implied changes actions)

include h

/-- Whether an attribute is assigned shows in the requested changes. -/
theorem gives_iff {name : String} :
    scope.Gives writing requested name ↔
      (assignedValue? (prepared ++ implied) name).isSome = true := by
  rw [isSome_assignedValue?_iff]
  apply Iff.symm
  apply h.exists_made_iff name
  · intro change prepared hprepares
    rw [hprepares.isSome_assigned?_eq, Bool.or_eq_true]
  · intro change value hrequest
    rw [hrequest]
    rfl

/-- What is left of the earlier changes begins with no recombined attribute. -/
theorem head_ne_of_besides {field : Attribute σ} {change : Change σ}
    (hschema : scope.root.WellFormed)
    (hfield : field ∈ scope.recombinedFields writing (prepared ++ implied))
    (hchange : change ∈
      besides (scope.recombinedFields writing (prepared ++ implied)) (prepared ++ implied)) :
    change.target.segments.head? ≠ some (.name field.name) := by
  obtain ⟨hmade, hkept⟩ := List.mem_filter.mp hchange
  rcases List.mem_append.mp hmade with hmade | hmade
  · obtain ⟨asked, hasked, hprepares⟩ := exists_related_right h.prepares hmade
    rw [hprepares.target_eq]
    refine h.not_startsAt_of_recombined hschema hfield (List.mem_filter.mpr ⟨hasked, ?_⟩)
    simpa only [hprepares.concerns_eq] using hkept
  · obtain ⟨given, -, htarget, -⟩ := exists_related_right h.implies hmade
    simp only [Change.concerns_of_ofAttribute htarget, Bool.not_eq_true', List.any_eq_false,
      beq_iff_eq] at hkept
    simpa [htarget, ResolvedPath.ofAttribute] using hkept field hfield

/-- All that is left of the changes of a recombined attribute is the one that recombines it. -/
theorem filter_eq {field : Attribute σ} (hschema : scope.root.WellFormed)
    (hfield : field ∈ scope.recombinedFields writing (prepared ++ implied)) :
    ∃ change action, scope.Recombines current (prepared ++ implied) field change ∧
      change.Stores scope writing current action ∧
      actions.filter (fun action => action.path.head? = some (.name field.name)) = [action] := by
  obtain ⟨followed, hchanges, hfollowed⟩ := h.follows
  have hdeclared : ∀ other ∈ scope.recombinedFields writing (prepared ++ implied),
      other ∈ scope.root.attributes := fun other hother => (mem_recombinedFields.mp hother).2.1
  have hearlier : ∀ change ∈
      besides (scope.recombinedFields writing (prepared ++ implied)) (prepared ++ implied),
      change.target.segments.head? ≠ some (.name field.name) :=
    fun change hchange => h.head_ne_of_besides hschema hfield hchange
  have hdistinct : (scope.recombinedFields writing (prepared ++ implied)).Nodup :=
    nodup_recombinedFields hschema
  set recombined := scope.recombinedFields writing (prepared ++ implied)
  -- the last changes are one for each recombined attribute, and names tell them apart
  have honly : recombined.filter (fun other => other.name = field.name) = [field] := by
    apply filter_eq_singleton hdistinct hfield
    intro other hother
    rw [decide_eq_true_eq]
    exact ⟨fun hname => hschema.eq_of_name_eq (hdeclared other hother) (hdeclared field hfield) hname,
      fun hother => by rw [hother]⟩
  have hlast : List.Forall₂ (scope.Recombines current (prepared ++ implied)) [field]
      (changes.filter fun change => change.target.segments.head? = some (.name field.name)) := by
    rw [hchanges, List.filter_append, List.filter_eq_nil_iff.mpr (by simpa using hearlier),
      List.nil_append, ← honly]
    refine List.rel_filter (fun other change hrecombines => ?_) hfollowed
    simp [hrecombines.1, ResolvedPath.ofAttribute]
  have hactions : List.Forall₂ (Change.Stores scope writing current)
      (changes.filter fun change => change.target.segments.head? = some (.name field.name))
      (actions.filter fun action => action.path.head? = some (.name field.name)) := by
    refine List.rel_filter (fun change action hstores => ?_) h.stores
    simp [hstores.path_eq]
  generalize changes.filter (fun change =>
    change.target.segments.head? = some (.name field.name)) = left at hlast hactions
  generalize actions.filter (fun action =>
    action.path.head? = some (.name field.name)) = leftActions at hactions ⊢
  -- a list related to one attribute is one change, and that is one action
  rcases hlast with _ | ⟨hrecombines, _ | _⟩
  rcases hactions with _ | ⟨hstores, _ | _⟩
  exact ⟨_, _, hrecombines, hstores, rfl⟩

end Stages

end Scope

/-! ## Compiled updates -/

/-- If an update settles a source of a combined attribute, or gives it a value itself, then it does
one thing with that attribute.  It assigns the joined values that all sources have after the
update, or it removes the attribute, and then no source has a value after the update. -/
theorem Mapper.update_combine_follows {mapper : Mapper σ} {writing : Writing}
    {current update : Document} {before after : σ} {compiled : CompiledExpression}
    (hschema : mapper.model.schema.WellFormed) (hnames : mapper.model.schema.Addressable)
    (hcombine : writing.options.combine = true)
    (hrun : Yields (mapper.update writing current update) before compiled after) :
    ∃ requested changes actions, mapper.scope.requestedChanges update = .ok requested ∧
      List.Forall₂ (Change.Stores mapper.scope writing current) changes actions ∧
      compiled = .ofPieces (Action.updatePieces actions) ∧
      ∀ field ∈ mapper.model.schema.attributes, ∀ sources separator,
        field.combine? = some (sources, separator) →
        (∃ source ∈ sources, mapper.scope.Settles writing requested source) ∨
          mapper.scope.Gives writing requested field.name →
        ∃ action,
          actions.filter (fun action => action.path.head? = some (.name field.name)) = [action] ∧
          ((∃ values text,
              List.Forall₂ (mapper.scope.HasAfter current changes) sources values ∧
              joinSources values separator field.name = .ok text ∧
              action = .set [.name field.name] (.string text)) ∨
            (action = .remove [.name field.name] ∧
              (∃ source ∈ sources, ∃ change ∈ changes, change.concerns source = true ∧
                change.request.isRemoval = true) ∧
              ∀ source ∈ sources, mapper.scope.LacksAfter current changes source)) := by
  obtain ⟨actions, hactions, hcompiled⟩ := Mapper.actions_of_yields_update hrun
  obtain ⟨requested, prepared, implied, changes, h⟩ :=
    Scope.stages_of_yields hschema hnames hactions
  refine ⟨requested, changes, actions, h.requests, h.stores, hcompiled, ?_⟩
  intro field hfield sources separator hfieldCombine hfollows
  rw [h.gives_iff] at hfollows
  have hrecombined : field ∈ mapper.scope.recombinedFields writing (prepared ++ implied) :=
    Scope.mem_recombinedFields.mpr ⟨hcombine, hfield,
      h.isRecombined_iff.mpr ⟨sources, separator, hfieldCombine, hfollows⟩⟩
  obtain ⟨change, action, hrecombines, hstores, honly⟩ := h.filter_eq hschema hrecombined
  obtain ⟨_, _, hsame, haction⟩ := Scope.action_of_recombines hrecombines hstores
  obtain ⟨rfl, rfl⟩ : sources = _ ∧ separator = _ := by simpa [hfieldCombine] using hsame
  -- the sources are plain, so the last changes still say what becomes of them
  have hplain : ∀ source ∈ sources, Scope.SameAt changes (prepared ++ implied) source := by
    intro source hsource
    apply h.sameAt_of_plain
    intro other hother hcombined hname
    exact (Scope.independent_attributes hschema).plainSources field hfield sources separator
      hfieldCombine other hother hcombined (hname ▸ hsource)
  refine ⟨action, honly, ?_⟩
  rcases haction with ⟨values, text, hvalues, htext, haction⟩ |
    ⟨haction, ⟨source, hsource, hremoved⟩, hnone⟩
  · refine .inl ⟨values, text, ?_, htext, haction⟩
    refine ((List.forall₂_and_left _ _).mpr ⟨hplain, hvalues⟩).imp ?_
    rintro source value ⟨hsame, hvalue⟩
    exact Scope.hasAfter_of_updatedValue? (hsame.updatedValue?_eq.trans hvalue)
  · refine .inr ⟨haction, ⟨source, hsource, ?_⟩, fun other hother => ?_⟩
    · exact Scope.isRemoved_iff.mp ((hplain source hsource).removed.trans hremoved)
    · exact Scope.lacksAfter_of_updatedValue?
        ((hplain other hother).updatedValue?_eq.trans (hnone other hother))

/-! ## A counter and its label -/

/-- The label repeats the count as text. -/
def SchemaOf.labelled : Schema Unit where
  attributes := [.plain "id" [.primitive .string], .plain "count" [.primitive .number],
    .plain "label" [.combine ["count"] "-"]]
  keepUnknown := .disabled
  timestamps := none

theorem SchemaOf.build_labelled : build labelled.attributes .disabled none = .ok labelled :=
  rfl

/-- The mapper of the only model, which has the schema `SchemaOf.labelled`. -/
def Mapper.labelled : Mapper Unit :=
  ⟨⟨[⟨"Counter", .labelled, none⟩]⟩, ⟨"Counter", .labelled, none⟩⟩

/-- What is added to a source is not followed, although the item is known. -/
theorem Mapper.update_leaves_label :
    ∃ actions,
      Yields (labelled.scope.updateActions ⟨.update, .epoch, 0⟩ [("count", .number (.ofInt 1))]
        [("$ADD", .map [("count", .number (.ofInt 1))])]) () actions () ∧
      actions = [.add [.name "count"] (.number "1")] ∧
      ∀ action ∈ actions, action.path.head? ≠ some (.name "label") :=
  ⟨[.add [.name "count"] (.number "1")], yields_of_value? (by decide +kernel), rfl, by
    simp [Action.path]⟩

theorem Mapper.update_combine_follows_labelled :
    (.save : MarshalOptions).combine = true ∧
    ∃ requested changes actions,
      labelled.scope.requestedChanges [("count", .number (.ofInt 2))] = .ok requested ∧
      List.Forall₂ (Change.Stores labelled.scope ⟨.save, .epoch, 0⟩ [("count", .number (.ofInt 1))])
        changes actions ∧
      ⟨"SET #a0 = :v0, #a1 = :v1", [("#a0", "count"), ("#a1", "label")],
          [(":v0", .number "2"), (":v1", .string "2")]⟩ =
        CompiledExpression.ofPieces (Action.updatePieces actions) ∧
      ∀ field ∈ SchemaOf.labelled.attributes, ∀ sources separator,
        field.combine? = some (sources, separator) →
        (∃ source ∈ sources, labelled.scope.Settles ⟨.save, .epoch, 0⟩ requested source) ∨
          labelled.scope.Gives ⟨.save, .epoch, 0⟩ requested field.name →
        ∃ action,
          actions.filter (fun action => action.path.head? = some (.name field.name)) = [action] ∧
          ((∃ values text,
              List.Forall₂ (labelled.scope.HasAfter [("count", .number (.ofInt 1))] changes) sources
                values ∧
              joinSources values separator field.name = .ok text ∧
              action = .set [.name field.name] (.string text)) ∨
            (action = .remove [.name field.name] ∧
              (∃ source ∈ sources, ∃ change ∈ changes, change.concerns source = true ∧
                change.request.isRemoval = true) ∧
              ∀ source ∈ sources,
                labelled.scope.LacksAfter [("count", .number (.ofInt 1))] changes source)) := by
  have hschema : labelled.model.schema.WellFormed :=
    SchemaOf.wellFormed_of_build SchemaOf.build_labelled
  refine ⟨rfl, update_combine_follows hschema (SchemaOf.addressable_of_noAlias hschema ?_) rfl
    (yields_of_value? (by decide +kernel))⟩
  rintro field (_ | ⟨_, _ | ⟨_, _ | ⟨_, ⟨⟩⟩⟩⟩) <;> rfl

end ItemMapper
