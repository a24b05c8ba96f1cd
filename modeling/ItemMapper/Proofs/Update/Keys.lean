import ItemMapper.Mapper
import ItemMapper.Proofs.Update.Stages

/-!
# When an update touches a key

The requested changes are checked: none of them may be one of a key.  The check looks at attributes
as a whole, though, and the changes that the update implies are made later.  `update_touches_key_iff`
says exactly when a compiled update has a path that begins with a key after all.

* A requested path leads *inside* a key (`RequestsInsideKey`).
* The time of the update is recorded in a key (`StampsKey`).  Forced defaults, by contrast, leave
  keys alone.
* A key is combined from other attributes, and one of these is settled (`RecombinesKey`).

None of the three depends on the item as it was, nor on the functions of the application.
-/

namespace ItemMapper

variable {σ : Type}

open Pipeline

/-- A compiled update is the text of its actions. -/
theorem Mapper.actions_of_yields_update {mapper : Mapper σ} {writing : Writing}
    {current update : Document} {before after : σ} {compiled : CompiledExpression}
    (hrun : Yields (mapper.update writing current update) before compiled after) :
    ∃ actions, Yields (mapper.scope.updateActions writing current update) before actions after ∧
      compiled = .ofPieces (Action.updatePieces actions) := by
  unfold Mapper.update Scope.compileUpdate at hrun
  obtain ⟨actions, _, hactions, hrun⟩ := yields_bind.mp hrun
  obtain ⟨rfl, rfl⟩ := yields_pure.mp hrun
  exact ⟨actions, hactions, rfl⟩

namespace Scope

variable {scope : Scope σ} {writing : Writing} {current update : Document}
  {requested prepared implied changes : List (Change σ)} {actions : List Action}

/-! ## Three ways to a key -/

/-- A requested path begins with a key.  It then leads inside it. -/
def RequestsInsideKey (scope : Scope σ) (requested : List (Change σ)) : Prop :=
  ∃ change ∈ requested, ∃ name, scope.root.isKey name = true ∧ change.startsAt name

/-- The time of the update is recorded in a key. -/
def StampsKey (scope : Scope σ) (writing : Writing) (requested : List (Change σ)) : Prop :=
  ∃ field ∈ scope.root.attributes, scope.root.isKey field.name = true ∧
    scope.impliesTime writing requested field = true

/-- A source of a combined key is settled. -/
def RecombinesKey (scope : Scope σ) (writing : Writing) (requested : List (Change σ)) : Prop :=
  writing.options.combine = true ∧
    ∃ field ∈ scope.root.attributes, scope.root.isKey field.name = true ∧
      ∃ sources separator, field.combine? = some (sources, separator) ∧
        ∃ source ∈ sources, scope.Settles writing requested source

/-! ## There are no others -/

/-- Only the time of the update is implied for a key. -/
theorem impliesTime_of_isKey {field : Attribute σ}
    (himplied : field ∈ scope.impliedFields writing requested)
    (hkey : scope.root.isKey field.name = true) :
    scope.impliesTime writing requested field = true := by
  rcases (mem_impliedFields.mp himplied).2 with hdefault | htime
  · simp [impliesDefault, hkey] at hdefault
  · exact htime

namespace Stages

variable (h : Stages scope writing current update requested prepared implied changes actions)

include h

/-- A key that is settled is the one with the time of the update. -/
theorem stampsKey_of_settles {name : String} (hkey : scope.root.isKey name = true)
    (hsettles : scope.Settles writing requested name) : scope.StampsKey writing requested := by
  rcases hsettles with ⟨change, hchange, hconcerns, -⟩ | ⟨field, hfield, rfl⟩
  · have hfree := (of_requestedChanges h.requests change hchange).2 name hkey
    simp [hfree] at hconcerns
  · exact ⟨field, (mem_impliedFields.mp hfield).1, hkey, impliesTime_of_isKey hfield hkey⟩

/-- A combined key that follows does so for a source, or because it holds the time. -/
theorem of_recombined_key {field : Attribute σ}
    (hfield : field ∈ scope.recombinedFields writing (prepared ++ implied))
    (hkey : scope.root.isKey field.name = true) :
    scope.StampsKey writing requested ∨ scope.RecombinesKey writing requested := by
  obtain ⟨hcombine, hdeclared, hrecombined⟩ := mem_recombinedFields.mp hfield
  obtain ⟨sources, separator, hfieldCombine, hsource | hown⟩ := h.isRecombined_iff.mp hrecombined
  · exact .inr ⟨hcombine, field, hdeclared, hkey, sources, separator, hfieldCombine, hsource⟩
  · exact .inl (h.stampsKey_of_settles hkey (h.settles_iff.mpr (.inl hown)))

theorem changes_touch_key_iff :
    (∃ path ∈ changes.map (·.target.segments), ∃ name, scope.root.isKey name = true ∧
        path.head? = some (.name name)) ↔
      scope.RequestsInsideKey requested ∨ scope.StampsKey writing requested ∨
        scope.RecombinesKey writing requested := by
  constructor
  · rw [h.changes_segments]
    rintro ⟨path, hpath, name, hkey, hhead⟩
    simp only [List.mem_append, List.mem_map, besides, List.mem_filter] at hpath
    rcases hpath with ⟨change, ⟨hchange, -⟩, rfl⟩ | ⟨field, hfield, rfl⟩
    · exact .inl ⟨change, hchange, name, hkey, hhead⟩
    · obtain rfl : field.name = name := by simpa using hhead
      rcases mem_addedFields.mp hfield with ⟨hfield, -⟩ | hfield
      · exact .inr (.inl ⟨field, (mem_impliedFields.mp hfield).1, hkey,
          impliesTime_of_isKey hfield hkey⟩)
      · exact .inr (h.of_recombined_key hfield hkey)
  · rintro (⟨change, hchange, name, hkey, hstart⟩ | ⟨field, hfield, hkey, htime⟩ |
      ⟨hcombine, field, hfield, hkey, sources, separator, hfieldCombine, hsource⟩)
    -- the change lies inside the key, so no other change takes its place
    · have hinside := (of_requestedChanges h.requests change hchange).2 name hkey
      refine ⟨change.target.segments, ?_, name, hkey, hstart⟩
      rw [h.changes_segments]
      exact List.mem_append_left _
        (List.mem_map_of_mem (h.mem_besides_of_inside hchange hstart hinside))
    -- if the key is combined as well, it is still added, as a recombined attribute
    · obtain ⟨added, hadded, hname⟩ :=
        exists_added_of_implied (mem_impliedFields.mpr ⟨hfield, .inr htime⟩)
      exact ⟨_, h.segments_of_added hadded, field.name, hkey, by rw [hname]; rfl⟩
    · have hrecombined : field ∈ scope.recombinedFields writing (prepared ++ implied) :=
        mem_recombinedFields.mpr ⟨hcombine, hfield,
          h.isRecombined_iff.mpr ⟨sources, separator, hfieldCombine, .inl hsource⟩⟩
      exact ⟨_, h.segments_of_added (mem_addedFields.mpr (.inr hrecombined)), field.name, hkey,
        rfl⟩

end Stages

end Scope

/-! ## Compiled updates -/

/-- A compiled update has a path that begins with a key exactly when a requested path leads inside
one, the time of the update is recorded in one, or a combined one follows its sources. -/
theorem Mapper.update_touches_key_iff {mapper : Mapper σ} {writing : Writing}
    {current update : Document} {before after : σ} {compiled : CompiledExpression}
    (hschema : mapper.model.schema.WellFormed) (hnames : mapper.model.schema.Addressable)
    (hrun : Yields (mapper.update writing current update) before compiled after) :
    ∃ requested actions, mapper.scope.requestedChanges update = .ok requested ∧
      Yields (mapper.scope.updateActions writing current update) before actions after ∧
      compiled = .ofPieces (Action.updatePieces actions) ∧
      ((∃ path, Piece.path path ∈ Action.updatePieces actions ∧
          ∃ name, mapper.model.schema.isKey name = true ∧ path.head? = some (.name name)) ↔
        mapper.scope.RequestsInsideKey requested ∨ mapper.scope.StampsKey writing requested ∨
          mapper.scope.RecombinesKey writing requested) := by
  obtain ⟨actions, hactions, hcompiled⟩ := Mapper.actions_of_yields_update hrun
  obtain ⟨requested, prepared, implied, changes, hstages⟩ :=
    Scope.stages_of_yields hschema hnames hactions
  refine ⟨requested, actions, hstages.requests, hactions, hcompiled, ?_⟩
  rw [← hstages.changes_touch_key_iff, ← hstages.path_eq]
  simp only [Action.mem_updatePieces_path, List.mem_map]
  rfl

/-! ## A range key that holds the time of the update -/

/-- Items are told apart by the time at which they were last updated. -/
def SchemaOf.stampedRange : Schema Unit where
  attributes := [.plain "id" [.primitive .string],
    { AttributeOf.plain "updatedAt" [.date .milliseconds] with key := some .range }]
  keepUnknown := .disabled
  timestamps := some ⟨none, some "updatedAt", .milliseconds⟩

theorem SchemaOf.build_stampedRange :
    build stampedRange.attributes .disabled stampedRange.timestamps = .ok stampedRange :=
  rfl

/-- The mapper of the only model, which has the schema `SchemaOf.stampedRange`. -/
def Mapper.stampedRange : Mapper Unit :=
  ⟨⟨[⟨"Event", .stampedRange, none⟩]⟩, ⟨"Event", .stampedRange, none⟩⟩

/-- The update that asks for nothing assigns the range key. -/
theorem Mapper.update_sets_range_key :
    ∃ action, Yields (stampedRange.scope.updateActions ⟨.update, .epoch, 0⟩ [] []) () [action] () ∧
      ∃ path, Piece.path path ∈ Action.updatePieces [action] ∧
        ∃ name, stampedRange.model.schema.isKey name = true ∧ path.head? = some (.name name) :=
  ⟨.set [.name "updatedAt"] (.number "0"), yields_of_value? (by decide +kernel),
    [.name "updatedAt"], Action.mem_updatePieces_path.mpr ⟨_, List.mem_singleton_self _, rfl⟩,
    "updatedAt", by decide, rfl⟩

theorem Mapper.update_touches_key_stampedRange :
    ∃ requested actions, stampedRange.scope.requestedChanges [] = .ok requested ∧
      Yields (stampedRange.scope.updateActions ⟨.update, .epoch, 0⟩ [] []) () actions () ∧
      ⟨"SET #a0 = :v0", [("#a0", "updatedAt")], [(":v0", .number "0")]⟩ =
        CompiledExpression.ofPieces (Action.updatePieces actions) ∧
      ((∃ path, Piece.path path ∈ Action.updatePieces actions ∧
          ∃ name, stampedRange.model.schema.isKey name = true ∧ path.head? = some (.name name)) ↔
        stampedRange.scope.RequestsInsideKey requested ∨
          stampedRange.scope.StampsKey ⟨.update, .epoch, 0⟩ requested ∨
          stampedRange.scope.RecombinesKey ⟨.update, .epoch, 0⟩ requested) := by
  have hschema : stampedRange.model.schema.WellFormed :=
    SchemaOf.wellFormed_of_build SchemaOf.build_stampedRange
  refine update_touches_key_iff hschema (SchemaOf.addressable_of_noAlias hschema ?_)
    (yields_of_value? (by decide +kernel))
  rintro field (_ | ⟨_, _ | ⟨_, ⟨⟩⟩⟩) <;> rfl

end ItemMapper
