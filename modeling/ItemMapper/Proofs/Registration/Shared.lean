import ItemMapper.Proofs.Typing.Apart
import ItemMapper.Proofs.Typing.HashKeys
import ItemMapper.Proofs.Typing.Moved

/-!
# Scopes over another registry

What a type means depends on the registry through the models that it refers to, and on nothing else
of it.  Take some types that one step into a type does not leave (`Registry.Closed`), and two
registries that know the same models under all names in them (`Registry.Shares`).  A scope can then
be moved to the other registry, `scope.rebase other`: it opens the same documents
(`Scope.enter?_rebase`), a value is read in the same ways (`Scope.readings_rebase`) with the same
scores (`Value.score_rebase`) and takes the same type, or fails with the same error
(`Scope.resolve_rebase`).

The registries may have different numbers of models, which bounds the search for hash keys.  That
makes no difference, since more steps find nothing more (`Registry.keyReadings_of_le`).
-/

namespace ItemMapper

variable {σ : Type}

/-! ## What registries share -/

/-- The types of all attributes are among some types. -/
def SchemaOf.Within (schema : Schema σ) (types : CandidateType σ → Prop) : Prop :=
  ∀ field ∈ schema.attributes, ∀ type ∈ field.types, types type

/-- Some types, which one step into a type does not leave. -/
structure Registry.Closed (registry : Registry σ) (types : CandidateType σ → Prop) : Prop where
  object : ∀ {schema}, types (.object schema) → schema.Within types
  element : ∀ {elements}, types (.array elements) → ∀ type ∈ elements, types type
  member : ∀ {element}, types (.set element) → types element
  model : ∀ {name model}, types (.model name) → registry.find? name = some model →
    model.schema.Within types

/-- Such types mean the same over another registry. -/
structure Registry.Shares (registry other : Registry σ) (types : CandidateType σ → Prop) : Prop
    extends registry.Closed types where
  find? : ∀ {name}, types (.model name) → other.find? name = registry.find? name

/-- The same root schema over another registry. -/
def Scope.rebase (scope : Scope σ) (other : Registry σ) : Scope σ :=
  ⟨other, scope.root⟩

def Reading.rebase (reading : Reading σ) (other : Registry σ) : Reading σ :=
  ⟨reading.scope.rebase other, reading.place, reading.type⟩

def Frame.rebase (frame : Frame σ) (other : Registry σ) : Frame σ :=
  ⟨frame.scope.rebase other, frame.place, frame.schema⟩

def Choice.rebase (choice : Choice σ) (other : Registry σ) : Choice σ :=
  ⟨choice.type, choice.reading.rebase other⟩

/-- A scope over a registry, with a root schema of some types. -/
structure Scope.In (scope : Scope σ) (registry : Registry σ) (types : CandidateType σ → Prop) :
    Prop where
  registry : scope.registry = registry
  root : scope.root.Within types

structure Reading.In (reading : Reading σ) (registry : Registry σ)
    (types : CandidateType σ → Prop) : Prop where
  scope : reading.scope.In registry types
  type : types reading.type

structure Frame.In (frame : Frame σ) (registry : Registry σ) (types : CandidateType σ → Prop) :
    Prop where
  scope : frame.scope.In registry types
  schema : frame.schema.Within types

theorem SchemaOf.Within.nativeAttribute? {schema : Schema σ} {types : CandidateType σ → Prop}
    (hwithin : schema.Within types) {name : String} {field : Attribute σ}
    (hfield : schema.nativeAttribute? name = some field) : ∀ type ∈ field.types, types type :=
  hwithin field (SchemaOf.mem_of_nativeAttribute? hfield)

theorem SchemaOf.Within.attribute? {schema : Schema σ} {types : CandidateType σ → Prop}
    (hwithin : schema.Within types) {name : String} {field : Attribute σ}
    (hfield : schema.attribute? name = some field) : ∀ type ∈ field.types, types type :=
  hwithin field (List.mem_of_find?_eq_some hfield)

section Shared

variable {registry other : Registry σ} {types : CandidateType σ → Prop} {scope : Scope σ}
  {place : Place} {candidates : List (CandidateType σ)} {isDocument : Bool}
  (hshares : registry.Shares other types)

include hshares

/-! ## Documents and hash keys -/

namespace Scope

theorem in_of_enter? (hscope : scope.In registry types) {type : CandidateType σ}
    (htype : types type) {frame : Frame σ} (henter : scope.enter? place type = some frame) :
    frame.In registry types := by
  obtain ⟨rfl, hroot⟩ := hscope
  cases type with
  | object schema =>
      obtain rfl := Option.some.inj henter
      exact ⟨⟨rfl, hroot⟩, hshares.object htype⟩
  | self =>
      obtain rfl := Option.some.inj henter
      exact ⟨⟨rfl, hroot⟩, hroot⟩
  | model name =>
      obtain ⟨model, hmodel, rfl⟩ := Option.map_eq_some_iff.mp henter
      have hschema := hshares.model htype hmodel
      exact ⟨⟨rfl, hschema⟩, hschema⟩
  | _ => simp [enter?] at henter

/-- The same document is opened. -/
theorem enter?_rebase (hscope : scope.In registry types) {type : CandidateType σ}
    (htype : types type) (place : Place) :
    (scope.rebase other).enter? place type = (scope.enter? place type).map (·.rebase other) := by
  obtain ⟨rfl, -⟩ := hscope
  cases type with
  | model name =>
      rw [enter?, enter?, Option.map_map]
      exact congrArg _ (hshares.find? htype)
  | _ => rfl

end Scope

namespace Registry

theorem within_of_keyLeads {schema : Schema σ} {type : CandidateType σ} {steps : Nat}
    {name : String} (hleads : registry.KeyLeads schema type steps name)
    (hname : types (.model name)) : schema.Within types ∧ types type := by
  induction hleads with
  | own hmodel hkey hschema htype =>
      subst hschema
      have hwithin := hshares.model hname hmodel
      exact ⟨hwithin, hwithin _ (Scope.mem_of_hashKey? hkey) _ htype⟩
  | next hmodel hkey hnext _ ih =>
      exact ih (hshares.model hname hmodel _ (Scope.mem_of_hashKey? hkey) _ hnext)

/-- With the same bound the search for hash keys goes the same ways. -/
theorem keyReadings_rebase (place : Place) (budget : Nat) : ∀ {way : List String} {name : String},
    types (.model name) →
      other.keyReadings place budget way name =
        (registry.keyReadings place budget way name).map (·.rebase other) := by
  induction budget with
  | zero => exact fun _ => rfl
  | succ budget ih =>
      intro way name hname
      rw [keyReadings, keyReadings, hshares.find? hname]
      split
      · rfl
      cases hmodel : registry.find? name with
      | none => rfl
      | some model =>
          dsimp only
          cases hkey : model.schema.hashKey? with
          | none => rfl
          | some field =>
              dsimp only
              rw [List.map_flatMap]
              refine List.flatMap_congr fun type htype => ?_
              cases type with
              | model next =>
                  exact ih (hshares.model hname hmodel _ (Scope.mem_of_hashKey? hkey) _ htype)
              | _ => rfl

end Registry

namespace Scope

theorem in_of_mem_readings (hscope : scope.In registry types) {type : CandidateType σ}
    (htype : types type) {reading : Reading σ}
    (hreading : reading ∈ scope.readings place isDocument type) : reading.In registry types := by
  obtain ⟨rfl, hroot⟩ := hscope
  obtain ⟨name, rfl, rfl⟩ | hreadings := readings_cases isDocument type
  · obtain ⟨hregistry, -, -, steps, hleads⟩ := Registry.mem_keyReadings_iff.mp hreading
    obtain ⟨hschema, hinner⟩ := Registry.within_of_keyLeads hshares hleads htype
    exact ⟨⟨hregistry, hschema⟩, hinner⟩
  · rw [hreadings] at hreading
    obtain rfl := List.mem_singleton.mp hreading
    exact ⟨⟨rfl, hroot⟩, htype⟩

/-- A value is read in the same ways. -/
theorem readings_rebase (hscope : scope.In registry types) {type : CandidateType σ}
    (htype : types type) (place : Place) (isDocument : Bool) :
    (scope.rebase other).readings place isDocument type =
      (scope.readings place isDocument type).map (·.rebase other) := by
  obtain ⟨rfl, -⟩ := hscope
  obtain ⟨name, rfl, rfl⟩ | hreadings := readings_cases isDocument type
  · -- both searches are given as many steps as both registries have models
    have hnear : scope.registry.models.length ≤
        scope.registry.models.length + other.models.length := Nat.le_add_right _ _
    have hfar : other.models.length ≤
        scope.registry.models.length + other.models.length := Nat.le_add_left _ _
    rw [readings, readings, ← Registry.keyReadings_of_le hnear]
    exact (Registry.keyReadings_of_le hfar).symm.trans
      (Registry.keyReadings_rebase hshares place _ htype)
  · rw [hreadings, hreadings]
    rfl

end Scope

/-! ## Scores -/

/-- What counts the same in both scopes gives the same scores for all readings. -/
theorem Scope.scores_rebase {score : Reading σ → Rat}
    (hscore : ∀ reading : Reading σ, reading.In registry types →
      score (reading.rebase other) = score reading)
    (hscope : scope.In registry types) (htypes : ∀ type ∈ candidates, types type) (place : Place)
    (isDocument : Bool) :
    (candidates.flatMap ((scope.rebase other).readings place isDocument)).map score =
      (candidates.flatMap (scope.readings place isDocument)).map score := by
  rw [List.map_flatMap, List.map_flatMap]
  refine List.flatMap_congr fun type htype => ?_
  rw [readings_rebase hshares hscope (htypes type htype), List.map_map]
  exact List.map_congr_left fun reading hreading =>
    hscore reading (in_of_mem_readings hshares hscope (htypes type htype) hreading)

namespace Value

variable (round : Rat → Rat)

mutual

/-- A native value has the same score over both registries. -/
theorem score_rebase : ∀ (value : Value) (reading : Reading σ), reading.In registry types →
    value.score round (reading.rebase other) = value.score round reading
  | .list items, ⟨scope, place, type⟩, hreading => by
      simp only [score, Reading.rebase]
      split
      · next elements => rw [itemScores_rebase items hreading.scope (hshares.element hreading.type)]
      · next element => rw [memberScores_rebase items hreading.scope (hshares.member hreading.type)]
      · rfl
  | .set members, ⟨scope, place, type⟩, hreading => by
      simp only [score, Reading.rebase]
      split
      · next element =>
          rw [memberScores_rebase members hreading.scope (hshares.member hreading.type)]
      · rfl
  | .map fields, ⟨scope, place, type⟩, hreading => by
      simp only [score, Reading.rebase, Reading.enter?]
      rw [Scope.enter?_rebase hshares hreading.scope hreading.type]
      cases hframe : scope.enter? place type with
      | none => rfl
      | some frame =>
          exact congrArg (Score.average round) (fieldScores_rebase fields
            (Scope.in_of_enter? hshares hreading.scope hreading.type hframe))
  | .undefined, _, _ | .null, _, _ | .bool _, _, _ | .number _, _, _ | .string _, _, _
  | .binary _, _, _ | .date _, _, _ => by simp only [score, Reading.rebase]

theorem itemScores_rebase : ∀ (items : List Value) {scope : Scope σ} {place : Place}
    {elements : List (CandidateType σ)} {index : Nat}, scope.In registry types →
      (∀ type ∈ elements, types type) →
        itemScores round (scope.rebase other) place elements index items =
          itemScores round scope place elements index items
  | [], _, _, _, _, _, _ => rfl
  | item :: rest, _, _, _, _, hscope, htypes => by
      rw [itemScores, itemScores, itemScores_rebase rest hscope htypes,
        Scope.scores_rebase hshares (score_rebase item) hscope htypes]

theorem memberScores_rebase : ∀ (members : List Value) {scope : Scope σ} {place : Place}
    {element : CandidateType σ}, scope.In registry types → types element →
        memberScores round (scope.rebase other) place element members =
          memberScores round scope place element members
  | [], _, _, _, _, _ => rfl
  | member :: rest, scope, place, element, hscope, htype => by
      have hscores := Scope.scores_rebase hshares (score_rebase member) hscope
        (List.forall_mem_singleton.mpr htype) place member.isDocument
      rw [List.flatMap_singleton, List.flatMap_singleton] at hscores
      rw [memberScores, memberScores, memberScores_rebase rest hscope htype, hscores]

theorem fieldScores_rebase : ∀ (fields : List (String × Value)) {frame : Frame σ},
    frame.In registry types → fieldScores round (frame.rebase other) fields =
      fieldScores round frame fields
  | [], _, _ => rfl
  | (key, value) :: rest, frame, hframe => by
      rw [fieldScores, fieldScores, fieldScores_rebase rest hframe]
      simp only [Frame.rebase]
      cases hfield : frame.schema.nativeAttribute? key with
      | none => rfl
      | some field =>
          dsimp only
          rw [Scope.scores_rebase hshares (score_rebase value) hframe.scope
            (hframe.schema.nativeAttribute? hfield)]

end

end Value

namespace WireValue

variable (round : Rat → Rat)

mutual

/-- A stored value has the same score over both registries. -/
theorem score_rebase : ∀ (stored : WireValue) (reading : Reading σ), reading.In registry types →
    stored.score round (reading.rebase other) = stored.score round reading
  | .list items, ⟨scope, place, type⟩, hreading => by
      simp only [score, Reading.rebase]
      split
      · next elements => rw [itemScores_rebase items hreading.scope (hshares.element hreading.type)]
      · rfl
  | .map fields, ⟨scope, place, type⟩, hreading => by
      simp only [score, Reading.rebase, Reading.enter?]
      rw [Scope.enter?_rebase hshares hreading.scope hreading.type]
      cases hframe : scope.enter? place type with
      | none => rfl
      | some frame =>
          exact congrArg (Score.average round) (fieldScores_rebase fields
            (Scope.in_of_enter? hshares hreading.scope hreading.type hframe))
  | .string _, _, _ | .number _, _, _ | .binary _, _, _ | .boolean _, _, _ | .null _, _, _
  | .stringSet _, _, _ | .numberSet _, _, _ | .binarySet _, _, _ => by
      simp only [score, Reading.rebase]

theorem itemScores_rebase : ∀ (items : List WireValue) {scope : Scope σ} {place : Place}
    {elements : List (CandidateType σ)} {index : Nat}, scope.In registry types →
      (∀ type ∈ elements, types type) →
        itemScores round (scope.rebase other) place elements index items =
          itemScores round scope place elements index items
  | [], _, _, _, _, _, _ => rfl
  | item :: rest, _, _, _, _, hscope, htypes => by
      rw [itemScores, itemScores, itemScores_rebase rest hscope htypes,
        Scope.scores_rebase hshares (score_rebase item) hscope htypes]

theorem fieldScores_rebase : ∀ (fields : List (String × WireValue)) {frame : Frame σ},
    frame.In registry types → fieldScores round (frame.rebase other) fields =
      fieldScores round frame fields
  | [], _, _ => rfl
  | (key, stored) :: rest, frame, hframe => by
      rw [fieldScores, fieldScores, fieldScores_rebase rest hframe]
      simp only [Frame.rebase]
      cases hfield : frame.schema.attribute? key with
      | none => rfl
      | some field =>
          dsimp only
          rw [Scope.scores_rebase hshares (score_rebase stored) hframe.scope
            (hframe.schema.attribute? hfield)]

end

end WireValue

end Shared

/-! ## Choices -/

section Shared

variable {registry other : Registry σ} {types : CandidateType σ → Prop} {scope : Scope σ}
  {place : Place} {candidates : List (CandidateType σ)} {isDocument : Bool}
  (hshares : registry.Shares other types)

namespace Scope

section Choices

variable (hscope : scope.In registry types) (htypes : ∀ type ∈ candidates, types type)

include hshares hscope htypes

theorem choices_rebase (place : Place) (isDocument : Bool) :
    (scope.rebase other).choices place candidates isDocument =
      (scope.choices place candidates isDocument).map (·.rebase other) := by
  rw [choices, choices, List.map_flatMap]
  refine List.flatMap_congr fun type htype => ?_
  rw [readings_rebase hshares hscope (htypes type htype), List.map_map, List.map_map]
  rfl

theorem choose?_rebase {score : Reading σ → Rat}
    (hscore : ∀ reading : Reading σ, reading.In registry types →
      score (reading.rebase other) = score reading) (place : Place) (isDocument : Bool) :
    (scope.rebase other).choose? place candidates isDocument score =
      (scope.choose? place candidates isDocument score).map (·.rebase other) := by
  have halternatives : ((scope.rebase other).choices place candidates isDocument).map
        (fun choice => (choice, score choice.reading)) =
      ((scope.choices place candidates isDocument).map fun choice =>
        (choice, score choice.reading)).map (Prod.map (·.rebase other) id) := by
    rw [choices_rebase hshares hscope htypes, List.map_map, List.map_map]
    refine List.map_congr_left fun choice hchoice => ?_
    obtain ⟨htype, hreading⟩ := mem_choices.mp hchoice
    exact congrArg (Prod.mk _)
      (hscore _ (in_of_mem_readings hshares hscope (htypes _ htype) hreading))
  rw [choose?, halternatives, Score.firstBest_map, choose?, Option.map_map, Option.map_map]
  rfl

/-- A native value takes the same type, or fails with the same error. -/
theorem resolve_rebase (place : Place) (value : Value) :
    (scope.rebase other).resolve place candidates value =
      (scope.resolve place candidates value).map (·.rebase other) := by
  rw [resolve, resolve,
    choose?_rebase hshares hscope htypes (Value.score_rebase hshares Score.rounded value)]
  cases scope.choose? place candidates value.isDocument (value.score Score.rounded) <;> rfl

theorem resolveStored_rebase (place : Place) (stored : WireValue) :
    (scope.rebase other).resolveStored place candidates stored =
      (scope.resolveStored place candidates stored).map (·.rebase other) := by
  rw [resolveStored, resolveStored,
    choose?_rebase hshares hscope htypes (WireValue.score_rebase hshares Score.rounded stored)]
  cases scope.choose? place candidates stored.isDocument (stored.score Score.rounded) <;> rfl

/-- What is chosen is one of the types, and is read within them. -/
theorem in_of_choose? {score : Reading σ → Rat} {choice : Choice σ}
    (hchoice : scope.choose? place candidates isDocument score = some choice) :
    choice.type ∈ candidates ∧ choice.reading.In registry types := by
  obtain ⟨htype, hreading⟩ := mem_choices.mp (of_choose? hchoice).1
  exact ⟨htype, in_of_mem_readings hshares hscope (htypes _ htype) hreading⟩

theorem in_of_resolve {value : Value} {choice : Choice σ}
    (hchoice : scope.resolve place candidates value = .ok choice) :
    choice.type ∈ candidates ∧ choice.reading.In registry types :=
  in_of_choose? hshares hscope htypes (resolve_eq_ok_iff.mp hchoice)

end Choices

end Scope

end Shared

/-! ## Undeclared data -/

/-- What is kept of undeclared data is a matter of the root schema. -/
theorem Scope.keepsAlike_rebase (scope : Scope σ) (other : Registry σ) :
    (scope.rebase other).KeepsAlike scope Eq where
  child hplaces key := congrArg (·.child key) hplaces
  unknownMatch hplaces := congrArg scope.unknownMatch hplaces

theorem Value.keep?_rebase (scope : Scope σ) (other : Registry σ) (place : Place) (value : Value) :
    value.keep? (scope.rebase other) place = value.keep? scope place :=
  value.keep?_alike (scope.keepsAlike_rebase other) rfl

theorem WireValue.keep?_rebase (scope : Scope σ) (other : Registry σ) (place : Place)
    (stored : WireValue) : stored.keep? (scope.rebase other) place = stored.keep? scope place :=
  stored.keep?_alike (scope.keepsAlike_rebase other) rfl

end ItemMapper
