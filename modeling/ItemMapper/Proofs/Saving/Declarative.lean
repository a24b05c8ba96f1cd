import ItemMapper.Proofs.Lasting.Documents
import ItemMapper.Proofs.Saving.Stages
import ItemMapper.Proofs.Typing.Elsewhere

/-!
# Declarative schemas

A schema is declarative if saving a document with it runs no function of the application: values
are neither modified nor checked but for their types, defaults are given as values, native names
are stored names, and undeclared data is dropped (`Scope.Declarative`).  Each attribute has one
candidate type.

Where undeclared data is dropped everywhere, places matter for messages only
(`Scope.Declarative.blindTo`): a value takes the same type at every place
(`Scope.Declarative.resolve_at`).
-/

namespace ItemMapper

variable {σ : Type}

namespace Scope

/-- Saving runs no function of the application and drops undeclared data, in every schema that can
be reached.  Each attribute has one type, and the items of a list have types that are told apart.
The schemas are those that can be built, so that sets hold scalars. -/
structure Declarative (start : Scope σ) : Prop where
  wellFormed : ∀ scope schema, start.Reaches scope schema → schema.WellFormed
  scalarSets : ∀ scope element, start.Uses scope (.set element) → element.isSetElement = true
  disabled : ∀ scope schema, start.Reaches scope schema → schema.keepUnknown = .disabled
  noAlias : ∀ scope schema, start.Reaches scope schema →
    ∀ field ∈ schema.attributes, field.nativeAlias = none
  oneType : ∀ scope schema, start.Reaches scope schema →
    ∀ field ∈ schema.attributes, ∃ type, field.types = [type]
  elements : ∀ scope elements, start.Uses scope (.array elements) → scope.ToldApart elements
  scalarKeys : ∀ scope name, start.Uses scope (.model name) → ∀ place,
    ∀ reading ∈ scope.readings place false (.model name), ∀ elements,
      reading.type ≠ .array elements
  literal : ∀ scope schema, start.Reaches scope schema → ∀ field ∈ schema.attributes, field.Literal

namespace Declarative

variable {start : Scope σ} (hstart : start.Declarative)

include hstart

theorem root_disabled {scope : Scope σ} {schema : Schema σ}
    (hreaches : start.Reaches scope schema) : scope.root.keepUnknown = .disabled := by
  obtain ⟨other, hroot⟩ := ((closed_covers start).of_reaches hreaches).2.root
  exact hstart.disabled other _ hroot

theorem unknownMatch_eq {scope : Scope σ} {schema : Schema σ}
    (hreaches : start.Reaches scope schema) (place : Place) :
    scope.unknownMatch place = .outside := by
  rw [unknownMatch, hstart.root_disabled hreaches, KeepUnknown.matchSegments]

theorem length_keyReadings_le (place : Place) (budget : Nat) :
    ∀ {scope : Scope σ} {way : List String} {name : String}, start.Uses scope (.model name) →
      (scope.registry.keyReadings place budget way name).length ≤ 1 := by
  induction budget with
  | zero => exact fun _ => Nat.zero_le _
  | succ budget ih =>
      intro scope way name huses
      rw [Registry.keyReadings]
      split
      · exact Nat.zero_le _
      cases hmodel : scope.registry.find? name with
      | none => exact Nat.zero_le _
      | some model =>
          have hreaches := Reaches.inside huses (.model hmodel)
          dsimp only
          cases hkey : model.schema.hashKey? with
          | none => exact Nat.zero_le _
          | some field =>
              have hfield := mem_of_hashKey? hkey
              obtain ⟨type, htype⟩ := hstart.oneType _ _ hreaches field hfield
              have hinner : start.Uses ⟨scope.registry, model.schema⟩ type :=
                .attribute hreaches hfield (by simp [htype])
              simp only [htype, List.flatMap_singleton]
              cases type with
              | model next => exact @ih ⟨scope.registry, model.schema⟩ _ next hinner
              | _ => simp

/-- A single type is told apart, also where it is a reference: it leads to a single key. -/
theorem toldApart_singleton {scope : Scope σ} {type : CandidateType σ}
    (huses : start.Uses scope type) : scope.ToldApart [type] := by
  by_cases hmodel : ∃ name, type = .model name
  · obtain ⟨name, rfl⟩ := hmodel
    intro place isDocument
    have hlength : (scope.readings place isDocument (.model name)).length ≤ 1 := by
      cases isDocument with
      | true => simp [readings_document]
      | false => exact hstart.length_keyReadings_le place _ huses
    simp only [choices, List.flatMap_singleton, List.pairwise_map]
    generalize scope.readings place isDocument (.model name) = readings at hlength
    cases readings with
    | nil => exact .nil
    | cons reading rest =>
        obtain rfl : rest = [] := by simpa using hlength
        exact List.pairwise_singleton _ _
  · exact Scope.toldApart_singleton fun name hname => hmodel ⟨name, hname⟩

theorem repeatable : start.Repeatable where
  wellFormed := hstart.wellFormed
  attributes := by
    intro scope schema hreaches field hfield
    obtain ⟨type, htype⟩ := hstart.oneType scope schema hreaches field hfield
    rw [htype]
    exact hstart.toldApart_singleton (.attribute hreaches hfield (by simp [htype]))
  elements := hstart.elements
  scalarKeys := hstart.scalarKeys
  spelling := .inl hstart.noAlias

end Declarative

end Scope

/-! ## Types at other places -/

namespace Scope.Declarative

variable {start scope : Scope σ} {types : List (CandidateType σ)} {value : Value}
  {choice : Choice σ}

/-- All places are alike where undeclared data is dropped. -/
theorem blindTo (hstart : start.Declarative) : start.reach.BlindTo fun _ _ => True where
  wellFormed := hstart.wellFormed
  scalarSets := hstart.scalarSets
  child := fun _ _ => trivial
  enter := fun _ => trivial
  restart := fun _ => trivial
  unknownMatch := fun _ _ _ hreaches => by
    rw [hstart.unknownMatch_eq hreaches, hstart.unknownMatch_eq hreaches]

/-- A value takes the same type at every place. -/
theorem resolve_at (hstart : start.Declarative) (htypes : start.Discerns scope types)
    {near : Place} (hchoice : scope.resolve near types value = .ok choice) (far : Place) :
    ∃ other, scope.resolve far types value = .ok other ∧ other.type = choice.type ∧
      other.reading.type = choice.reading.type := by
  obtain ⟨found, other, hfound, hother, hsame⟩ | ⟨cause, _, hcause, -⟩ :=
    (Scope.resolve_at hstart.blindTo trivial htypes.uses value :
      Except.Agree _ (scope.resolve near types value) (scope.resolve far types value)).cases
  · obtain rfl := Except.ok.inj (hchoice.symm.trans hfound)
    exact ⟨other, hother, hsame.type, hsame.reading.type⟩
  · rw [hchoice] at hcause
    cases hcause

end Scope.Declarative

end ItemMapper
