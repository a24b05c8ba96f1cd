import ItemMapper.Proofs.Plain.Codec
import ItemMapper.Proofs.Typing.Moved

/-!
# Types at other places

The place of a value matters for messages and for the patterns of undeclared data.  Let some places
be alike, so that nothing at or below them is told apart by these patterns (`Reach.BlindTo`).  Then
a value can be read in the same ways at both (`Scope.choices_at`), has the same score
(`Value.score_at`), takes the same type (`Scope.resolve_at`), and the same is kept of undeclared
data (`Value.keep?_at`).
-/

namespace ItemMapper

variable {σ : Type}

/-- Alike places stay alike with every step. -/
structure Place.Compatible (alike : Place → Place → Prop) : Prop where
  child : ∀ {near far}, alike near far → ∀ key, alike (near.child key) (far.child key)
  enter : ∀ {near far}, alike near far → alike near.enter far.enter
  restart : ∀ {near far}, alike near far → alike near.restart far.restart

theorem Place.Compatible.item {alike : Place → Place → Prop} (hsteps : Place.Compatible alike)
    {near far : Place} (hplaces : alike near far) (index : Nat) :
    alike (near.item index) (far.item index) :=
  hsteps.child hplaces (toString index)

namespace Reach

/-- No pattern of undeclared data tells alike places apart, here or below, in a reference or
before it.  The schemas are those that can be built, so that sets hold scalars. -/
structure BlindTo (reach : Reach σ) (alike : Place → Place → Prop) : Prop
    extends Place.Compatible alike where
  wellFormed : ∀ scope schema, reach.schemas scope schema → schema.WellFormed
  scalarSets : ∀ scope element, reach.types scope (.set element) → element.isSetElement = true
  unknownMatch : ∀ {near far}, alike near far → ∀ {scope schema}, reach.schemas scope schema →
    scope.unknownMatch near = scope.unknownMatch far

/-- What is alike for one scope is alike for all of them, and then every value can be moved. -/
theorem BlindTo.moves {reach : Reach σ} {alike : Place → Place → Prop}
    (hblind : reach.BlindTo alike) : reach.Moves fun _ => alike where
  child hplaces key := hblind.child hplaces key
  enter hplaces _ := hblind.enter hplaces
  restart hplaces := by
    intros
    exact hblind.restart hplaces
  unknownMatch hplaces _ hreaches := hblind.unknownMatch hplaces hreaches
  scalarSets := hblind.scalarSets _ _

/-! ## Readings -/

/-- Two ways to read a value differ only in their places, which are alike. -/
structure SameReading (reach : Reach σ) (alike : Place → Place → Prop) (reading other : Reading σ) :
    Prop where
  scope : other.scope = reading.scope
  type : other.type = reading.type
  reached : reach.types reading.scope reading.type
  place : alike reading.place other.place

/-- Two choices differ only in the places where the value is read. -/
structure SameChoice (reach : Reach σ) (alike : Place → Place → Prop) (choice other : Choice σ) :
    Prop where
  type : other.type = choice.type
  reading : reach.SameReading alike choice.reading other.reading

end Reach

namespace Scope

/-- From both places a type leads to the same document, or to none. -/
theorem enter?_at (alike : Place → Place → Prop)
    (henter : ∀ {near far}, alike near far → alike near.enter far.enter) {near far : Place}
    (hplaces : alike near far) (scope : Scope σ) (type : CandidateType σ) :
    (∃ inner schema nearer farther, scope.Opens type inner schema ∧
      scope.enter? near type = some ⟨inner, nearer, schema⟩ ∧
        scope.enter? far type = some ⟨inner, farther, schema⟩ ∧ alike nearer farther) ∨
      scope.enter? near type = none ∧ scope.enter? far type = none :=
  enter?_moved (fun _ => alike) (fun _ => henter hplaces) hplaces type

variable {reach : Reach σ} {scope : Scope σ} {alike : Place → Place → Prop} {near far : Place}
  (hsteps : Place.Compatible alike) (hplaces : alike near far)

include hsteps hplaces

theorem readings_at {type : CandidateType σ} (huses : reach.types scope type) (isDocument : Bool) :
    List.Forall₂ (reach.SameReading alike) (scope.readings near isDocument type)
      (scope.readings far isDocument type) := by
  refine readings_rel (fun _ => ?_) huses ⟨rfl, rfl, huses, hplaces⟩
  intro inner name model field type _ _ _ _ hinner
  exact ⟨rfl, rfl, hinner, hsteps.restart hplaces⟩

theorem choices_at {types : List (CandidateType σ)} (huses : ∀ type ∈ types, reach.types scope type)
    (isDocument : Bool) :
    List.Forall₂ (reach.SameChoice alike) (scope.choices near types isDocument)
      (scope.choices far types isDocument) :=
  choices_rel fun type htype =>
    (readings_at hsteps hplaces (huses type htype) isDocument).imp
      fun _ _ hreading => ⟨rfl, hreading⟩

end Scope

/-! ## Scores -/

section Scores

variable {reach : Reach σ} {alike : Place → Place → Prop} (round : Rat → Rat)

/-- The scores of all readings are the same elsewhere if those of each type are. -/
theorem Value.scores_at (hblind : reach.BlindTo alike) {value : Value}
    (hvalue : ∀ {scope : Scope σ} {type : CandidateType σ} {near far : Place}, alike near far →
      reach.types scope type →
        value.score round ⟨scope, near, type⟩ = value.score round ⟨scope, far, type⟩)
    {scope : Scope σ} {types : List (CandidateType σ)} (huses : ∀ type ∈ types, reach.types scope type)
    {near far : Place} (hplaces : alike near far) (isDocument : Bool) :
    (types.flatMap (scope.readings near isDocument)).map (value.score round) =
      (types.flatMap (scope.readings far isDocument)).map (value.score round) := by
  rw [List.map_flatMap, List.map_flatMap]
  refine List.flatMap_congr fun type htype => ?_
  refine map_eq_map_of_related (fun reading other hsame => ?_)
    (Scope.readings_at hblind.toCompatible hplaces (huses type htype) isDocument)
  obtain ⟨scope, place, type⟩ := reading
  obtain ⟨_, far, _⟩ := other
  obtain ⟨rfl, rfl, huses, hplaces⟩ := hsame
  exact hvalue hplaces huses

/-- A value fits a type equally well at places that are alike. -/
theorem Value.score_at (hblind : reach.BlindTo alike) (value : Value) {scope : Scope σ}
    {type : CandidateType σ} {near far : Place} (hplaces : alike near far)
    (huses : reach.types scope type) :
    value.score round ⟨scope, near, type⟩ = value.score round ⟨scope, far, type⟩ :=
  value.score_moved round hblind.moves hplaces huses

end Scores

/-! ## The chosen type -/

namespace Scope

variable {reach : Reach σ} {scope : Scope σ} {alike : Place → Place → Prop} {near far : Place}
  (hblind : reach.BlindTo alike) (hplaces : alike near far)

include hblind hplaces

/-- A value takes the same type at places that are alike. -/
theorem resolve_at {types : List (CandidateType σ)} (huses : ∀ type ∈ types, reach.types scope type)
    (value : Value) :
    Except.Agree (reach.SameChoice alike) (scope.resolve near types value)
      (scope.resolve far types value) := by
  refine agree_resolve ((choices_at hblind.toCompatible hplaces huses _).imp
    fun choice other hsame => ⟨hsame, ?_⟩)
  obtain ⟨type, scope, near, reading⟩ := choice
  obtain ⟨_, _, far, _⟩ := other
  obtain ⟨rfl, rfl, rfl, huses, hplaces⟩ := hsame
  exact Value.score_at Score.rounded hblind value hplaces huses

end Scope

/-! ## Undeclared data -/

/-- The same is kept of an undeclared value at places that are alike. -/
theorem Value.keep?_at {reach : Reach σ} {scope : Scope σ} {schema : Schema σ}
    {alike : Place → Place → Prop} (hblind : reach.BlindTo alike)
    (hreaches : reach.schemas scope schema) (value : Value) {near far : Place}
    (hplaces : alike near far) : value.keep? scope near = value.keep? scope far :=
  value.keep?_alike (hblind.moves.keepsAlike hreaches) hplaces

/-! ## Scalars -/

theorem Reading.encodeSet_at (reading other : Reading σ) (element : CandidateType σ)
    (members : List Value) :
    Except.Agree Eq (reading.encodeSet element members) (other.encodeSet element members) := by
  unfold encodeSet
  cases element.setElement? with
  | none =>
      cases members with
      | nil => exact .ok rfl
      | cons member rest => exact .error _ _
  | some kind =>
      simp only
      cases kind.encode members with
      | error member => exact .error _ _
      | ok stored => exact .ok rfl

/-- What a value is stored as at once does not depend on the place. -/
theorem Reading.encodeScalar_at {reading other : Reading σ} (htype : other.type = reading.type)
    (value : Value) :
    Except.Agree Eq (reading.encodeScalar value) (other.encodeScalar value) := by
  obtain ⟨scope, place, type⟩ := reading
  obtain ⟨inner, far, type⟩ := other
  obtain rfl : type = _ := htype
  cases type with
  | primitive | combine | constant => exact .ok rfl
  | date storage =>
      simp only [encodeScalar]
      cases value.date? with
      | none => exact .error _ _
      | some t => exact .ok rfl
  | set element =>
      cases value with
      | set members => exact encodeSet_at _ _ element members
      | list members => exact encodeSet_at _ _ element members
      | _ => exact .error _ _
  | _ => exact .error _ _

end ItemMapper
