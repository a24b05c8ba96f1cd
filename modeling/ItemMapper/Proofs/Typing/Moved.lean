import ItemMapper.Proofs.Agreement
import ItemMapper.Proofs.AttributePath
import ItemMapper.Proofs.RoundTrip.Stored

/-!
# Values that are moved

The place of a value matters for messages and for the patterns of undeclared data.  Let places be
alike for a scope, so that nothing at or below them is told apart by the patterns of this scope and
of those that it leads to (`Reach.Moves`).  A value can then be moved from one to the other: it can be
read in the same ways (`Scope.readings_moved`), has the same score (`Value.score_moved`) and takes the
same type (`Scope.agree_resolve_moved`), and the same is kept of undeclared data
(`Value.keep?_alike`).  Stored values can be moved alike.

Hash keys are looked at from the outermost document on, and only a list, which may have documents in
it, can tell.
-/

namespace ItemMapper

variable {σ : Type}

/-! ## Places that are alike -/

/-- Schemas and types, each in a scope, that one step does not leave. -/
structure Reach (σ : Type) where
  schemas : Scope σ → Schema σ → Prop
  types : Scope σ → CandidateType σ → Prop
  inside : ∀ {scope inner type schema}, types scope type → scope.Opens type inner schema →
    schemas inner schema
  field : ∀ {scope schema field type}, schemas scope schema → field ∈ schema.attributes →
    type ∈ field.types → types scope type
  element : ∀ {scope elements type}, types scope (.array elements) → type ∈ elements →
    types scope type

/-- What can be reached from a root schema. -/
def Scope.reach (start : Scope σ) : Reach σ where
  schemas := start.Reaches
  types := start.Uses
  inside := .inside
  field := .attribute
  element := .element

namespace Reach

/-- Places that are alike for a scope stay alike with every step, with every reference, and with
every hash key that may be a list.  No pattern tells them apart. -/
structure Moves (reach : Reach σ) (alike : Scope σ → Place → Place → Prop) : Prop where
  child : ∀ {scope near far}, alike scope near far → ∀ key,
    alike scope (near.child key) (far.child key)
  enter : ∀ {scope near far}, alike scope near far → ∀ inner, alike inner near.enter far.enter
  restart : ∀ {scope near far}, alike scope near far →
    ∀ {inner name model field elements}, reach.types inner (.model name) →
      inner.registry.find? name = some model → model.schema.hashKey? = some field →
        .array elements ∈ field.types → alike ⟨inner.registry, model.schema⟩ near.restart far.restart
  unknownMatch : ∀ {scope near far}, alike scope near far → ∀ {schema}, reach.schemas scope schema →
    scope.unknownMatch near = scope.unknownMatch far
  scalarSets : ∀ {scope element}, reach.types scope (.set element) → element.isSetElement = true

/-- Two ways to read a value, or a document, differ only in their places, which are alike or do not
matter. -/
structure MovedReading (reach : Reach σ) (alike : Scope σ → Place → Place → Prop)
    (isDocument : Bool) (reading other : Reading σ) : Prop where
  scope : other.scope = reading.scope
  type : other.type = reading.type
  reached : reach.types reading.scope reading.type
  place : alike reading.scope reading.place other.place ∨
    isDocument = false ∧ ∀ elements, reading.type ≠ .array elements

/-- The same one of some types is chosen, and read in ways that differ only in their places. -/
structure MovedChoice (reach : Reach σ) (alike : Scope σ → Place → Place → Prop)
    (types : List (CandidateType σ)) (isDocument : Bool) (choice other : Choice σ) : Prop where
  type : other.type = choice.type
  chosen : choice.type ∈ types
  reading : reach.MovedReading alike isDocument choice.reading other.reading

end Reach

variable {reach : Reach σ} {alike : Scope σ → Place → Place → Prop}

theorem Reach.Moves.item (hmoves : reach.Moves alike) {scope : Scope σ} {near far : Place}
    (hplaces : alike scope near far) (index : Nat) :
    alike scope (near.item index) (far.item index) :=
  hmoves.child hplaces (toString index)

/-! ## Readings -/

namespace Scope

theorem mem_of_hashKey? {schema : Schema σ} {field : Attribute σ}
    (hkey : schema.hashKey? = some field) : field ∈ schema.attributes := by
  rw [SchemaOf.hashKey?, Option.or_eq_some_iff] at hkey
  rcases hkey with hfound | ⟨-, hhead⟩
  · exact List.mem_of_find?_eq_some hfound
  · exact List.mem_of_head? hhead

/-- The attributes that make up the key are declared. -/
theorem mem_of_key {schema : Schema σ} {field : Attribute σ}
    (hfield : field ∈ schema.hashKey?.toList ++ schema.rangeKey?.toList) :
    field ∈ schema.attributes := by
  rcases List.mem_append.mp hfield with hhash | hrange
  · exact mem_of_hashKey? (Option.mem_toList.mp hhash)
  · exact List.mem_of_find?_eq_some (Option.mem_toList.mp hrange)

variable {scope : Scope σ} {near far : Place}

/-- What relates the readings of each type that a hash key can have relates all of its readings. -/
theorem keyReadings_rel {related : Reading σ → Reading σ → Prop}
    (hkey : ∀ {inner name model field type}, reach.types inner (.model name) →
      inner.registry.find? name = some model → model.schema.hashKey? = some field →
        type ∈ field.types → reach.types ⟨inner.registry, model.schema⟩ type →
          related ⟨⟨inner.registry, model.schema⟩, near.restart, type⟩
            ⟨⟨inner.registry, model.schema⟩, far.restart, type⟩) (budget : Nat) :
    ∀ {inner : Scope σ} {way : List String} {name : String}, reach.types inner (.model name) →
      List.Forall₂ related (inner.registry.keyReadings near budget way name)
        (inner.registry.keyReadings far budget way name) := by
  induction budget with
  | zero => exact fun _ => .nil
  | succ budget ih =>
      intro inner way name huses
      rw [Registry.keyReadings, Registry.keyReadings]
      split
      · exact .nil
      cases hmodel : inner.registry.find? name with
      | none => exact .nil
      | some model =>
          have hreaches := reach.inside huses (.model hmodel)
          dsimp only
          cases hfield : model.schema.hashKey? with
          | none => exact .nil
          | some field =>
              dsimp only
              have hsame : List.Forall₂ (fun type other => type = other ∧ type ∈ field.types)
                  field.types field.types := List.forall₂_same.mpr fun _ htype => ⟨rfl, htype⟩
              refine List.rel_flatMap hsame ?_
              rintro type _ ⟨rfl, htype⟩
              have hinner := reach.field hreaches (mem_of_hashKey? hfield) htype
              cases type with
              | model next => exact @ih ⟨inner.registry, model.schema⟩ _ next hinner
              | _ => exact .cons (hkey huses hmodel hfield htype hinner) .nil

theorem readings_rel {related : Reading σ → Reading σ → Prop} {isDocument : Bool}
    (hkey : isDocument = false → ∀ {inner name model field type}, reach.types inner (.model name) →
      inner.registry.find? name = some model → model.schema.hashKey? = some field →
        type ∈ field.types → reach.types ⟨inner.registry, model.schema⟩ type →
          related ⟨⟨inner.registry, model.schema⟩, near.restart, type⟩
            ⟨⟨inner.registry, model.schema⟩, far.restart, type⟩)
    {type : CandidateType σ} (huses : reach.types scope type)
    (hself : related ⟨scope, near, type⟩ ⟨scope, far, type⟩) :
    List.Forall₂ related (scope.readings near isDocument type)
      (scope.readings far isDocument type) := by
  obtain ⟨name, rfl, rfl⟩ | hreadings := readings_cases isDocument type
  · exact keyReadings_rel (hkey rfl) _ huses
  · rw [hreadings, hreadings]
    exact .cons hself .nil

/-- Choices correspond as the readings of each type do. -/
theorem choices_rel {related : Choice σ → Choice σ → Prop} {types : List (CandidateType σ)}
    {isDocument : Bool} (hreadings : ∀ type ∈ types,
      List.Forall₂ (fun reading other => related ⟨type, reading⟩ ⟨type, other⟩)
        (scope.readings near isDocument type) (scope.readings far isDocument type)) :
    List.Forall₂ related (scope.choices near types isDocument)
      (scope.choices far types isDocument) := by
  have hsame : List.Forall₂ (fun type other => type = other ∧ type ∈ types) types types :=
    List.forall₂_same.mpr fun _ htype => ⟨rfl, htype⟩
  refine List.rel_flatMap hsame ?_
  rintro type _ ⟨rfl, htype⟩
  rw [List.forall₂_map_left_iff, List.forall₂_map_right_iff]
  exact hreadings type htype

section Moved

variable (hmoves : reach.Moves alike) (hplaces : alike scope near far)

include hmoves hplaces

/-- A value is read in the same ways at both places. -/
theorem readings_moved {type : CandidateType σ} (huses : reach.types scope type)
    (isDocument : Bool) :
    List.Forall₂ (reach.MovedReading alike isDocument) (scope.readings near isDocument type)
      (scope.readings far isDocument type) := by
  refine readings_rel (fun hvalue => ?_) huses ⟨rfl, rfl, huses, .inl hplaces⟩
  intro inner name model field type hmodel hfound hkey htype hinner
  refine ⟨rfl, rfl, hinner, ?_⟩
  cases type with
  | array elements => exact .inl (hmoves.restart hplaces hmodel hfound hkey htype)
  | _ => exact .inr ⟨hvalue, nofun⟩

theorem choices_moved {types : List (CandidateType σ)}
    (huses : ∀ type ∈ types, reach.types scope type) (isDocument : Bool) :
    List.Forall₂ (reach.MovedChoice alike types isDocument) (scope.choices near types isDocument)
      (scope.choices far types isDocument) :=
  choices_rel fun type htype =>
    (readings_moved hmoves hplaces (huses type htype) isDocument).imp
      fun _ _ hreading => ⟨rfl, htype, hreading⟩

/-- A value that counts the same in both readings has the same scores for all types. -/
theorem scores_moved {types : List (CandidateType σ)}
    (huses : ∀ type ∈ types, reach.types scope type) {isDocument : Bool} {score : Reading σ → Rat}
    (hscore : ∀ reading other, reach.MovedReading alike isDocument reading other →
      score reading = score other) :
    (types.flatMap (scope.readings near isDocument)).map score =
      (types.flatMap (scope.readings far isDocument)).map score := by
  rw [List.map_flatMap, List.map_flatMap]
  refine List.flatMap_congr fun type htype => ?_
  exact map_eq_map_of_related hscore (readings_moved hmoves hplaces (huses type htype) isDocument)

end Moved

/-- From both places a type leads to the same document, or to none. -/
theorem enter?_moved (alike : Scope σ → Place → Place → Prop)
    (henter : ∀ inner, alike inner near.enter far.enter) (hplaces : alike scope near far)
    (type : CandidateType σ) :
    (∃ inner schema nearer farther, scope.Opens type inner schema ∧
      scope.enter? near type = some ⟨inner, nearer, schema⟩ ∧
        scope.enter? far type = some ⟨inner, farther, schema⟩ ∧ alike inner nearer farther) ∨
      scope.enter? near type = none ∧ scope.enter? far type = none := by
  cases type with
  | object schema => exact .inl ⟨_, _, _, _, .object, rfl, rfl, hplaces⟩
  | self => exact .inl ⟨_, _, _, _, .self, rfl, rfl, henter _⟩
  | model name =>
      cases hmodel : scope.registry.find? name with
      | none => exact .inr (by simp [enter?, hmodel])
      | some model =>
          exact .inl ⟨_, _, _, _, .model hmodel, by rw [enter?, hmodel]; rfl,
            by rw [enter?, hmodel]; rfl, henter _⟩
  | _ => exact .inr ⟨rfl, rfl⟩

end Scope

/-! ## Scores of native values -/

namespace Value

variable (round : Rat → Rat)

/-- The members of a set are scalars, wherever they stand. -/
theorem memberScores_eq_map {element : CandidateType σ} (helement : element.isSetElement = true)
    (scope : Scope σ) (place : Place) (members : List Value) :
    memberScores round scope place element members =
      members.map fun member => Score.best [member.scalarScore element] := by
  have hwhole : element.isWhole = true ∧ ∀ name, element ≠ .model name := by
    cases element <;> simp_all [CandidateType.isSetElement, CandidateType.isWhole]
  induction members with
  | nil => rfl
  | cons member rest ih =>
      rw [memberScores, ih, Scope.readings_of_ne_model hwhole.2, List.map_singleton,
        score_of_whole hwhole.1, List.map_cons]

theorem memberScores_eq {scope : Scope σ} {element : CandidateType σ}
    (helement : element.isSetElement = true) (near far : Place) (members : List Value) :
    memberScores round scope near element members =
      memberScores round scope far element members := by
  rw [memberScores_eq_map round helement, memberScores_eq_map round helement]

/-- Only documents and lists of items with types of their own depend on the place. -/
theorem score_anywhere {value : Value} {scope : Scope σ} {type : CandidateType σ}
    (hsets : ∀ element, type = .set element → element.isSetElement = true)
    (hvalue : value.isDocument = false) (htype : ∀ elements, type ≠ .array elements)
    (near far : Place) :
    value.score round ⟨scope, near, type⟩ = value.score round ⟨scope, far, type⟩ := by
  cases value with
  | map fields => contradiction
  | list items =>
      cases type with
      | array elements => exact absurd rfl (htype elements)
      | set element => simp only [score, memberScores_eq round (hsets element rfl) near far]
      | _ => simp only [score]
  | set members =>
      cases type with
      | set element => simp only [score, memberScores_eq round (hsets element rfl) near far]
      | _ => simp only [score]
  | _ => simp only [score]

variable (hmoves : reach.Moves alike)

include hmoves

/-- A value that has the same scores at places that are alike has them in readings that are moved. -/
theorem score_movedReading {value : Value}
    (hvalue : ∀ {scope : Scope σ} {type : CandidateType σ} {near far : Place},
      alike scope near far → reach.types scope type →
        value.score round ⟨scope, near, type⟩ = value.score round ⟨scope, far, type⟩)
    {reading other : Reading σ} (hmoved : reach.MovedReading alike value.isDocument reading other) :
    value.score round reading = value.score round other := by
  obtain ⟨scope, near, type⟩ := reading
  obtain ⟨_, far, _⟩ := other
  obtain ⟨rfl, rfl, huses, hplaces | ⟨hscalar, htype⟩⟩ := hmoved
  · exact hvalue hplaces huses
  · exact score_anywhere round (fun _ hset => hmoves.scalarSets (hset ▸ huses)) hscalar htype _ _

mutual

/-- A value fits a type equally well at places that are alike. -/
theorem score_moved : ∀ (value : Value)
    {scope : Scope σ} {type : CandidateType σ} {near far : Place},
      alike scope near far → reach.types scope type →
        value.score round ⟨scope, near, type⟩ = value.score round ⟨scope, far, type⟩
  | .list items, scope, type, near, far, hplaces, huses => by
      cases type with
      | array elements =>
          simp only [score]
          rw [itemScores_moved items hplaces (fun _ htype => reach.element huses htype) 0]
      | set element => simp only [score, memberScores_eq round (hmoves.scalarSets huses) near far]
      | _ => simp only [score]
  | .map fields, scope, type, near, far, hplaces, huses => by
      simp only [score, Reading.enter?]
      rcases Scope.enter?_moved alike (hmoves.enter hplaces) hplaces type with
        ⟨inner, schema, nearer, farther, hopens, hnear, hfar, hinner⟩ | ⟨hnear, hfar⟩
      · simp only [hnear, hfar]
        rw [fieldScores_moved fields (hmoves.child hinner) (reach.inside huses hopens)]
      · simp only [hnear, hfar]
  | .set members, scope, type, near, far, _, huses => by
      cases type with
      | set element => simp only [score, memberScores_eq round (hmoves.scalarSets huses) near far]
      | _ => simp only [score]
  | .undefined, _, _, _, _, _, _ | .null, _, _, _, _, _, _ | .bool _, _, _, _, _, _, _
  | .number _, _, _, _, _, _, _ | .string _, _, _, _, _, _, _
  | .binary _, _, _, _, _, _, _ | .date _, _, _, _, _, _, _ => by simp only [score]

theorem itemScores_moved : ∀ (items : List Value)
    {scope : Scope σ} {elements : List (CandidateType σ)} {near far : Place},
      alike scope near far → (∀ type ∈ elements, reach.types scope type) → ∀ index,
        itemScores round scope near elements index items =
          itemScores round scope far elements index items
  | [], _, _, _, _, _, _, _ => rfl
  | item :: rest, scope, elements, near, far, hplaces, huses, index => by
      rw [itemScores, itemScores, itemScores_moved rest hplaces huses (index + 1),
        Scope.scores_moved hmoves (hmoves.item hplaces index) huses fun _ _ =>
          score_movedReading round hmoves (score_moved item)]

theorem fieldScores_moved : ∀ (fields : List (String × Value))
    {scope : Scope σ} {schema : Schema σ} {near far : Place},
      (∀ key, alike scope (near.child key) (far.child key)) → reach.schemas scope schema →
          fieldScores round ⟨scope, near, schema⟩ fields =
            fieldScores round ⟨scope, far, schema⟩ fields
  | [], _, _, _, _, _, _ => rfl
  | (key, value) :: rest, scope, schema, near, far, hplaces, hreaches => by
      have hchild := hplaces key
      rw [fieldScores, fieldScores, fieldScores_moved rest hplaces hreaches]
      cases hnative : schema.nativeAttribute? key with
      | none => simp only [Frame.unknownScore, hmoves.unknownMatch hchild hreaches]
      | some field =>
          have hfield := SchemaOf.mem_of_nativeAttribute? hnative
          dsimp only
          rw [Scope.scores_moved hmoves hchild (fun _ htype => reach.field hreaches hfield htype)
            fun _ _ => score_movedReading round hmoves (score_moved value)]

end

end Value

/-! ## Scores of stored values -/

namespace WireValue

variable (round : Rat → Rat)

theorem score_anywhere {stored : WireValue} {scope : Scope σ} {type : CandidateType σ}
    (hstored : stored.isDocument = false) (htype : ∀ elements, type ≠ .array elements)
    (near far : Place) :
    stored.score round ⟨scope, near, type⟩ = stored.score round ⟨scope, far, type⟩ := by
  cases stored with
  | map fields => contradiction
  | list items =>
      cases type with
      | array elements => exact absurd rfl (htype elements)
      | _ => simp only [score]
  | _ => simp only [score]

theorem score_movedReading {stored : WireValue}
    (hstored : ∀ {scope : Scope σ} {type : CandidateType σ} {near far : Place},
      alike scope near far → reach.types scope type →
        stored.score round ⟨scope, near, type⟩ = stored.score round ⟨scope, far, type⟩)
    {reading other : Reading σ} (hmoved : reach.MovedReading alike stored.isDocument reading other) :
    stored.score round reading = stored.score round other := by
  obtain ⟨scope, near, type⟩ := reading
  obtain ⟨_, far, _⟩ := other
  obtain ⟨rfl, rfl, huses, hplaces | ⟨hscalar, htype⟩⟩ := hmoved
  · exact hstored hplaces huses
  · exact score_anywhere round hscalar htype _ _

variable (hmoves : reach.Moves alike)

include hmoves

mutual

/-- A stored value fits a type equally well at places that are alike. -/
theorem score_moved : ∀ (stored : WireValue)
    {scope : Scope σ} {type : CandidateType σ} {near far : Place},
      alike scope near far → reach.types scope type →
        stored.score round ⟨scope, near, type⟩ = stored.score round ⟨scope, far, type⟩
  | .list items, scope, type, near, far, hplaces, huses => by
      cases type with
      | array elements =>
          simp only [score]
          rw [itemScores_moved items hplaces (fun _ htype => reach.element huses htype) 0]
      | _ => simp only [score]
  | .map fields, scope, type, near, far, hplaces, huses => by
      simp only [score, Reading.enter?]
      rcases Scope.enter?_moved alike (hmoves.enter hplaces) hplaces type with
        ⟨inner, schema, nearer, farther, hopens, hnear, hfar, hinner⟩ | ⟨hnear, hfar⟩
      · simp only [hnear, hfar]
        rw [fieldScores_moved fields (hmoves.child hinner) (reach.inside huses hopens)]
      · simp only [hnear, hfar]
  | .string _, _, _, _, _, _, _ | .number _, _, _, _, _, _, _
  | .binary _, _, _, _, _, _, _ | .boolean _, _, _, _, _, _, _ | .null _, _, _, _, _, _, _
  | .stringSet _, _, _, _, _, _, _ | .numberSet _, _, _, _, _, _, _
  | .binarySet _, _, _, _, _, _, _ => by simp only [score]

theorem itemScores_moved : ∀ (items : List WireValue)
    {scope : Scope σ} {elements : List (CandidateType σ)} {near far : Place},
      alike scope near far → (∀ type ∈ elements, reach.types scope type) → ∀ index,
        itemScores round scope near elements index items =
          itemScores round scope far elements index items
  | [], _, _, _, _, _, _, _ => rfl
  | item :: rest, scope, elements, near, far, hplaces, huses, index => by
      rw [itemScores, itemScores, itemScores_moved rest hplaces huses (index + 1),
        Scope.scores_moved hmoves (hmoves.item hplaces index) huses fun _ _ =>
          score_movedReading round (score_moved item)]

theorem fieldScores_moved : ∀ (fields : List (String × WireValue))
    {scope : Scope σ} {schema : Schema σ} {near far : Place},
      (∀ key, alike scope (near.child key) (far.child key)) → reach.schemas scope schema →
          fieldScores round ⟨scope, near, schema⟩ fields =
            fieldScores round ⟨scope, far, schema⟩ fields
  | [], _, _, _, _, _, _ => rfl
  | (key, stored) :: rest, scope, schema, near, far, hplaces, hreaches => by
      have hchild := hplaces key
      rw [fieldScores, fieldScores, fieldScores_moved rest hplaces hreaches]
      cases hfield : schema.attribute? key with
      | none => simp only [Frame.unknownScore, hmoves.unknownMatch hchild hreaches]
      | some field =>
          have hmem := List.mem_of_find?_eq_some hfield
          dsimp only
          rw [Scope.scores_moved hmoves hchild (fun _ htype => reach.field hreaches hmem htype)
            fun _ _ => score_movedReading round (score_moved stored)]

end

end WireValue

/-! ## The chosen type -/

/-- The best of alternatives that correspond and have the same scores correspond. -/
theorem Score.rel_firstBest {α β : Type} {related : α → β → Prop} {first : List (α × Rat)}
    {second : List (β × Rat)}
    (hall : List.Forall₂ (fun a b => related a.1 b.1 ∧ a.2 = b.2) first second) :
    Option.Rel (fun a b => related a.1 b.1 ∧ a.2 = b.2) (firstBest first) (firstBest second) := by
  induction hall with
  | nil => exact .none
  | @cons a b _ _ hfirst _ ih =>
      obtain ⟨value, score⟩ := a
      obtain ⟨other, otherScore⟩ := b
      obtain ⟨hvalue, rfl⟩ := hfirst
      rw [firstBest, firstBest]
      generalize firstBest _ = found at ih ⊢
      generalize firstBest _ = otherFound at ih ⊢
      cases ih with
      | none =>
          dsimp only
          split
          · exact .some ⟨hvalue, rfl⟩
          · exact .none
      | @some a b hrest =>
          obtain ⟨rest, higher⟩ := a
          obtain ⟨otherRest, _⟩ := b
          obtain ⟨hrest, rfl⟩ := hrest
          dsimp only
          split
          · exact .some ⟨hrest, rfl⟩
          · exact .some ⟨hvalue, rfl⟩

namespace Scope

section Chosen

variable {related : Choice σ → Choice σ → Prop} {scope : Scope σ} {near far : Place}
  {types : List (CandidateType σ)}

/-- Choices that correspond and have the same scores lead to choices that correspond. -/
theorem rel_choose? {isDocument isOther : Bool} {score other : Reading σ → Rat}
    (hchoices : List.Forall₂ (fun choice counterpart => related choice counterpart ∧
        score choice.reading = other counterpart.reading)
      (scope.choices near types isDocument) (scope.choices far types isOther)) :
    Option.Rel related (scope.choose? near types isDocument score)
      (scope.choose? far types isOther other) := by
  have hbest : Option.Rel (fun best counterpart => related best.1 counterpart.1 ∧
        best.2 = counterpart.2)
      (Score.firstBest ((scope.choices near types isDocument).map fun choice =>
        (choice, score choice.reading)))
      (Score.firstBest ((scope.choices far types isOther).map fun choice =>
        (choice, other choice.reading))) := by
    apply Score.rel_firstBest
    rw [List.forall₂_map_left_iff, List.forall₂_map_right_iff]
    exact hchoices
  unfold choose?
  generalize Score.firstBest ((scope.choices near types isDocument).map _) = found at hbest ⊢
  generalize Score.firstBest ((scope.choices far types isOther).map _) = last at hbest ⊢
  cases hbest with
  | none => exact .none
  | some hsame => exact .some hsame.1

/-- Values with the same scores take types that correspond. -/
theorem agree_resolve {value other : Value}
    (hscores : List.Forall₂ (fun choice counterpart => related choice counterpart ∧
        value.score Score.rounded choice.reading = other.score Score.rounded counterpart.reading)
      (scope.choices near types value.isDocument) (scope.choices far types other.isDocument)) :
    Except.Agree related (scope.resolve near types value) (scope.resolve far types other) := by
  have hchosen := rel_choose? hscores
  unfold resolve
  generalize scope.choose? near types _ _ = found at hchosen ⊢
  generalize scope.choose? far types _ _ = last at hchosen ⊢
  cases hchosen with
  | none => exact .error _ _
  | some hsame => exact .ok hsame

theorem agree_resolveStored {stored other : WireValue}
    (hscores : List.Forall₂ (fun choice counterpart => related choice counterpart ∧
        stored.score Score.rounded choice.reading = other.score Score.rounded counterpart.reading)
      (scope.choices near types stored.isDocument) (scope.choices far types other.isDocument)) :
    Except.Agree related (scope.resolveStored near types stored)
      (scope.resolveStored far types other) := by
  have hchosen := rel_choose? hscores
  unfold resolveStored
  generalize scope.choose? near types _ _ = found at hchosen ⊢
  generalize scope.choose? far types _ _ = last at hchosen ⊢
  cases hchosen with
  | none => exact .error _ _
  | some hsame => exact .ok hsame

variable (hmoves : reach.Moves alike) (hplaces : alike scope near far)
  (huses : ∀ type ∈ types, reach.types scope type)

include hmoves hplaces huses

/-- A value takes the same type at places that are alike. -/
theorem agree_resolve_moved (value : Value) :
    Except.Agree (reach.MovedChoice alike types value.isDocument) (scope.resolve near types value)
      (scope.resolve far types value) :=
  agree_resolve ((choices_moved hmoves hplaces huses _).imp fun _ _ hsame =>
    ⟨hsame, Value.score_movedReading Score.rounded hmoves
      (Value.score_moved Score.rounded hmoves value) hsame.reading⟩)

/-- A stored value takes the same type at places that are alike. -/
theorem agree_resolveStored_moved (stored : WireValue) :
    Except.Agree (reach.MovedChoice alike types stored.isDocument)
      (scope.resolveStored near types stored) (scope.resolveStored far types stored) :=
  agree_resolveStored ((choices_moved hmoves hplaces huses _).imp fun _ _ hsame =>
    ⟨hsame, WireValue.score_movedReading Score.rounded
      (WireValue.score_moved Score.rounded hmoves stored) hsame.reading⟩)

end Chosen

end Scope

/-! ## Undeclared data -/

section Undeclared

/-- The same is to be kept of undeclared data in two scopes, at places that are alike and below. -/
structure Scope.KeepsAlike (first second : Scope σ) (alike : Place → Place → Prop) : Prop where
  child : ∀ {near far}, alike near far → ∀ key, alike (near.child key) (far.child key)
  unknownMatch : ∀ {near far}, alike near far → first.unknownMatch near = second.unknownMatch far

theorem Scope.KeepsAlike.item {first second : Scope σ} {alike : Place → Place → Prop}
    (hkeeps : first.KeepsAlike second alike) {near far : Place} (hplaces : alike near far)
    (index : Nat) : alike (near.item index) (far.item index) :=
  hkeeps.child hplaces (toString index)

theorem Reach.Moves.keepsAlike (hmoves : reach.Moves alike) {scope : Scope σ} {schema : Schema σ}
    (hreaches : reach.schemas scope schema) : scope.KeepsAlike scope (alike scope) where
  child := hmoves.child
  unknownMatch hplaces := hmoves.unknownMatch hplaces hreaches

variable {first second : Scope σ} {alike : Place → Place → Prop}

namespace Value

mutual

/-- The same is kept of an undeclared value at places that are alike. -/
theorem keep?_alike (hkeeps : first.KeepsAlike second alike) :
    ∀ (value : Value) {near far : Place}, alike near far →
      value.keep? first near = value.keep? second far
  | .map fields, near, far, hplaces => by
      simp only [keep?, hkeeps.unknownMatch hplaces, keepFields_alike hkeeps fields hplaces]
  | .list items, near, far, hplaces => by
      simp only [keep?, hkeeps.unknownMatch hplaces, keepItems_alike hkeeps items hplaces 0]
  | .undefined, _, _, hplaces | .null, _, _, hplaces | .bool _, _, _, hplaces
  | .number _, _, _, hplaces | .string _, _, _, hplaces | .binary _, _, _, hplaces
  | .date _, _, _, hplaces | .set _, _, _, hplaces => by
      simp only [keep?, hkeeps.unknownMatch hplaces]

theorem keepItems_alike (hkeeps : first.KeepsAlike second alike) :
    ∀ (items : List Value) {near far : Place}, alike near far → ∀ index,
      keepItems first near index items = keepItems second far index items
  | [], _, _, _, _ => rfl
  | item :: rest, near, far, hplaces, index => by
      simp only [keepItems]
      rw [keep?_alike hkeeps item (hkeeps.item hplaces index),
        keepItems_alike hkeeps rest hplaces (index + 1)]

theorem keepFields_alike (hkeeps : first.KeepsAlike second alike) :
    ∀ (fields : List (String × Value)) {near far : Place}, alike near far →
      keepFields first near fields = keepFields second far fields
  | [], _, _, _ => rfl
  | (key, value) :: rest, near, far, hplaces => by
      simp only [keepFields]
      rw [keep?_alike hkeeps value (hkeeps.child hplaces key),
        keepFields_alike hkeeps rest hplaces]

end

end Value

namespace WireValue

mutual

/-- The same is kept of an undeclared stored value at places that are alike. -/
theorem keep?_alike (hkeeps : first.KeepsAlike second alike) :
    ∀ (stored : WireValue) {near far : Place}, alike near far →
      stored.keep? first near = stored.keep? second far
  | .map fields, near, far, hplaces => by
      simp only [keep?, hkeeps.unknownMatch hplaces, keepFields_alike hkeeps fields hplaces]
  | .list items, near, far, hplaces => by
      simp only [keep?, hkeeps.unknownMatch hplaces, keepItems_alike hkeeps items hplaces 0]
  | .string _, _, _, hplaces | .number _, _, _, hplaces | .binary _, _, _, hplaces
  | .boolean _, _, _, hplaces | .null _, _, _, hplaces | .stringSet _, _, _, hplaces
  | .numberSet _, _, _, hplaces | .binarySet _, _, _, hplaces => by
      simp only [keep?, hkeeps.unknownMatch hplaces]

theorem keepItems_alike (hkeeps : first.KeepsAlike second alike) :
    ∀ (items : List WireValue) {near far : Place}, alike near far → ∀ index,
      keepItems first near index items = keepItems second far index items
  | [], _, _, _, _ => rfl
  | item :: rest, near, far, hplaces, index => by
      simp only [keepItems]
      rw [keep?_alike hkeeps item (hkeeps.item hplaces index),
        keepItems_alike hkeeps rest hplaces (index + 1)]

theorem keepFields_alike (hkeeps : first.KeepsAlike second alike) :
    ∀ (fields : List (String × WireValue)) {near far : Place}, alike near far →
      keepFields first near fields = keepFields second far fields
  | [], _, _, _ => rfl
  | (key, stored) :: rest, near, far, hplaces => by
      simp only [keepFields]
      rw [keep?_alike hkeeps stored (hkeeps.child hplaces key),
        keepFields_alike hkeeps rest hplaces]

end

end WireValue

end Undeclared

end ItemMapper
