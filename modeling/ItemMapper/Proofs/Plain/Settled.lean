import ItemMapper.Proofs.Plain.Codec

/-!
# Values that are encoded alike everywhere

Where a value is looked at matters in two ways: `self` means the root of the scope, and the
patterns of the root, counted from the document that it describes, decide which undeclared fields
are kept.  A value that meets neither is settled (`Value.Settled`).  In a reference the scope begins
anew, with the schema of the model, so that nothing is asked of the documents there.

A settled value is encoded alike in any two scopes of one registry, at any two places with the same
keys: `Scope.encode_of_settled`.
-/

namespace ItemMapper

variable {σ : Type}

/-! ## Places with the same keys -/

namespace Place

/-- The keys on the way to a place. -/
def keys (place : Place) : List String :=
  place.outer ++ place.inner

theorem keys_child (place : Place) (key : String) :
    (place.child key).keys = place.keys ++ [key] :=
  (List.append_assoc _ _ _).symm

variable {near far : Place}

theorem child_congr (hkeys : near.keys = far.keys) (key : String) :
    (near.child key).keys = (far.child key).keys := by
  rw [keys_child, keys_child, hkeys]

theorem text_congr (hkeys : near.keys = far.keys) : near.text = far.text :=
  congrArg keysText hkeys

theorem enter_congr (hkeys : near.keys = far.keys) : near.enter = far.enter :=
  congrArg (Place.mk · []) hkeys

theorem restart_congr (hkeys : near.keys = far.keys) : near.restart = far.restart :=
  congrArg (Place.mk []) hkeys

end Place

/-! ## Settled values -/

mutual

/-- A value of this type meets no `self` and no undeclared field before the next reference. -/
def Value.Settled : Value → CandidateType σ → Prop
  | .list items, .array elements => Value.ItemsSettled items elements
  | .list items, .set element => Value.ItemsSettled items [element]
  | .set members, .set element => Value.ItemsSettled members [element]
  | .map fields, .object schema => Value.FieldsSettled fields schema
  | .map _, .self => False
  | _, _ => True

def Value.ItemsSettled : List Value → List (CandidateType σ) → Prop
  | [], _ => True
  | item :: rest, types => (∀ type ∈ types, item.Settled type) ∧ Value.ItemsSettled rest types

def Value.FieldsSettled : List (String × Value) → Schema σ → Prop
  | [], _ => True
  | (key, value) :: rest, schema =>
    (value = .undefined ∨ ∃ field, schema.nativeAttribute? key = some field ∧
      ∀ type ∈ field.types, value.Settled type) ∧ Value.FieldsSettled rest schema

end

/-! ## Readings at two places -/

section Elsewhere

variable {first second : Scope σ} {near far : Place} {types : List (CandidateType σ)}

/-- The hash key of a model is read in the scope of the model. -/
theorem Registry.keyReadings_congr (registry : Registry σ) (hkeys : near.keys = far.keys)
    (budget : Nat) (way : List String) (name : String) :
    registry.keyReadings near budget way name = registry.keyReadings far budget way name := by
  induction budget generalizing way name with
  | zero => rfl
  | succ budget ih => simp only [Registry.keyReadings, Place.restart_congr hkeys, ih]

variable (hregistry : first.registry = second.registry) (hkeys : near.keys = far.keys)

include hregistry hkeys

theorem Scope.readings_map_congr {α : Type} {f : Reading σ → α} {type : CandidateType σ}
    (hsame : f ⟨first, near, type⟩ = f ⟨second, far, type⟩) (isDocument : Bool) :
    (first.readings near isDocument type).map f = (second.readings far isDocument type).map f := by
  obtain ⟨name, rfl, rfl⟩ | hreadings := readings_cases isDocument type
  · simp only [readings, hregistry, Registry.keyReadings_congr _ hkeys]
  · simpa [hreadings] using hsame

/-- What depends on a reading is alike for all readings of a value if it is so for its types. -/
theorem Scope.flatMap_readings_congr {α : Type} {f : Reading σ → α}
    (hsame : ∀ type ∈ types, f ⟨first, near, type⟩ = f ⟨second, far, type⟩) (isDocument : Bool) :
    (types.flatMap (first.readings near isDocument)).map f =
      (types.flatMap (second.readings far isDocument)).map f := by
  rw [List.map_flatMap, List.map_flatMap]
  exact List.flatMap_congr fun type htype =>
    Scope.readings_map_congr hregistry hkeys (hsame type htype) isDocument

/-- A reference leads into the same document from both places. -/
theorem Scope.enter?_model_congr (name : String) :
    first.enter? near (.model name) = second.enter? far (.model name) := by
  simp only [Scope.enter?, hregistry, Place.enter_congr hkeys]

end Elsewhere

/-! ## Scores -/

section Scores

variable {first second : Scope σ} (hregistry : first.registry = second.registry)
  (round : Rat → Rat)

include hregistry

mutual

theorem Value.score_of_settled : ∀ (value : Value) {type : CandidateType σ} {near far : Place},
    near.keys = far.keys → value.Settled type →
      value.score round ⟨first, near, type⟩ = value.score round ⟨second, far, type⟩
  | .list items, type, near, far, hkeys, hsettled => by
      cases type with
      | array elements =>
          simp only [Value.score]
          rw [Value.itemScores_of_settled items 0 hkeys hsettled]
      | set element =>
          simp only [Value.score]
          rw [Value.memberScores_of_settled items hkeys hsettled]
      | _ => rfl
  | .set members, type, near, far, hkeys, hsettled => by
      cases type with
      | set element =>
          simp only [Value.score]
          rw [Value.memberScores_of_settled members hkeys hsettled]
      | _ => rfl
  | .map fields, type, near, far, hkeys, hsettled => by
      cases type with
      | object schema =>
          simp only [Value.score, Reading.enter?, Scope.enter?]
          rw [Value.fieldScores_of_settled fields hkeys hsettled]
      | self => exact hsettled.elim
      | model name =>
          simp only [Value.score, Reading.enter?, Scope.enter?_model_congr hregistry hkeys]
      | _ => rfl
  | .undefined, _, _, _, _, _ | .null, _, _, _, _, _ | .bool _, _, _, _, _, _
  | .number _, _, _, _, _, _ | .string _, _, _, _, _, _ | .binary _, _, _, _, _, _
  | .date _, _, _, _, _, _ => rfl

theorem Value.itemScores_of_settled : ∀ (items : List Value) {elements : List (CandidateType σ)}
    (index : Nat) {near far : Place}, near.keys = far.keys → Value.ItemsSettled items elements →
      Value.itemScores round first near elements index items =
        Value.itemScores round second far elements index items
  | [], _, _, _, _, _, _ => rfl
  | item :: rest, elements, index, near, far, hkeys, hsettled => by
      have hitem := Scope.flatMap_readings_congr hregistry
        (Place.child_congr hkeys (toString index)) (fun type htype =>
          Value.score_of_settled item (Place.child_congr hkeys _) (hsettled.1 type htype))
        item.isDocument
      simp only [Value.itemScores]
      rw [Value.itemScores_of_settled rest (index + 1) hkeys hsettled.2]
      exact congrArg (Score.best · :: _) hitem

theorem Value.memberScores_of_settled : ∀ (members : List Value) {element : CandidateType σ}
    {near far : Place}, near.keys = far.keys → Value.ItemsSettled members [element] →
      Value.memberScores round first near element members =
        Value.memberScores round second far element members
  | [], _, _, _, _, _ => rfl
  | member :: rest, element, near, far, hkeys, hsettled => by
      have hmember := Scope.readings_map_congr hregistry hkeys (Value.score_of_settled member hkeys
        (hsettled.1 element List.mem_cons_self)) member.isDocument
      simp only [Value.memberScores]
      rw [Value.memberScores_of_settled rest hkeys hsettled.2, hmember]

theorem Value.fieldScores_of_settled : ∀ (fields : List (String × Value)) {schema : Schema σ}
    {near far : Place}, near.keys = far.keys → Value.FieldsSettled fields schema →
      Value.fieldScores round ⟨first, near, schema⟩ fields =
        Value.fieldScores round ⟨second, far, schema⟩ fields
  | [], _, _, _, _, _ => rfl
  | (key, value) :: rest, schema, near, far, hkeys, hsettled => by
      have hrest := Value.fieldScores_of_settled rest hkeys hsettled.2
      rcases hsettled.1 with rfl | ⟨field, hfield, hvalue⟩
      · -- an undefined field has no score, be it declared or not
        exact hrest
      · have hscores := Scope.flatMap_readings_congr hregistry (Place.child_congr hkeys key)
          (fun type htype =>
            Value.score_of_settled value (Place.child_congr hkeys _) (hvalue type htype))
          value.isDocument
        simp only [Value.fieldScores, hfield, hrest, hscores]

end

end Scores

/-! ## Encoding -/

/-- What a value is encoded as by each of its readings, with the score of the reading. -/
def Scope.outcomes (scope : Scope σ) (place : Place) (types : List (CandidateType σ))
    (value : Value) : List (Except MapperError (Option WireValue) × Rat) :=
  (types.flatMap (scope.readings place value.isDocument)).map fun reading =>
    (value.encodeAs reading, value.score Score.rounded reading)

/-- A value is encoded as it is by the best of its readings. -/
theorem Scope.encode_eq_outcome (scope : Scope σ) (place : Place)
    (types : List (CandidateType σ)) {value : Value} (hdefined : value.isUndefined = false) :
    scope.encode place types value =
      (((Score.firstBest (scope.outcomes place types value)).map Prod.fst).getD
        (.error (.mismatch place types value.typeName))) := by
  have houtcomes : scope.outcomes place types value =
      ((scope.choices place types value.isDocument).map fun choice =>
        (choice, value.score Score.rounded choice.reading)).map
          (Prod.map (fun choice => value.encodeAs choice.reading) id) := by
    simp only [outcomes, choices, List.map_flatMap, List.map_map]
    rfl
  rw [encode, hdefined, houtcomes, Score.firstBest_map, resolve, choose?]
  cases Score.firstBest ((scope.choices place types value.isDocument).map fun choice =>
    (choice, value.score Score.rounded choice.reading)) <;> rfl

/-- No entry is made of a field that is to have no value. -/
theorem Frame.encodeField_undefined (frame : Frame σ) (key : String) :
    frame.encodeField key .undefined = .ok none := by
  rw [encodeField]
  cases frame.schema.nativeAttribute? key with
  | none => simp [Value.keep?, Value.natural?]
  | some field => rfl

section Encoding

variable {first second : Scope σ} {near far : Place}

theorem MapperError.mismatch_congr (hkeys : near.keys = far.keys)
    (types : List (CandidateType σ)) (actual : String) :
    MapperError.mismatch near types actual = .mismatch far types actual := by
  rw [mismatch, mismatch, Place.text_congr hkeys]

/-- Scalars are encoded without a look at the scope. -/
theorem Reading.encodeScalar_congr (hkeys : near.keys = far.keys) (type : CandidateType σ)
    (value : Value) :
    encodeScalar ⟨first, near, type⟩ value = encodeScalar ⟨second, far, type⟩ value := by
  simp only [encodeScalar, encodeSet, mismatch, MapperError.mismatch_congr hkeys]

variable (hregistry : first.registry = second.registry)

include hregistry

/-- A value is encoded alike if this holds for each of its types. -/
theorem Scope.encode_congr (hkeys : near.keys = far.keys) {types : List (CandidateType σ)}
    {value : Value} (hsettled : ∀ type ∈ types, value.Settled type)
    (hencode : ∀ type ∈ types,
      value.encodeAs ⟨first, near, type⟩ = value.encodeAs ⟨second, far, type⟩) :
    first.encode near types value = second.encode far types value := by
  cases hdefined : value.isUndefined with
  | true => rw [encode, encode, hdefined]; rfl
  | false =>
      have houtcomes : first.outcomes near types value = second.outcomes far types value :=
        flatMap_readings_congr hregistry hkeys (fun type htype => by
          rw [hencode type htype, Value.score_of_settled hregistry _ value hkeys
            (hsettled type htype)]) _
      rw [encode_eq_outcome _ _ _ hdefined, encode_eq_outcome _ _ _ hdefined, houtcomes,
        MapperError.mismatch_congr hkeys]

mutual

theorem Value.encodeAs_of_settled : ∀ (value : Value) {type : CandidateType σ}
    {near far : Place}, near.keys = far.keys → value.Settled type →
      value.encodeAs ⟨first, near, type⟩ = value.encodeAs ⟨second, far, type⟩
  | .list items, type, near, far, hkeys, hsettled => by
      cases type with
      | array elements =>
          simp only [Value.encodeAs]
          rw [Value.encodeItems_of_settled items 0 hkeys hsettled]
      | _ =>
          simp only [Value.encodeAs]
          exact Reading.encodeScalar_congr hkeys _ _
  | .map fields, type, near, far, hkeys, hsettled => by
      -- objects stay in their scopes, references lead into the same document
      cases type with
      | object schema =>
          simp only [Value.encodeAs, Reading.enter?, Scope.enter?]
          rw [Value.encodeFields_of_settled fields hkeys hsettled]
      | self => exact hsettled.elim
      | model name =>
          simp only [Value.encodeAs, Reading.enter?, Scope.enter?_model_congr hregistry hkeys]
          cases second.enter? far (.model name) with
          | none => exact Reading.encodeScalar_congr hkeys _ _
          | some frame => rfl
      | _ =>
          simp only [Value.encodeAs]
          exact Reading.encodeScalar_congr hkeys _ _
  | .undefined, _, _, _, hkeys, _ | .null, _, _, _, hkeys, _ | .bool _, _, _, _, hkeys, _
  | .number _, _, _, _, hkeys, _ | .string _, _, _, _, hkeys, _ | .binary _, _, _, _, hkeys, _
  | .date _, _, _, _, hkeys, _ | .set _, _, _, _, hkeys, _ => by
      simp only [Value.encodeAs]
      exact Reading.encodeScalar_congr hkeys _ _

theorem Value.encodeItems_of_settled : ∀ (items : List Value)
    {elements : List (CandidateType σ)} (index : Nat) {near far : Place}, near.keys = far.keys →
      Value.ItemsSettled items elements →
      Value.encodeItems first near elements index items =
        Value.encodeItems second far elements index items
  | [], _, _, _, _, _, _ => rfl
  | item :: rest, elements, index, near, far, hkeys, hsettled => by
      have hitem := Scope.encode_congr hregistry (Place.child_congr hkeys (toString index))
        hsettled.1 fun type htype =>
          Value.encodeAs_of_settled item (Place.child_congr hkeys _) (hsettled.1 type htype)
      rw [Value.encodeItems_cons, Value.encodeItems_cons,
        Value.encodeItems_of_settled rest (index + 1) hkeys hsettled.2]
      exact congrArg (· >>= _) hitem

theorem Value.encodeFields_of_settled : ∀ (fields : List (String × Value)) {schema : Schema σ}
    {near far : Place}, near.keys = far.keys → Value.FieldsSettled fields schema →
      Value.encodeFields ⟨first, near, schema⟩ fields =
        Value.encodeFields ⟨second, far, schema⟩ fields
  | [], _, _, _, _, _ => rfl
  | (key, value) :: rest, schema, near, far, hkeys, hsettled => by
      have hfield : Frame.encodeField ⟨first, near, schema⟩ key value =
          Frame.encodeField ⟨second, far, schema⟩ key value := by
        rcases hsettled.1 with rfl | ⟨field, hfield, hvalue⟩
        · rw [Frame.encodeField_undefined, Frame.encodeField_undefined]
        · simp only [Frame.encodeField, hfield]
          rw [Scope.encode_congr hregistry (Place.child_congr hkeys key) hvalue fun type htype =>
            Value.encodeAs_of_settled value (Place.child_congr hkeys _) (hvalue type htype)]
      rw [Value.encodeFields_cons, Value.encodeFields_cons, hfield,
        Value.encodeFields_of_settled rest hkeys hsettled.2]

end

/-- A settled value is encoded alike in two scopes of one registry, at two places with the same
keys. -/
theorem Scope.encode_of_settled (hkeys : near.keys = far.keys) {types : List (CandidateType σ)}
    {value : Value} (hsettled : ∀ type ∈ types, value.Settled type) :
    first.encode near types value = second.encode far types value :=
  encode_congr hregistry hkeys hsettled fun type htype =>
    Value.encodeAs_of_settled hregistry value hkeys (hsettled type htype)

end Encoding

end ItemMapper
