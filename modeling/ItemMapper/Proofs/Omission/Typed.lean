import ItemMapper.Proofs.Omission.Scores

/-!
# Values that keep their types

A value is stored alike without its undefined parts if every declared value in it takes the same
type (`Value.KeepsTypes`).  There are two reasons for that: no list has an undefined item, or types
are told apart and every declared value has a type (`Value.Typed`).  The codec then stores both
alike (`Value.agree_encode_stripped`).  Conversely what the codec stores has types throughout
(`Value.typed_of_encode`).
-/

namespace ItemMapper

variable {σ : Type}

/-! ## Types throughout -/

namespace Value

mutual

/-- Every declared list or map in the value has a type, and a list that is to be a set has no
undefined item. -/
def Typed : Value → Scope σ → List (CandidateType σ) → Prop
  | .list items, scope, types =>
    ∃ place choice, scope.resolve place types (.list items) = .ok choice ∧
      (∀ elements, choice.reading.type = .array elements →
        ItemsTyped items choice.reading.scope elements) ∧
      ∀ element, choice.reading.type = .set element → ∀ item ∈ items, item.isUndefined = false
  | .map fields, scope, types =>
    ∃ place choice, scope.resolve place types (.map fields) = .ok choice ∧
      ∀ inner schema, choice.reading.scope.Opens choice.reading.type inner schema →
        FieldsTyped fields inner schema
  | _, _, _ => True

def ItemsTyped : List Value → Scope σ → List (CandidateType σ) → Prop
  | [], _, _ => True
  | item :: rest, scope, elements => Typed item scope elements ∧ ItemsTyped rest scope elements

def FieldsTyped : List (String × Value) → Scope σ → Schema σ → Prop
  | [], _, _ => True
  | (key, value) :: rest, scope, schema =>
    (∀ field, schema.nativeAttribute? key = some field → Typed value scope field.types) ∧
      FieldsTyped rest scope schema

end

variable {scope : Scope σ} {schema : Schema σ} {elements : List (CandidateType σ)}

theorem itemsTyped_iff {items : List Value} :
    ItemsTyped items scope elements ↔ ∀ item ∈ items, item.Typed scope elements := by
  induction items with
  | nil => simp [ItemsTyped]
  | cons item rest ih => rw [ItemsTyped, ih, List.forall_mem_cons]

theorem fieldsTyped_iff {fields : List (String × Value)} :
    FieldsTyped fields scope schema ↔ ∀ entry ∈ fields, ∀ field,
      schema.nativeAttribute? entry.1 = some field → entry.2.Typed scope field.types := by
  induction fields with
  | nil => simp [FieldsTyped]
  | cons entry rest ih => rw [FieldsTyped, ih, List.forall_mem_cons]

end Value

/-! ## What the codec stores has types -/

/-- What is chosen is what the codec goes on with. -/
theorem Scope.encode_of_resolve {scope : Scope σ} {place : Place} {types : List (CandidateType σ)}
    {value : Value} {choice : Choice σ} (hdefined : value.isUndefined = false)
    (hchoice : scope.resolve place types value = .ok choice) :
    scope.encode place types value = value.encodeAs choice.reading := by
  rw [Scope.encode, hdefined, if_neg Bool.false_ne_true, hchoice]
  rfl

/-- An undefined member can not be stored. -/
theorem SetElement.defined_of_members {element : SetElement} {values : List Value}
    {members : List SetMember} (hmembers : element.members values = .ok members) :
    ∀ value ∈ values, value.isUndefined = false := by
  induction values generalizing members with
  | nil => simp
  | cons value rest ih =>
      rw [SetElement.members] at hmembers
      split at hmembers
      · contradiction
      · next member hmember =>
          cases hrest : element.members rest with
          | error cause =>
              rw [hrest] at hmembers
              contradiction
          | ok others =>
              refine List.forall_mem_cons.mpr ⟨?_, ih hrest⟩
              by_contra hundefined
              rw [element.member?_of_undefined (by simpa using hundefined)] at hmember
              contradiction

theorem Reading.defined_of_encodeSet {reading : Reading σ} {element : CandidateType σ}
    {members : List Value} {stored : Option WireValue}
    (hstored : reading.encodeSet element members = .ok stored) :
    ∀ member ∈ members, member.isUndefined = false := by
  unfold encodeSet at hstored
  cases helement : element.setElement? with
  | none =>
      rw [helement] at hstored
      cases members with
      | nil => simp
      | cons => contradiction
  | some kind =>
      rw [helement] at hstored
      dsimp only at hstored
      cases hmembers : kind.members members with
      | error cause =>
          rw [SetElement.encode, hmembers] at hstored
          contradiction
      | ok encodings => exact SetElement.defined_of_members hmembers

namespace Value

mutual

/-- Whatever is stored has types throughout. -/
theorem typed_of_encode : ∀ (value : Value) {scope : Scope σ} {types : List (CandidateType σ)}
    {place : Place} {stored : Option WireValue},
    scope.encode place types value = .ok stored → value.Typed scope types
  | .list items, scope, types, place, stored, hstored => by
      obtain ⟨choice, hchoice, hencode⟩ := (Scope.encode_eq_ok rfl).mp hstored
      rw [encodeAs] at hencode
      refine ⟨place, choice, hchoice, fun elements harray => ?_, fun element hset => ?_⟩
      · rw [harray] at hencode
        obtain ⟨storeds, hstoreds, -⟩ := Except.bind_eq_ok.mp hencode
        exact itemsTyped_of_encode items hstoreds
      · rw [hset] at hencode
        simp only [Reading.encodeScalar, hset] at hencode
        exact Reading.defined_of_encodeSet hencode
  | .map fields, scope, types, place, stored, hstored => by
      obtain ⟨choice, hchoice, hencode⟩ := (Scope.encode_eq_ok rfl).mp hstored
      refine ⟨place, choice, hchoice, fun inner schema hopens => ?_⟩
      obtain ⟨entered, henter⟩ := hopens.enter? choice.reading.place
      rw [encodeAs, Reading.enter?, henter] at hencode
      obtain ⟨pairs, hpairs, -⟩ := Except.bind_eq_ok.mp hencode
      exact fieldsTyped_of_encode fields hpairs
  | .undefined, _, _, _, _, _ | .null, _, _, _, _, _ | .bool _, _, _, _, _, _
  | .number _, _, _, _, _, _ | .string _, _, _, _, _, _ | .binary _, _, _, _, _, _
  | .date _, _, _, _, _, _ | .set _, _, _, _, _, _ => trivial

theorem itemsTyped_of_encode : ∀ (items : List Value) {scope : Scope σ}
    {elements : List (CandidateType σ)} {place : Place} {index : Nat} {storeds : List WireValue},
    encodeItems scope place elements index items = .ok storeds → ItemsTyped items scope elements
  | [], _, _, _, _, _, _ => trivial
  | item :: rest, scope, elements, place, index, storeds, hstoreds => by
      rw [encodeItems_cons] at hstoreds
      obtain ⟨stored, hstored, hrest⟩ := Except.bind_eq_ok.mp hstoreds
      obtain ⟨others, hothers, -⟩ := Except.bind_eq_ok.mp hrest
      exact ⟨typed_of_encode item hstored, itemsTyped_of_encode rest hothers⟩

theorem fieldsTyped_of_encode : ∀ (fields : List (String × Value)) {frame : Frame σ}
    {pairs : List (String × WireValue)}, encodeFields frame fields = .ok pairs →
      FieldsTyped fields frame.scope frame.schema
  | [], _, _, _ => trivial
  | (key, value) :: rest, frame, pairs, hpairs => by
      rw [encodeFields_cons] at hpairs
      obtain ⟨entry, hentry, hrest⟩ := Except.bind_eq_ok.mp hpairs
      obtain ⟨others, hothers, -⟩ := Except.bind_eq_ok.mp hrest
      refine ⟨fun field hfield => ?_, fieldsTyped_of_encode rest hothers⟩
      dsimp only at hentry
      rw [Frame.encodeField, hfield] at hentry
      obtain ⟨stored, hstored, -⟩ := Except.bind_eq_ok.mp hentry
      exact typed_of_encode value hstored

end

end Value

/-! ## The same types -/

namespace Scope

variable {start scope : Scope σ} {types : List (CandidateType σ)} {value : Value}
  {near far : Place} {choice other : Choice σ} (hstart : start.AllOrNothing)
  (huses : ∀ type ∈ types, start.Uses scope type)

include hstart huses

/-- A value that has a type has the same one everywhere. -/
theorem resolve_anywhere (hchoice : scope.resolve near types value = .ok choice) (far : Place) :
    ∃ other, scope.resolve far types value = .ok other ∧ start.SameChoice choice other := by
  have hagree : Except.Agree start.SameChoice (scope.resolve near types value)
      (scope.resolve far types value) := resolve_at hstart.blindTo trivial huses value
  obtain ⟨found, other, hfound, hother, hsame⟩ | ⟨cause, _, hcause, -⟩ := hagree.cases
  · obtain rfl := Except.ok.inj (hchoice.symm.trans hfound)
    exact ⟨other, hother, hsame⟩
  · rw [hchoice] at hcause
    contradiction

theorem sameChoice_of_resolve (hchoice : scope.resolve near types value = .ok choice)
    (hother : scope.resolve far types value = .ok other) : start.SameChoice choice other := by
  obtain ⟨found, hfound, hsame⟩ := resolve_anywhere hstart huses hchoice far
  obtain rfl := Except.ok.inj (hother.symm.trans hfound)
  exact hsame

/-- Where types are told apart, a value that has a type has the same one without its undefined
parts. -/
theorem ToldApart.agree_resolve_stripped (hapart : scope.ToldApart types) {place : Place}
    (hchoice : scope.resolve place types value = .ok choice) (near far : Place) :
    Except.Agree start.SameChoice (scope.resolve near types value)
      (scope.resolve far types value.stripped) := by
  obtain ⟨first, hfirst, -⟩ := resolve_anywhere hstart huses hchoice near
  obtain ⟨second, hsecond, hsame⟩ := hapart.resolve_stripped hstart huses hfirst far
  rw [hfirst, hsecond]
  exact .ok hsame

end Scope

namespace Value

/-- The value takes the same types without its undefined parts, at every depth: no list has an
undefined item, or types are told apart and the value has types throughout. -/
def KeepsTypes (start : Scope σ) (value : Value) (scope : Scope σ)
    (types : List (CandidateType σ)) : Prop :=
  value.ListsDefined ∨
    start.Discerning ∧ scope.ToldApart types ∧ value.Typed scope types

/-- So do the fields that a schema declares. -/
def FieldsKeepTypes (start : Scope σ) (fields : List (String × Value)) (scope : Scope σ)
    (schema : Schema σ) : Prop :=
  ∀ entry ∈ fields, ∀ field, schema.nativeAttribute? entry.1 = some field →
    entry.2.KeepsTypes start scope field.types

namespace KeepsTypes

variable {start scope : Scope σ} {types : List (CandidateType σ)} {items : List Value}
  {fields : List (String × Value)} {place : Place} {choice : Choice σ}
  (hstart : start.AllOrNothing) (huses : ∀ type ∈ types, start.Uses scope type)

include hstart huses

theorem agree_resolve {value : Value} (hkeeps : value.KeepsTypes start scope types)
    (near far : Place) : Except.Agree start.SameChoice (scope.resolve near types value)
      (scope.resolve far types value.stripped) := by
  rcases hkeeps with hdefined | ⟨-, hapart, htyped⟩
  · exact Scope.agree_resolve_stripped hstart huses hdefined near far
  · cases value with
    | list items =>
        obtain ⟨place, choice, hchoice, -⟩ := htyped
        exact hapart.agree_resolve_stripped hstart huses hchoice near far
    | map fields =>
        obtain ⟨place, choice, hchoice, -⟩ := htyped
        exact hapart.agree_resolve_stripped hstart huses hchoice near far
    | _ =>
        refine Scope.agree_resolve_stripped hstart huses ?_ near far
        exact trivial

theorem of_list (hkeeps : (Value.list items).KeepsTypes start scope types)
    (hchoice : scope.resolve place types (.list items) = .ok choice)
    {elements : List (CandidateType σ)} (harray : choice.reading.type = .array elements) :
    ∀ item ∈ items, item.KeepsTypes start choice.reading.scope elements := by
  intro item hitem
  rcases hkeeps with hdefined | ⟨hdiscerning, -, away, found, hfound, hitems, -⟩
  · exact .inl (hdefined.forall_mem item hitem).2
  · have hsame := (Scope.sameChoice_of_resolve hstart huses hchoice hfound).reading
    have htyped := hitems elements (hsame.type.trans harray)
    rw [hsame.scope] at htyped
    exact .inr ⟨hdiscerning, hdiscerning.elements _ _ (harray ▸ hsame.reached),
      itemsTyped_iff.mp htyped item hitem⟩

theorem defined_of_set (hkeeps : (Value.list items).KeepsTypes start scope types)
    (hchoice : scope.resolve place types (.list items) = .ok choice)
    {element : CandidateType σ} (hset : choice.reading.type = .set element) :
    ∀ item ∈ items, item.isUndefined = false := by
  rcases hkeeps with hdefined | ⟨-, -, away, found, hfound, -, hmembers⟩
  · exact fun item hitem => (hdefined.forall_mem item hitem).1
  · have hsame := (Scope.sameChoice_of_resolve hstart huses hchoice hfound).reading
    exact hmembers element (hsame.type.trans hset)

theorem of_map (hkeeps : (Value.map fields).KeepsTypes start scope types)
    (hchoice : scope.resolve place types (.map fields) = .ok choice)
    {inner : Scope σ} {schema : Schema σ}
    (hopens : choice.reading.scope.Opens choice.reading.type inner schema) :
    FieldsKeepTypes start fields inner schema := by
  intro entry hentry field hfield
  rcases hkeeps with hdefined | ⟨hdiscerning, -, away, found, hfound, hfields⟩
  · exact .inl (hdefined.forall_mem entry hentry)
  · have hsame := (Scope.sameChoice_of_resolve hstart huses hchoice hfound).reading
    have htyped := hfields inner schema (by rwa [hsame.scope, hsame.type])
    have hreaches := Scope.Reaches.inside hsame.reached hopens
    have hapart := hdiscerning.attributes _ _ hreaches field
      (SchemaOf.mem_of_nativeAttribute? hfield)
    exact .inr ⟨hdiscerning, hapart, fieldsTyped_iff.mp htyped entry hentry field hfield⟩

end KeepsTypes

/-! ## The codec -/

/-- Undefined items are passed over. -/
theorem encodeItems_undefined (scope : Scope σ) (place : Place)
    (elements : List (CandidateType σ)) (index : Nat) (rest : List Value) :
    encodeItems scope place elements index (.undefined :: rest) =
      encodeItems scope place elements (index + 1) rest := by
  rw [encodeItems_cons]
  exact bind_pure (encodeItems scope place elements (index + 1) rest)

/-- So are undefined fields, declared or not. -/
theorem encodeFields_undefined (frame : Frame σ) (key : String) (rest : List (String × Value)) :
    encodeFields frame ((key, .undefined) :: rest) = encodeFields frame rest := by
  have hnone : frame.encodeField key .undefined = .ok none := by
    unfold Frame.encodeField
    cases frame.schema.nativeAttribute? key with
    | none => simp [keep?_undefined]
    | some field => rfl
  rw [encodeFields_cons, hnone]
  exact bind_pure (encodeFields frame rest)

mutual

/-- A value that keeps its types is stored alike without its undefined parts. -/
theorem agree_encode_stripped {start : Scope σ} (hstart : start.AllOrNothing) :
    ∀ (value : Value) {scope : Scope σ} {types : List (CandidateType σ)},
      (∀ type ∈ types, start.Uses scope type) → value.KeepsTypes start scope types →
        ∀ near far : Place, Except.Agree Eq (scope.encode near types value)
          (scope.encode far types value.stripped)
  | .list items, scope, types, huses, hkeeps, near, far => by
      obtain ⟨choice, other, hchoice, hother, hsame⟩ | ⟨cause, last, hcause, hlast⟩ :=
        (hkeeps.agree_resolve hstart huses near far).cases
      · rw [stripped] at hother ⊢
        rw [Scope.encode_of_resolve rfl hchoice, Scope.encode_of_resolve rfl hother,
          encodeAs, encodeAs, hsame.reading.type]
        split
        · next elements harray =>
            have helements : ∀ type ∈ elements, start.Uses choice.reading.scope type :=
              fun _ htype => .element (harray ▸ hsame.reading.reached) htype
            rw [hsame.reading.scope]
            refine (agree_encodeItems_stripped hstart items helements
              (hkeeps.of_list hstart huses hchoice harray) _ _ 0 0).bind ?_
            rintro storeds _ rfl
            exact .ok rfl
        · refine Reading.encodeScalar_stripped hsame.reading.type ?_
          rintro _ element ⟨⟩ hset
          exact hkeeps.defined_of_set hstart huses hchoice hset
      · rw [Scope.encode, Scope.encode, hcause, hlast]
        exact .error _ _
  | .map fields, scope, types, huses, hkeeps, near, far => by
      obtain ⟨choice, other, hchoice, hother, hsame⟩ | ⟨cause, last, hcause, hlast⟩ :=
        (hkeeps.agree_resolve hstart huses near far).cases
      · rw [stripped] at hother ⊢
        rw [Scope.encode_of_resolve rfl hchoice, Scope.encode_of_resolve rfl hother,
          encodeAs, encodeAs, Reading.enter?, Reading.enter?, hsame.reading.scope,
          hsame.reading.type]
        obtain ⟨inner, schema, nearer, farther, hopens, hnear, hfar⟩ | ⟨hnear, hfar⟩ :=
          choice.reading.scope.enter?_anywhere choice.reading.type choice.reading.place
            other.reading.place
        · rw [hnear, hfar]
          refine (agree_encodeFields_stripped hstart fields (.inside hsame.reading.reached hopens)
            (hkeeps.of_map hstart huses hchoice hopens) nearer farther).bind ?_
          rintro pairs _ rfl
          exact .ok rfl
        · rw [hnear, hfar]
          exact Reading.encodeScalar_stripped hsame.reading.type nofun
      · rw [Scope.encode, Scope.encode, hcause, hlast]
        exact .error _ _
  | .set members, scope, types, huses, hkeeps, near, far => by
      refine (hkeeps.agree_resolve hstart huses near far).bind fun choice other hsame => ?_
      exact Reading.encodeScalar_stripped hsame.reading.type nofun
  | .undefined, _, _, _, _, _, _ => .ok rfl
  | .null, _, _, huses, hkeeps, near, far | .bool _, _, _, huses, hkeeps, near, far
  | .number _, _, _, huses, hkeeps, near, far | .string _, _, _, huses, hkeeps, near, far
  | .binary _, _, _, huses, hkeeps, near, far | .date _, _, _, huses, hkeeps, near, far => by
      refine (hkeeps.agree_resolve hstart huses near far).bind fun choice other hsame => ?_
      exact Reading.encodeScalar_stripped hsame.reading.type nofun

theorem agree_encodeItems_stripped {start : Scope σ} (hstart : start.AllOrNothing) :
    ∀ (items : List Value) {scope : Scope σ} {elements : List (CandidateType σ)},
      (∀ type ∈ elements, start.Uses scope type) →
      (∀ item ∈ items, item.KeepsTypes start scope elements) →
        ∀ (near far : Place) (first second : Nat), Except.Agree Eq
          (encodeItems scope near elements first items)
          (encodeItems scope far elements second (strippedItems items))
  | [], _, _, _, _, _, _, _, _ => .ok rfl
  | item :: rest, scope, elements, huses, hkeeps, near, far, first, second => by
      rw [List.forall_mem_cons] at hkeeps
      by_cases hundefined : item.isUndefined = true
      · obtain rfl := eq_undefined hundefined
        have hrest := agree_encodeItems_stripped hstart rest huses hkeeps.2 near far (first + 1)
          second
        rwa [strippedItems_cons_of_undefined rfl, encodeItems_undefined]
      · rw [strippedItems_cons_of_defined (by simpa using hundefined), encodeItems_cons,
          encodeItems_cons]
        refine (agree_encode_stripped hstart item huses hkeeps.1 _ _).bind ?_
        rintro stored _ rfl
        refine (agree_encodeItems_stripped hstart rest huses hkeeps.2 near far (first + 1)
          (second + 1)).bind ?_
        rintro others _ rfl
        exact .ok rfl

theorem agree_encodeFields_stripped {start : Scope σ} (hstart : start.AllOrNothing) :
    ∀ (fields : List (String × Value)) {scope : Scope σ} {schema : Schema σ},
      start.Reaches scope schema → FieldsKeepTypes start fields scope schema →
        ∀ near far : Place, Except.Agree Eq (encodeFields ⟨scope, near, schema⟩ fields)
          (encodeFields ⟨scope, far, schema⟩ (strippedFields fields))
  | [], _, _, _, _, _, _ => .ok rfl
  | (key, value) :: rest, scope, schema, hreaches, hkeeps, near, far => by
      obtain ⟨hvalue, hrest⟩ := List.forall_mem_cons.mp hkeeps
      by_cases hundefined : value.isUndefined = true
      · obtain rfl := eq_undefined hundefined
        have hothers := agree_encodeFields_stripped hstart rest hreaches hrest near far
        rwa [strippedFields_cons_of_undefined rfl, encodeFields_undefined]
      · rw [strippedFields_cons_of_defined (by simpa using hundefined), encodeFields_cons,
          encodeFields_cons]
        have hentry : Except.Agree Eq (Frame.encodeField ⟨scope, near, schema⟩ key value)
            (Frame.encodeField ⟨scope, far, schema⟩ key value.stripped) := by
          unfold Frame.encodeField
          dsimp only
          cases hfield : schema.nativeAttribute? key with
          | none =>
              rw [keep?_stripped (fun _ _ => hstart.unknownMatch_eq hreaches _ _) value
                (near.child key) (far.child key)]
              exact .refl _
          | some field =>
              refine (agree_encode_stripped hstart value (hreaches.uses_of_nativeAttribute? hfield)
                (hvalue field hfield) _ _).bind ?_
              rintro stored _ rfl
              exact .ok rfl
        refine hentry.bind ?_
        rintro entry _ rfl
        refine (agree_encodeFields_stripped hstart rest hreaches hrest near far).bind ?_
        rintro others _ rfl
        exact .ok rfl

end

end Value

end ItemMapper
