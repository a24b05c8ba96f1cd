import ItemMapper.Proofs.Coding.Members
import ItemMapper.Proofs.Expression.Faults
import ItemMapper.Proofs.Typing.Apart

/-!
# What the chosen type refuses

The type of a value is chosen by a score, and a value may have a score without being stored.  A
number counts as a date whatever its size, though not every number is a date; and of a set or list
not all members need to fit.  Values of an array are chosen a type one by one, but a list that is
the key of a referenced model is left to the codec as a whole.  There is nothing else that the codec
refuses (`Value.refused_of_encodeAs`).

A stored value is chosen a type that it fits, except that the members of a stored set are not
looked at: texts or numbers need not be dates (`WireValue.refused_of_decodeLeaf`).
-/

namespace ItemMapper

variable {σ : Type}

/-! ## Sets -/

theorem Option.mapM_eq_none_iff {α β : Type} {f : α → Option β} {items : List α} :
    items.mapM f = none ↔ ∃ item ∈ items, f item = none := by
  induction items with
  | nil => simp
  | cons item rest ih =>
      rw [List.mapM_cons, List.exists_mem_cons_iff, ← ih]
      cases f item with
      | none => simp
      | some value => cases rest.mapM f <;> simp

namespace SetElement

variable {element : SetElement}

/-- The first value that can not be a member is reported. -/
theorem of_members_eq_error {values : List Value} {wrong : Value}
    (hmembers : element.members values = .error wrong) :
    wrong ∈ values ∧ element.member? wrong = none := by
  induction values with
  | nil => cases hmembers
  | cons value rest ih =>
      rw [members] at hmembers
      split at hmembers
      · next hforeign =>
          obtain rfl := Except.error.inj hmembers
          exact ⟨List.mem_cons_self, hforeign⟩
      · cases hrest : element.members rest with
        | ok others =>
            rw [hrest] at hmembers
            cases hmembers
        | error other =>
            rw [hrest] at hmembers
            obtain rfl := Except.error.inj hmembers
            obtain ⟨hmem, hforeign⟩ := ih hrest
            exact ⟨List.mem_cons_of_mem _ hmem, hforeign⟩

theorem encode_ne_ok {values : List Value} {value : Value} (hvalue : value ∈ values)
    (hforeign : element.member? value = none) (stored : Option WireValue) :
    element.encode values ≠ .ok stored := by
  intro hencode
  cases hmembers : element.members values with
  | error wrong =>
      rw [encode, hmembers] at hencode
      cases hencode
  | ok members =>
      obtain ⟨member, -, hmember⟩ := exists_related_left (forall₂_of_members hmembers) hvalue
      rw [hforeign] at hmember
      cases hmember

end SetElement

namespace Reading

variable {reading : Reading σ} {element : CandidateType σ} {values : List Value}

theorem exists_foreign_of_encodeSet {cause : MapperError}
    (hencode : reading.encodeSet element values = .error cause) :
    ∃ member ∈ values, ∀ kind ∈ element.setElement?, kind.member? member = none := by
  cases hkind : element.setElement? with
  | some kind =>
      simp only [encodeSet, hkind, SetElement.encode] at hencode
      cases hmembers : kind.members values with
      | ok members =>
          rw [hmembers] at hencode
          cases hencode
      | error wrong =>
          obtain ⟨hwrong, hforeign⟩ := SetElement.of_members_eq_error hmembers
          exact ⟨wrong, hwrong, by simpa using hforeign⟩
  | none =>
      cases values with
      | nil =>
          simp only [encodeSet, hkind] at hencode
          cases hencode
      | cons value rest => exact ⟨value, List.mem_cons_self, by simp⟩

theorem encodeSet_ne_ok {member : Value} (hmember : member ∈ values)
    (hforeign : ∀ kind ∈ element.setElement?, kind.member? member = none)
    (stored : Option WireValue) : reading.encodeSet element values ≠ .ok stored := by
  intro hencode
  cases hkind : element.setElement? with
  | some kind =>
      simp only [encodeSet, hkind] at hencode
      cases hresult : kind.encode values with
      | ok encoded => exact SetElement.encode_ne_ok hmember (hforeign kind hkind) encoded hresult
      | error wrong =>
          rw [hresult] at hencode
          cases hencode
  | none =>
      cases values with
      | nil => cases hmember
      | cons value rest =>
          simp only [encodeSet, hkind] at hencode
          cases hencode

end Reading

/-! ## Native values -/

namespace Value

/-- The type that is chosen for a value does not store it. -/
inductive Refused (scope : Scope σ) (place : Place) (types : List (CandidateType σ)) :
    Value → Prop
  /-- The number is no date. -/
  | date {choice : Choice σ} {storage : DateStorage} {number : Binary64}
      (hchoice : scope.resolve place types (.number number) = .ok choice)
      (htype : choice.reading.type = .date storage)
      (hdate : (Value.number number).date? = none) : Refused scope place types (.number number)
  /-- A member of the set, or of the list that stands for it, is of another kind. -/
  | member {choice : Choice σ} {element : CandidateType σ} {value member : Value}
      {members : List Value} (hchoice : scope.resolve place types value = .ok choice)
      (htype : choice.reading.type = .set element)
      (hvalue : value = .set members ∨ value = .list members) (hmember : member ∈ members)
      (hforeign : ∀ kind ∈ element.setElement?, kind.member? member = none) :
      Refused scope place types value
  /-- An item of the list, which is the key of a referenced model, can not be encoded. -/
  | key {choice : Choice σ} {name : String} {elements : List (CandidateType σ)}
      {items : List Value} {index : Nat} {item : Value} {cause : MapperError}
      (hchoice : scope.resolve place types (.list items) = .ok choice)
      (hreference : choice.type = .model name) (htype : choice.reading.type = .array elements)
      (hitem : items[index]? = some item)
      (hencode : choice.reading.scope.encode (choice.reading.place.item index) elements item =
        .error cause) : Refused scope place types (.list items)

variable {scope : Scope σ} {place : Place} {types elements : List (CandidateType σ)} {value : Value}
  {choice : Choice σ} {cause : MapperError}

theorem exists_item_of_encodeItems {items : List Value} {start : Nat}
    (hencode : encodeItems scope place elements start items = .error cause) :
    ∃ index item, items[index]? = some item ∧
      scope.encode (place.item (start + index)) elements item = .error cause := by
  induction items generalizing start with
  | nil => cases hencode
  | cons first rest ih =>
      rw [encodeItems_cons] at hencode
      rcases Except.bind_eq_error.mp hencode with hfirst | ⟨_, -, hothers⟩
      · exact ⟨0, first, rfl, hfirst⟩
      · rcases Except.bind_eq_error.mp hothers with hrest | ⟨_, -, hnone⟩
        · obtain ⟨index, item, hitem, hfound⟩ := ih hrest
          exact ⟨index + 1, item, hitem, by rwa [Nat.add_right_comm, Nat.add_assoc] at hfound⟩
        · cases hnone

theorem encodeItems_ne_ok {items : List Value} {start index : Nat} {item : Value}
    (hitem : items[index]? = some item)
    (hencode : scope.encode (place.item (start + index)) elements item = .error cause)
    (storeds : List WireValue) : encodeItems scope place elements start items ≠ .ok storeds := by
  induction items generalizing start index storeds with
  | nil => simp at hitem
  | cons first rest ih =>
      intro hitems
      rw [encodeItems_cons, Except.bind_eq_ok] at hitems
      obtain ⟨stored, hstored, hothers⟩ := hitems
      obtain ⟨others, hothers, -⟩ := Except.bind_eq_ok.mp hothers
      cases index with
      | zero =>
          obtain rfl : first = item := by simpa using hitem
          cases hencode.symm.trans hstored
      | succ index =>
          rw [← Nat.add_assoc, Nat.add_right_comm] at hencode
          exact ih (by simpa using hitem) hencode others hothers

/-- The type of a list may be one with items only behind a reference, unless it is itself such a
type. -/
theorem exists_model_of_reading {reading : Reading σ} {type : CandidateType σ} {isDocument : Bool}
    (hreading : reading ∈ scope.readings place isDocument type) (hdifferent : reading.type ≠ type) :
    ∃ name, type = .model name := by
  by_contra hmodel
  rw [Scope.readings_of_ne_model fun name hname => hmodel ⟨name, hname⟩,
    List.mem_singleton] at hreading
  exact hdifferent (by rw [hreading])

/-- What the codec does not store at once as the chosen type is refused. -/
theorem refused_of_encodeScalar (hchoice : scope.resolve place types value = .ok choice)
    (hmap : ∀ fields, value ≠ .map fields)
    (harray : ∀ items elements, value = .list items → choice.reading.type ≠ .array elements)
    (hencode : choice.reading.encodeScalar value = .error cause) :
    value.Refused scope place types := by
  have htakes : value.typeName ∈ choice.reading.type.takes :=
    mem_takes_of_score (Scope.of_choose? (Scope.resolve_eq_ok_iff.mp hchoice)).2
  unfold Reading.encodeScalar at hencode
  cases htype : choice.reading.type with
  | primitive _ | combine _ _ | constant _ =>
      rw [htype] at hencode
      cases hencode
  | object _ | self | model _ =>
      rw [htype] at htakes
      cases value <;> simp_all [CandidateType.takes, typeName]
  | array elements =>
      rw [htype] at htakes
      cases value <;> simp_all [CandidateType.takes, typeName]
  | date storage =>
      rw [htype] at htakes
      simp only [htype] at hencode
      cases value with
      | number number =>
          cases hdate : (Value.number number).date? with
          | none => exact .date hchoice htype hdate
          | some instant =>
              rw [hdate] at hencode
              cases hencode
      | date instant => cases hencode
      | _ => simp [CandidateType.takes, typeName] at htakes
  | set element =>
      rw [htype] at htakes
      simp only [htype] at hencode
      cases value with
      | set members =>
          obtain ⟨member, hmember, hforeign⟩ := Reading.exists_foreign_of_encodeSet hencode
          exact .member hchoice htype (.inl rfl) hmember hforeign
      | list members =>
          obtain ⟨member, hmember, hforeign⟩ := Reading.exists_foreign_of_encodeSet hencode
          exact .member hchoice htype (.inr rfl) hmember hforeign
      | _ => simp [CandidateType.takes, typeName] at htakes

/-- What the codec does not store of a value, unless writing goes on inside of it, is refused. -/
theorem refused_of_encodeAs (hchoice : scope.resolve place types value = .ok choice)
    (hmap : ∀ fields, value = .map fields → scope.enter? place choice.type = none)
    (hlist : ∀ items, value = .list items → ∀ elements, choice.type ≠ .array elements)
    (hencode : value.encodeAs choice.reading = .error cause) : value.Refused scope place types := by
  cases value with
  | list items =>
      rw [encodeAs] at hencode
      split at hencode
      · next elements harray =>
          obtain ⟨name, hname⟩ := exists_model_of_reading (Scope.of_resolve hchoice).2 fun hsame =>
            hlist items rfl elements (hsame.symm.trans harray)
          rcases Except.bind_eq_error.mp hencode with hitems | ⟨_, -, hnone⟩
          · obtain ⟨index, item, hitem, hcause⟩ := exists_item_of_encodeItems hitems
            rw [Nat.zero_add] at hcause
            exact .key hchoice hname harray hitem hcause
          · cases hnone
      · next harray =>
          exact refused_of_encodeScalar hchoice (by simp) (fun _ elements _ => harray elements)
            hencode
  | map fields =>
      -- a map without a document is nothing but a constant, and that has a stored form or none
      have henter := hmap fields rfl
      have hscore := (Scope.of_choose? (Scope.resolve_eq_ok_iff.mp hchoice)).2
      rw [Scope.reading_of_document hchoice rfl] at hencode hscore
      have hinside : Reading.enter? ⟨scope, place, choice.type⟩ = none := henter
      simp only [score, hinside, scalarScore, Score.ofBool_pos] at hscore
      simp only [encodeAs, hinside, Reading.encodeScalar] at hencode
      cases htype : choice.type <;> simp_all
  | _ =>
      exact refused_of_encodeScalar hchoice (by simp) (by simp) (by simpa [encodeAs] using hencode)

/-- The codec does not store a refused value. -/
theorem Refused.encodeAs_ne_ok (hrefused : value.Refused scope place types)
    (hchoice : scope.resolve place types value = .ok choice) (stored : Option WireValue) :
    value.encodeAs choice.reading ≠ .ok stored := by
  intro hencode
  cases hrefused with
  | date hfound htype hdate =>
      obtain rfl := Except.ok.inj (hfound.symm.trans hchoice)
      simp only [encodeAs, Reading.encodeScalar, htype, hdate] at hencode
      cases hencode
  | member hfound htype hvalue hmember hforeign =>
      obtain rfl := Except.ok.inj (hfound.symm.trans hchoice)
      rcases hvalue with rfl | rfl
      · simp only [encodeAs, Reading.encodeScalar, htype] at hencode
        exact Reading.encodeSet_ne_ok hmember hforeign stored hencode
      · simp only [encodeAs, Reading.encodeScalar, htype] at hencode
        exact Reading.encodeSet_ne_ok hmember hforeign stored hencode
  | key hfound hreference htype hitem hcause =>
      obtain rfl := Except.ok.inj (hfound.symm.trans hchoice)
      simp only [encodeAs, htype, Except.bind_eq_ok] at hencode
      obtain ⟨storeds, hitems, -⟩ := hencode
      exact encodeItems_ne_ok hitem (by rwa [Nat.zero_add]) storeds hitems

theorem Refused.exists_choice (hrefused : value.Refused scope place types) :
    ∃ choice, scope.resolve place types value = .ok choice := by
  cases hrefused with
  | date hchoice => exact ⟨_, hchoice⟩
  | member hchoice => exact ⟨_, hchoice⟩
  | key hchoice => exact ⟨_, hchoice⟩

/-- Writing does not go on inside of a refused value. -/
theorem Refused.whole (hrefused : value.Refused scope place types) :
    value ≠ .undefined ∧ (∀ fields, value ≠ .map fields) ∧
      ∀ items, value = .list items → ∀ choice, scope.resolve place types value = .ok choice →
        ∀ elements, choice.type ≠ .array elements := by
  cases hrefused with
  | date => simp
  | member hfound htype hvalue =>
      refine ⟨by rcases hvalue with rfl | rfl <;> simp, by rcases hvalue with rfl | rfl <;> simp,
        fun items _ choice hchoice elements harray => ?_⟩
      obtain rfl := Except.ok.inj (hfound.symm.trans hchoice)
      rw [Scope.reading_of_array hchoice harray] at htype
      cases htype
  | key hfound hreference =>
      refine ⟨by simp, by simp, fun items _ choice hchoice elements harray => ?_⟩
      obtain rfl := Except.ok.inj (hfound.symm.trans hchoice)
      cases hreference.symm.trans harray

end Value

/-! ## Stored values -/

namespace WireValue

/-- The members of a stored set of texts or numbers. -/
def scalarMembers : WireValue → List WireValue
  | .stringSet texts => texts.map .string
  | .numberSet texts => texts.map .number
  | _ => []

/-- The type that is chosen for a stored value is a set of dates, and a member is no such date. -/
def Refused (scope : Scope σ) (place : Place) (types : List (CandidateType σ))
    (stored : WireValue) : Prop :=
  ∃ choice element storage, scope.resolveStored place types stored = .ok choice ∧
    choice.reading.type = .set element ∧ element.setElement? = some (.date storage) ∧
    ∃ member ∈ stored.scalarMembers, member.date? storage = none

variable {scope : Scope σ} {place : Place} {types : List (CandidateType σ)} {stored : WireValue}
  {choice : Choice σ} {cause : MapperError}

/-- A stored set is read as a set of dates unless one of its members is no such date. -/
theorem setOf?_date_eq_none_iff {storage : DateStorage}
    (hset : stored.isSetOf (.date storage) = true) :
    stored.setOf? (.date storage) = none ↔
      ∃ member ∈ stored.scalarMembers, member.date? storage = none := by
  have hmap : ∀ (texts : List String) (make : String → WireValue),
      ((texts.mapM fun text => (make text).date? storage).map fun dates =>
        Value.set (dates.map .date)) = none ↔
      ∃ member ∈ texts.map make, member.date? storage = none := by
    intro texts make
    rw [Option.map_eq_none_iff, Option.mapM_eq_none_iff]
    simp only [List.mem_map, exists_exists_and_eq_and]
  cases stored with
  | stringSet texts => exact hmap texts .string
  | numberSet texts => exact hmap texts .number
  | _ => cases storage <;> simp [isSetOf, wireType, SetElement.wireType] at hset

theorem isSetOf_of_resolveStored (hchoice : scope.resolveStored place types stored = .ok choice)
    {element : CandidateType σ} (htype : choice.reading.type = .set element) :
    ∃ kind, element.setElement? = some kind ∧ stored.isSetOf kind = true := by
  have hscore := Scope.pos_of_resolveStored hchoice
  have hscalar : stored.score Score.rounded choice.reading = stored.scalarScore (.set element) := by
    cases stored <;> simp [score, htype, Reading.enter?, Scope.enter?]
  rw [hscalar, scalarScore, Score.ofBool_pos, Option.any_eq_true] at hscore
  exact hscore

theorem isMismatch_of_decodeLeaf {reading : Reading σ}
    (hdecode : stored.decodeLeaf reading = .error cause) : cause.IsMismatch := by
  unfold decodeLeaf at hdecode
  split at hdecode
  · split at hdecode
    · cases hdecode
    · exact ⟨_, _, _, (Except.error.inj hdecode).symm⟩
  · cases hdecode
  · split at hdecode
    · cases hdecode
    · exact ⟨_, _, _, (Except.error.inj hdecode).symm⟩
  · cases hdecode

/-- What is not read as the chosen type is refused. -/
theorem refused_of_decodeLeaf (hchoice : scope.resolveStored place types stored = .ok choice)
    (hdecode : stored.decodeLeaf choice.reading = .error cause) :
    stored.Refused scope place types := by
  unfold decodeLeaf at hdecode
  cases htype : choice.reading.type with
  | date storage =>
      have hscore := Scope.pos_of_resolveStored hchoice
      have hscalar : stored.score Score.rounded choice.reading =
          stored.scalarScore (.date storage : CandidateType σ) := by
        cases stored <;> simp [score, htype, Reading.enter?, Scope.enter?]
      rw [hscalar, scalarScore, Score.ofBool_pos] at hscore
      obtain ⟨instant, hinstant⟩ := Option.isSome_iff_exists.mp hscore
      simp [htype, hinstant] at hdecode
  | set element =>
      obtain ⟨kind, hkind, hset⟩ := isSetOf_of_resolveStored hchoice htype
      simp only [htype, hkind, Option.getD_some] at hdecode
      cases hfound : stored.setOf? kind with
      | some value =>
          rw [hfound] at hdecode
          cases hdecode
      | none =>
          cases kind with
          | date storage =>
              exact ⟨choice, element, storage, hchoice, htype, hkind,
                (setOf?_date_eq_none_iff hset).mp hfound⟩
          | _ => cases stored <;> simp_all [setOf?, isSetOf, wireType, SetElement.wireType]
  | _ => simp [htype] at hdecode

/-- A refused value is a set and is not read as the chosen type. -/
theorem Refused.decodeLeaf_ne_ok (hrefused : stored.Refused scope place types)
    (hchoice : scope.resolveStored place types stored = .ok choice) (value : Value) :
    stored.decodeLeaf choice.reading ≠ .ok value := by
  obtain ⟨found, element, storage, hfound, htype, hkind, hmember⟩ := hrefused
  obtain rfl := Except.ok.inj (hfound.symm.trans hchoice)
  obtain ⟨kind, hsame, hset⟩ := isSetOf_of_resolveStored hchoice htype
  obtain rfl := Option.some.inj (hkind.symm.trans hsame)
  intro hdecode
  simp only [decodeLeaf, htype, hkind, Option.getD_some,
    (setOf?_date_eq_none_iff hset).mpr hmember] at hdecode
  cases hdecode

theorem Refused.whole (hrefused : stored.Refused scope place types) :
    (∀ items, stored ≠ .list items) ∧ ∀ fields, stored ≠ .map fields := by
  obtain ⟨_, _, _, -, -, -, member, hmember, -⟩ := hrefused
  constructor
  · rintro items rfl
    cases hmember
  · rintro fields rfl
    cases hmember

end WireValue

end ItemMapper
