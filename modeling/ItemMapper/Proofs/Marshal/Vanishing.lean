import ItemMapper.Proofs.Coding.Members
import ItemMapper.Proofs.Typing.Apart

/-!
# Values without a stored form

Some values are accepted by a type and yet leave nothing behind when they are written.  Besides the
undefined value these are sets only, and lists that are read as sets: a set stores nothing if it has
no members, if it is a constant whose members are unlike, or if it fits no type, types are not
checked, and its members are unlike.  `Value.StoresNothing` lists these cases.

There are several ways to write a value, by recursion on the document, in place of another value, or
by the codec alone.  They all agree on which values vanish (`Value.tells_writer`,
`Value.tells_writerTo`, `Value.tells_madeDraft`, `Scope.encode_eq_none_iff`), whatever is done
with the lists and documents inside, because a list or a document that is written as such is there
even if nothing is in it.
-/

namespace ItemMapper

variable {σ : Type}

open Pipeline

/-- The value has no stored form as one of some types. -/
inductive Value.StoresNothing (typeCheck : Bool) (scope : Scope σ) (place : Place)
    (types : List (CandidateType σ)) : Value → Prop where
  | undefined : StoresNothing typeCheck scope place types .undefined
  | emptySet {choice : Choice σ} {element : CandidateType σ}
      (hchoice : scope.resolve place types (.set []) = .ok choice)
      (hset : choice.reading.type = .set element) : StoresNothing typeCheck scope place types (.set [])
  | emptyList {choice : Choice σ} {element : CandidateType σ}
      (hchoice : scope.resolve place types (.list []) = .ok choice)
      (hset : choice.reading.type = .set element) :
      StoresNothing typeCheck scope place types (.list [])
  /-- A constant that is a set is stored in its natural form. -/
  | constant {members : List Value} {choice : Choice σ} {expected : Value}
      (hchoice : scope.resolve place types (.set members) = .ok choice)
      (hconstant : choice.reading.type = .constant expected)
      (hunlike : (Value.set members).natural? = none) :
      StoresNothing typeCheck scope place types (.set members)
  /-- So is a set that fits no type. -/
  | untyped {members : List Value} {cause : MapperError} (hunchecked : typeCheck = false)
      (hmisfit : scope.resolve place types (.set members) = .error cause)
      (hunlike : (Value.set members).natural? = none) :
      StoresNothing typeCheck scope place types (.set members)

/-! ## Sets -/

namespace SetElement

theorem store?_eq_none_iff {element : SetElement} {members : List SetMember} :
    element.store? members = none ↔ members = [] := by
  constructor
  · intro hnone
    have hempty : members.eraseDups = [] := by
      unfold store? at hnone
      split at hnone
      · assumption
      · split at hnone <;> contradiction
    refine List.eq_nil_iff_forall_not_mem.mpr fun member hmember => ?_
    simpa [hempty] using List.mem_eraseDups.mpr hmember
  · rintro rfl
    rfl

theorem encode_eq_none_iff {element : SetElement} {values : List Value} {stored : Option WireValue}
    (hencode : element.encode values = .ok stored) : stored = none ↔ values = [] := by
  rw [encode] at hencode
  cases hmembers : element.members values with
  | error wrong =>
      rw [hmembers] at hencode
      contradiction
  | ok members =>
      rw [hmembers] at hencode
      obtain rfl := Except.ok.inj hencode
      have hvalues := forall₂_of_members hmembers
      rw [store?_eq_none_iff, ← List.length_eq_zero_iff, ← hvalues.length_eq,
        List.length_eq_zero_iff]

end SetElement

theorem Reading.encodeSet_eq_none_iff {reading : Reading σ} {element : CandidateType σ}
    {members : List Value} {stored : Option WireValue}
    (hencode : reading.encodeSet element members = .ok stored) : stored = none ↔ members = [] := by
  unfold encodeSet at hencode
  dsimp only at hencode
  cases hkind : element.setElement? with
  | some kind =>
      simp only [hkind] at hencode
      cases hmembers : kind.encode members with
      | error wrong =>
          rw [hmembers] at hencode
          contradiction
      | ok written =>
          rw [hmembers] at hencode
          obtain rfl := Except.ok.inj hencode
          exact SetElement.encode_eq_none_iff hmembers
  | none =>
      simp only [hkind] at hencode
      cases members with
      | nil =>
          obtain rfl := Except.ok.inj hencode
          simp
      | cons member rest => contradiction

/-! ## Values with a type -/

namespace Value

variable {value : Value} {typeCheck : Bool} {scope : Scope σ} {place : Place}
  {types : List (CandidateType σ)} {choice : Choice σ} {stored : Option WireValue}

theorem natural?_eq_none (hnone : value.natural? = none) :
    value = .undefined ∨ ∃ members, value = .set members := by
  cases value <;> simp_all [natural?]

/-- Sets leave nothing behind if they are empty, other types if the value has no natural form. -/
theorem of_encodeScalar_eq_none {reading : Reading σ}
    (hencode : reading.encodeScalar value = .ok none) :
    value.natural? = none ∧ (∀ element, reading.type ≠ .set element) ∨
      ∃ element, reading.type = .set element ∧ (value = .set [] ∨ value = .list []) := by
  unfold Reading.encodeScalar at hencode
  split at hencode
  · next htype => exact .inl ⟨Except.ok.inj hencode, by simp [htype]⟩
  · next htype => exact .inl ⟨Except.ok.inj hencode, by simp [htype]⟩
  · next htype => exact .inl ⟨Except.ok.inj hencode, by simp [htype]⟩
  · split at hencode
    · cases Except.ok.inj hencode
    · contradiction
  · next htype =>
      obtain rfl := (Reading.encodeSet_eq_none_iff hencode).mp rfl
      exact .inr ⟨_, htype, .inl rfl⟩
  · next htype =>
      obtain rfl := (Reading.encodeSet_eq_none_iff hencode).mp rfl
      exact .inr ⟨_, htype, .inr rfl⟩
  · contradiction

theorem encodeScalar_undefined {reading : Reading σ}
    (hencode : reading.encodeScalar .undefined = .ok stored) : stored = none := by
  unfold Reading.encodeScalar at hencode
  split at hencode
  · exact (Except.ok.inj hencode).symm
  · exact (Except.ok.inj hencode).symm
  · exact (Except.ok.inj hencode).symm
  · contradiction
  · contradiction
  · contradiction
  · contradiction

/-- The types that a set may have are those of sets and constants. -/
theorem of_resolve_set {members : List Value}
    (hchoice : scope.resolve place types (.set members) = .ok choice) :
    (∃ element, choice.reading.type = .set element) ∨
      ∃ expected, choice.reading.type = .constant expected := by
  have htakes := mem_takes_of_score (Scope.of_choose? (Scope.resolve_eq_ok_iff.mp hchoice)).2
  cases htype : choice.reading.type with
  | set element => exact .inl ⟨element, rfl⟩
  | constant expected => exact .inr ⟨expected, rfl⟩
  | primitive kind =>
      rw [htype] at htakes
      cases kind <;> simp [CandidateType.takes, Primitive.typeName, typeName] at htakes
  | _ => simp [htype, CandidateType.takes, typeName] at htakes

theorem storesNothing_of_encodeAs (hchoice : scope.resolve place types value = .ok choice)
    (hencode : value.encodeAs choice.reading = .ok none) :
    value.StoresNothing typeCheck scope place types := by
  have hscalar : choice.reading.encodeScalar value = .ok none := by
    cases value with
    | list items =>
        rw [encodeAs] at hencode
        split at hencode
        · obtain ⟨_, -, hsome⟩ := Except.bind_eq_ok.mp hencode
          cases Except.ok.inj hsome
        · exact hencode
    | map fields =>
        rw [encodeAs] at hencode
        split at hencode
        · obtain ⟨_, -, hsome⟩ := Except.bind_eq_ok.mp hencode
          cases Except.ok.inj hsome
        · exact hencode
    | _ => exact hencode
  rcases of_encodeScalar_eq_none hscalar with ⟨hnone, hother⟩ | ⟨element, hset, rfl | rfl⟩
  · rcases natural?_eq_none hnone with rfl | ⟨members, rfl⟩
    · exact .undefined
    · rcases of_resolve_set hchoice with ⟨element, hset⟩ | ⟨expected, hconstant⟩
      · exact absurd hset (hother element)
      · exact .constant hchoice hconstant hnone
  · exact .emptySet hchoice hset
  · exact .emptyList hchoice hset

theorem encodeAs_of_storesNothing (hvanishes : value.StoresNothing typeCheck scope place types)
    (hchoice : scope.resolve place types value = .ok choice)
    (hencode : value.encodeAs choice.reading = .ok stored) : stored = none := by
  cases hvanishes with
  | undefined => exact encodeScalar_undefined hencode
  | emptySet hother hset =>
      obtain rfl := Except.ok.inj (hother.symm.trans hchoice)
      simp only [encodeAs, Reading.encodeScalar, hset] at hencode
      exact (Reading.encodeSet_eq_none_iff hencode).mpr rfl
  | emptyList hother hset =>
      obtain rfl := Except.ok.inj (hother.symm.trans hchoice)
      simp only [encodeAs, Reading.encodeScalar, hset] at hencode
      exact (Reading.encodeSet_eq_none_iff hencode).mpr rfl
  | constant hother hconstant hunlike =>
      obtain rfl := Except.ok.inj (hother.symm.trans hchoice)
      simp only [encodeAs, Reading.encodeScalar, hconstant, hunlike] at hencode
      exact (Except.ok.inj hencode).symm
  | untyped _ hmisfit _ => simp [hchoice] at hmisfit

theorem encodeAs_eq_none_iff (typeCheck : Bool)
    (hchoice : scope.resolve place types value = .ok choice)
    (hencode : value.encodeAs choice.reading = .ok stored) :
    stored = none ↔ value.StoresNothing typeCheck scope place types := by
  constructor
  · rintro rfl
    exact storesNothing_of_encodeAs hchoice hencode
  · exact fun hvanishes => encodeAs_of_storesNothing hvanishes hchoice hencode

end Value

/-- The codec checks types anyway. -/
theorem Scope.encode_eq_none_iff {scope : Scope σ} {place : Place} {types : List (CandidateType σ)}
    {value : Value} {stored : Option WireValue}
    (hencode : scope.encode place types value = .ok stored) :
    stored = none ↔ value.StoresNothing true scope place types := by
  cases hundefined : value.isUndefined with
  | true =>
      obtain rfl : value = .undefined := by cases value <;> simp_all [Value.isUndefined]
      obtain rfl := Except.ok.inj hencode
      exact ⟨fun _ => .undefined, fun _ => rfl⟩
  | false =>
      obtain ⟨choice, hchoice, hchosen⟩ := (Scope.encode_eq_ok hundefined).mp hencode
      exact Value.encodeAs_eq_none_iff true hchoice hchosen

/-! ## Writing -/

/-- Whenever a draft is written, nothing is stored exactly for a value that stores nothing. -/
def Draft.Tells (typeCheck : Bool) (draft : Draft σ) : Prop :=
  ∀ {scope place types before stored after},
    Yields (draft.write scope place types) before stored after →
      (stored = none ↔ draft.value.StoresNothing typeCheck scope place types)

namespace Value

variable {make : Value → Draft σ} {writing : Writing} {value : Value} {scope : Scope σ}
  {place : Place} {types : List (CandidateType σ)}

theorem writeChosen_eq_none_iff {inside : CandidateType σ → Option (Pipeline σ WireValue)}
    (hinside : ∀ choice, scope.resolve place types value = .ok choice →
      (inside choice.type).isSome = true →
        ¬ value.StoresNothing writing.options.typeCheck scope place types)
    {before after : σ} {stored : Option WireValue}
    (hrun : Yields (value.writeChosen writing scope place types inside) before stored after) :
    stored = none ↔ value.StoresNothing writing.options.typeCheck scope place types := by
  unfold writeChosen at hrun
  split at hrun
  · next cause hmisfit =>
      split at hrun
      · exact (yields_throw.mp hrun).elim
      · next hunchecked =>
          obtain rfl := (yields_pure.mp hrun).1
          rw [Bool.not_eq_true] at hunchecked
          constructor
          · intro hnone
            rcases natural?_eq_none hnone with rfl | ⟨members, rfl⟩
            · exact .undefined
            · exact .untyped hunchecked hmisfit hnone
          · rintro (_ | ⟨hchoice, -⟩ | ⟨hchoice, -⟩ | ⟨hchoice, -, hunlike⟩ | ⟨-, -, hunlike⟩)
            · rfl
            · simp [hchoice] at hmisfit
            · simp [hchoice] at hmisfit
            · exact hunlike
            · exact hunlike
  · next choice hchoice =>
      split at hrun
      · next nested hnested =>
          obtain ⟨written, _, -, hsome⟩ := yields_bind.mp hrun
          obtain rfl := (yields_pure.mp hsome).1
          simpa using hinside choice hchoice (by simp [hnested])
      · exact encodeAs_eq_none_iff _ hchoice (yields_ofExcept.mp hrun).1

/-- A list that is written item by item is no set, and a document vanishes under no type. -/
theorem tells_writer (value : Value) :
    Draft.Tells writing.options.typeCheck ⟨value, value.writer make writing⟩ := by
  intro scope place types before stored after hrun
  cases value with
  | undefined =>
      simp only [writer] at hrun
      obtain rfl := (yields_pure.mp hrun).1
      exact ⟨fun _ => .undefined, fun _ => rfl⟩
  | list items =>
      simp only [writer] at hrun
      refine writeChosen_eq_none_iff (fun choice hchoice hinside hvanishes => ?_) hrun
      split at hinside
      · next elements harray =>
          cases hvanishes with
          | emptyList hother hset =>
              obtain rfl := Except.ok.inj (hother.symm.trans hchoice)
              rw [Scope.reading_of_array hchoice harray] at hset
              contradiction
      · contradiction
  | map fields =>
      simp only [writer] at hrun
      exact writeChosen_eq_none_iff (fun _ _ _ hvanishes => by cases hvanishes) hrun
  | _ =>
      simp only [writer] at hrun
      exact writeChosen_eq_none_iff (fun _ _ hnone => by contradiction) hrun

theorem tells_shallowDraft (value : Value) :
    (shallowDraft (σ := σ) writing value).Tells writing.options.typeCheck := by
  intro scope place types before stored after hrun
  unfold shallowDraft at hrun
  dsimp only at hrun
  split at hrun
  · obtain rfl := (yields_pure.mp hrun).1
    exact ⟨fun _ => .undefined, fun _ => rfl⟩
  · exact (yields_throw.mp hrun).elim
  · exact (yields_throw.mp hrun).elim
  · exact writeChosen_eq_none_iff (fun _ _ hnone => by contradiction) hrun

theorem tells_writerTo (depth : Nat) (value : Value) :
    Draft.Tells (σ := σ) writing.options.typeCheck ⟨value, writerTo writing depth value⟩ := by
  cases depth with
  | zero =>
      rw [writerTo]
      exact tells_writer value
  | succ depth =>
      rw [writerTo]
      exact tells_writer value

theorem tells_madeDraft (depth : Nat) (value : Value) :
    (madeDraft (σ := σ) writing depth value).Tells writing.options.typeCheck := by
  cases depth with
  | zero => exact tells_shallowDraft value
  | succ depth => exact tells_writerTo depth value

theorem tells_drafts (fields : List (String × Value)) :
    ∀ draft ∈ drafts make writing fields, draft.2.Tells writing.options.typeCheck := by
  induction fields with
  | nil => simp [drafts]
  | cons field rest ih =>
      rw [drafts, List.forall_mem_cons]
      exact ⟨tells_writer field.2, ih⟩

end Value

end ItemMapper
