import ItemMapper.Proofs.Lasting.Leaf
import ItemMapper.Proofs.Omission.Scores
import ItemMapper.Proofs.Plain.Unions
import ItemMapper.Proofs.Sets.Coding

/-!
# Stored containers and their members

A list or set is stored as the candidate that fits it best as a whole.  The members of what is stored
are the stored forms of its members (`Value.exists_members`): each item of a list is stored at its own
place, as one of the types of the items, and each member of a set as a value of the type of the members
(`SetElement.convertsTo_of_member?`).  So one list of types, `CandidateType.memberTypes` of the chosen
candidate, is enough to say what a member is stored as.

Types that outrank others (`Value.Outranks`) can be put between these, and a value is encoded as
before.
-/

namespace ItemMapper

variable {σ : Type}

open Pipeline

/-! ## Members of stored values -/

/-- The members of a stored list or set, as values of their own. -/
def WireValue.contents : WireValue → List WireValue
  | .list items => items
  | .binarySet contents => contents.map .binary
  | stored => stored.members

namespace SetElement

variable {element : SetElement} {values : List Value} {stored : WireValue}

/-- A member of a set of this kind as a value of its own. -/
def alone (element : SetElement) : SetMember → WireValue
  | .text content => if element.wireType = .stringSet then .string content else .number content
  | .bytes content => .binary content

theorem contents_of_setMembers? {listed : List SetMember}
    (hkind : stored.wireType = element.wireType) (hlisted : stored.setMembers? = some listed) :
    stored.contents = listed.map element.alone := by
  cases stored with
  | stringSet texts =>
      obtain rfl := Option.some.inj hlisted
      simp [WireValue.contents, WireValue.members, alone, ← hkind, WireValue.wireType]
  | numberSet texts =>
      obtain rfl := Option.some.inj hlisted
      simp [WireValue.contents, WireValue.members, alone, ← hkind, WireValue.wireType]
  | binarySet contents =>
      obtain rfl := Option.some.inj hlisted
      simp [WireValue.contents, alone, Function.comp_def]
  | _ => cases hlisted

/-- The members of a stored set are what its values are stored as. -/
theorem Encodes.mem_contents_iff (hencodes : element.Encodes values stored) {form : WireValue} :
    form ∈ stored.contents ↔ ∃ value ∈ values, ∃ member,
      element.member? value = some member ∧ element.alone member = form := by
  obtain ⟨hkind, -, listed, encodings, hlisted, hvalues, honce⟩ := hencodes
  rw [contents_of_setMembers? hkind hlisted, List.mem_map]
  constructor
  · rintro ⟨member, hmember, rfl⟩
    obtain ⟨value, hvalue, hencoded⟩ :=
      exists_related_right hvalues ((honce.mem_iff member).mp hmember)
    exact ⟨value, hvalue, member, hencoded, rfl⟩
  · rintro ⟨value, hvalue, member, hencoded, rfl⟩
    obtain ⟨other, hother, hsame⟩ := exists_related_left hvalues hvalue
    obtain rfl := Option.some.inj (hencoded.symm.trans hsame)
    exact ⟨member, (honce.mem_iff member).mpr hother, rfl⟩

end SetElement

/-! ## Values without parts of their own -/

namespace Value

variable {value : Value} {scope : Scope σ} {place : Place} {types : List (CandidateType σ)}
  {stored : Option WireValue}

/-- What is stored is defined. -/
theorem ConvertsTo.defined (before : σ) {form : WireValue}
    (hconverts : value.ConvertsTo scope place types (some form)) : value.isUndefined = false := by
  cases value with
  | undefined =>
      have hnone : undefined.ConvertsTo scope place types none := fun _ _ => by simp [Value.writer]
      cases hnone.unique before hconverts
  | _ => rfl

/-- A value that is no list and no document. -/
def isLeaf : Value → Bool
  | .list _ | .map _ => false
  | _ => true

/-- Such a value is written as it is encoded. -/
theorem convertsTo_iff_encode_leaf (before : σ) (hleaf : value.isLeaf = true)
    (hdefined : value.isUndefined = false) :
    value.ConvertsTo scope place types stored ↔ scope.encode place types value = .ok stored := by
  rw [Scope.encode_eq_ok hdefined, convertsTo_leaf_iff before hdefined]
  · rintro items rfl
    cases hleaf
  · rintro fields rfl
    cases hleaf

/-- It is encoded alike everywhere. -/
theorem agree_encode_leaf {start : Scope σ}
    (hsets : ∀ scope element, start.Uses scope (.set element) → element.isSetElement = true)
    (huses : ∀ type ∈ types, start.Uses scope type) (hleaf : value.isLeaf = true)
    (near far : Place) :
    Except.Agree Eq (scope.encode near types value) (scope.encode far types value) := by
  have hscore : ∀ choice other : Choice σ, start.SameChoice choice other →
      value.score Score.rounded choice.reading = value.score Score.rounded other.reading := by
    rintro ⟨_, inner, place, type⟩ ⟨_, _, away, _⟩ ⟨-, rfl, rfl, hreached, -⟩
    cases value with
    | list | map => cases hleaf
    | set members =>
        simp only [score]
        split
        · next element =>
            rw [memberScores_eq Score.rounded (hsets _ _ hreached) place away]
        · rfl
    | _ => simp only [score]
  have hencode : ∀ choice other : Choice σ, start.SameChoice choice other →
      Except.Agree Eq (value.encodeAs choice.reading) (value.encodeAs other.reading) := by
    rintro choice other ⟨-, -, htype, -, -⟩
    cases value with
    | list | map => cases hleaf
    | _ =>
        simp only [encodeAs]
        exact Reading.encodeScalar_at htype _
  unfold Scope.encode
  split
  · exact .ok rfl
  · have hchoices := Scope.choices_anywhere huses near far value.isDocument
    exact (Scope.agree_resolve (hchoices.imp fun choice other hsame =>
      ⟨hsame, hscore choice other hsame⟩)).bind hencode

end Value

namespace SetElement

variable {element : CandidateType σ} {kind : SetElement} {value : Value} {member : SetMember}

/-- A value that can be a member of a set fits the type of the members, and alone it is stored as the
member. -/
theorem encodeScalar_of_member? (hkind : element.setElement? = some kind)
    (hmember : kind.member? value = some member) : value.scalarScore element = 1 ∧
      ∀ reading : Reading σ, reading.type = element →
        reading.encodeScalar value = .ok (some (kind.alone member)) := by
  cases element with
  | primitive type =>
      cases type <;> simp only [CandidateType.setElement?, Option.some.injEq, reduceCtorEq] at hkind
      all_goals
        obtain rfl := hkind
        cases value <;> simp only [member?, Option.some.injEq, reduceCtorEq] at hmember
        obtain rfl := hmember
        refine ⟨by simp [Value.scalarScore, Score.ofBool], fun reading htype => ?_⟩
        simp [Reading.encodeScalar, htype, Value.natural?, alone, wireType]
  | date storage =>
      obtain rfl := Option.some.inj hkind
      obtain ⟨instant, hinstant, htext⟩ := Option.bind_eq_some_iff.mp hmember
      obtain ⟨text, htext, rfl⟩ := Option.map_eq_some_iff.mp htext
      constructor
      · cases value <;> simp_all [Value.date?, Value.scalarScore, Score.ofBool]
      · intro reading htype
        simp only [Reading.encodeScalar, htype, hinstant]
        cases storage <;>
          simp_all [alone, wireType, WireValue.ofDate, scalarText?]
  | _ => cases hkind

theorem leaf_of_member? (hmember : kind.member? value = some member) :
    value.isLeaf = true ∧ value.isUndefined = false := by
  cases kind <;> cases value <;>
    simp_all [member?, Value.isLeaf, Value.isUndefined, Value.date?]

/-- A member of a set is stored as a value of the type of the members. -/
theorem convertsTo_of_member? (before : σ) (hkind : element.setElement? = some kind)
    (hmember : kind.member? value = some member) (scope : Scope σ) (place : Place) :
    value.ConvertsTo scope place [element] (some (kind.alone member)) := by
  obtain ⟨hleaf, hdefined⟩ := leaf_of_member? hmember
  obtain ⟨hscore, hencode⟩ := encodeScalar_of_member? hkind hmember
  have hwhole : element.isWhole = true ∧ ∀ name, element ≠ .model name := by
    cases element <;> simp_all [CandidateType.setElement?, CandidateType.isWhole]
  have hchoices : scope.choices place [element] value.isDocument =
      [⟨element, ⟨scope, place, element⟩⟩] := by
    simp [Scope.choices, Scope.readings_of_ne_model hwhole.2]
  have hresolve : scope.resolve place [element] value = .ok ⟨element, ⟨scope, place, element⟩⟩ := by
    rw [Scope.resolve_eq_ok_iff, Scope.choose?_eq_some_iff, hchoices,
      Value.score_of_whole hwhole.1, hscore]
    exact ⟨zero_lt_one, .of_head (by simp)⟩
  rw [Value.convertsTo_iff_encode_leaf before hleaf hdefined, Scope.encode_eq_ok hdefined]
  refine ⟨_, hresolve, ?_⟩
  rw [Value.encodeAs_of_whole hwhole.1]
  exact hencode _ rfl

end SetElement

/-! ## Members of containers -/

/-- A list or a set. -/
def CandidateType.isContainer : CandidateType σ → Bool
  | .array _ | .set _ => true
  | _ => false

/-- A container of a type has this member, at this place.  The items of a list have places of their
own if the type says of which items it is, and the members of a set share the place of the set. -/
inductive Value.HasMember (place : Place) : CandidateType σ → Value → Value → Place → Prop
  | item {elements : List (CandidateType σ)} {items : List Value} {index : Nat} {member : Value}
      (hmember : items[index]? = some member) :
      HasMember place (.array elements) (.list items) member (place.item index)
  | member {element : CandidateType σ} {container member : Value}
      (hmember : member ∈ container.members) :
      HasMember place (.set element) container member place

namespace Value

variable {scope : Scope σ} {place : Place} {types : List (CandidateType σ)} {container : Value}
  {stored : WireValue}

/-- The stored items are what the items are stored as, each at its own place. -/
theorem ItemsConvertTo.mem_iff (before : σ) {items : List Value} {elements : List (CandidateType σ)}
    {start : Nat} {storeds : List WireValue}
    (hitems : ItemsConvertTo items scope place elements start storeds) {form : WireValue} :
    form ∈ storeds ↔ ∃ (index : Nat) (member : Value), items[index]? = some member ∧
      member.ConvertsTo scope (place.item (start + index)) elements (some form) := by
  induction items generalizing start storeds with
  | nil =>
      have hnone : ItemsConvertTo [] scope place elements start [] := fun _ _ => by
        simp [Value.writeItems]
      have hrun := (hitems default before).symm.trans (hnone default before)
      obtain rfl : storeds = [] := by simpa using hrun
      simp
  | cons first rest ih =>
      obtain ⟨stored, others, hfirst, hrest, rfl⟩ := (itemsConvertTo_cons_iff before).mp hitems
      rw [List.mem_append, ih hrest, Option.mem_toList]
      constructor
      · rintro (rfl | ⟨index, member, hmember, hform⟩)
        · exact ⟨0, first, rfl, hfirst⟩
        · refine ⟨index + 1, member, hmember, ?_⟩
          rwa [← Nat.add_assoc, Nat.add_right_comm]
      · rintro ⟨index, member, hmember, hform⟩
        cases index with
        | zero =>
            obtain rfl : first = member := by simpa using hmember
            exact .inl (hfirst.unique before hform)
        | succ index =>
            refine .inr ⟨index, member, hmember, ?_⟩
            rwa [Nat.add_right_comm, Nat.add_assoc]

/-- What is stored at once as one of some container types is a set of the members. -/
theorem exists_set {choice : Choice σ} (hresolve : scope.resolve place types container = .ok choice)
    (htype : choice.type.isContainer = true)
    (harray : ∀ elements items, choice.type = .array elements → container ≠ .list items)
    (hencode : container.encodeAs choice.reading = .ok (some stored)) :
    ∃ element kind, choice.type = .set element ∧ element.setElement? = some kind ∧
      kind.Encodes container.members stored := by
  have hmodel : ∀ name, choice.type ≠ .model name := by
    intro name hname
    simp [hname, CandidateType.isContainer] at htype
  have hreading : choice.reading = ⟨scope, place, choice.type⟩ := by
    have hmem := (Scope.of_resolve hresolve).2
    rw [Scope.readings_of_ne_model hmodel] at hmem
    exact List.mem_singleton.mp hmem
  rw [hreading] at hencode
  cases hchosen : choice.type with
  | array elements =>
      cases container with
      | list items => exact absurd rfl (harray elements items hchosen)
      | _ => simp [encodeAs, Reading.encodeScalar, hchosen, Reading.enter?, Scope.enter?] at hencode
  | set element =>
      have hset : Reading.encodeSet ⟨scope, place, .set element⟩ element container.members =
          .ok (some stored) := by
        cases container <;>
          simp_all [encodeAs, Reading.encodeScalar, Reading.enter?, Scope.enter?, Value.members]
      obtain ⟨kind, hkind, hencodes⟩ := Reading.encodes_of_encodeSet hset
      exact ⟨element, kind, rfl, hkind, hencodes⟩
  | _ => simp [hchosen, CandidateType.isContainer] at htype

/-- What is stored as one of some container types is a list of the items or a set of the members. -/
theorem exists_container (before : σ) (htypes : ∀ type ∈ types, type.isContainer = true)
    (hconverts : container.ConvertsTo scope place types (some stored)) :
    ∃ choice, scope.resolve place types container = .ok choice ∧
      ((∃ elements items storeds, choice.type = .array elements ∧ container = .list items ∧
          stored = .list storeds ∧ ItemsConvertTo items scope place elements 0 storeds) ∨
        ∃ element kind, choice.type = .set element ∧ element.setElement? = some kind ∧
          kind.Encodes container.members stored) := by
  have hcontainer : ∀ {choice}, scope.resolve place types container = .ok choice →
      choice.type.isContainer = true := fun hresolve => htypes _ (Scope.of_resolve hresolve).1
  cases container with
  | undefined => cases hconverts.defined before
  | list items =>
      obtain ⟨choice, hresolve, hinside⟩ := (convertsTo_list_iff before).mp hconverts
      refine ⟨choice, hresolve, ?_⟩
      split at hinside
      · next elements hchosen =>
          obtain ⟨storeds, hsame, hitems⟩ := hinside
          exact .inl ⟨elements, items, storeds, hchosen, rfl, Option.some.inj hsame, hitems⟩
      · next hother =>
          exact .inr (exists_set hresolve (hcontainer hresolve)
            (fun elements _ hchosen => absurd hchosen (hother elements)) hinside)
  | map fields =>
      obtain ⟨choice, hresolve, hinside⟩ := (convertsTo_map_iff before).mp hconverts
      have htype := hcontainer hresolve
      have henter : scope.enter? place choice.type = none := by
        cases hchosen : choice.type <;> simp_all [CandidateType.isContainer, Scope.enter?]
      rw [henter] at hinside
      exact ⟨choice, hresolve, .inr (exists_set hresolve htype (by simp) hinside)⟩
  | _ =>
      obtain ⟨choice, hresolve, hencode⟩ :=
        (convertsTo_leaf_iff before rfl (by simp) (by simp)).mp hconverts
      exact ⟨choice, hresolve, .inr (exists_set hresolve (hcontainer hresolve) (by simp) hencode)⟩

/-- The members of a stored container are what its members are stored as, each at its own place and as
one of the member types of the chosen candidate. -/
theorem exists_members (before : σ) (htypes : ∀ type ∈ types, type.isContainer = true)
    (hconverts : container.ConvertsTo scope place types (some stored)) :
    ∃ choice, scope.resolve place types container = .ok choice ∧ ∀ form,
      form ∈ stored.contents ↔ ∃ member inner, HasMember place choice.type container member inner ∧
        member.ConvertsTo scope inner (CandidateType.memberTypes [choice.type]) (some form) := by
  obtain ⟨choice, hresolve, ⟨elements, items, storeds, htype, rfl, rfl, hitems⟩ |
    ⟨element, kind, htype, hkind, hencodes⟩⟩ := exists_container before htypes hconverts
  · refine ⟨choice, hresolve, fun form => ?_⟩
    have hmembers : CandidateType.memberTypes [choice.type] = elements := by
      simp [CandidateType.memberTypes, htype]
    rw [WireValue.contents, hitems.mem_iff before, hmembers, htype]
    constructor
    · rintro ⟨index, member, hmember, hform⟩
      exact ⟨member, _, .item hmember, by rwa [Nat.zero_add] at hform⟩
    · rintro ⟨member, _, hmember, hform⟩
      cases hmember with
      | item hmember => exact ⟨_, member, hmember, by rwa [Nat.zero_add]⟩
  · refine ⟨choice, hresolve, fun form => ?_⟩
    have hmembers : CandidateType.memberTypes [choice.type] = [element] := by
      simp [CandidateType.memberTypes, htype]
    rw [hencodes.mem_contents_iff, hmembers, htype]
    constructor
    · rintro ⟨member, hmember, encoding, hencoding, rfl⟩
      exact ⟨member, place, .member hmember,
        SetElement.convertsTo_of_member? before hkind hencoding scope place⟩
    · rintro ⟨member, _, hmember, hform⟩
      cases hmember with
      | member hmember =>
          obtain ⟨_, encodings, -, hvalues, -⟩ := hencodes.members
          obtain ⟨encoding, -, hencoding⟩ := exists_related_left hvalues hmember
          have halone := SetElement.convertsTo_of_member? before hkind hencoding scope place
          exact ⟨member, hmember, encoding, hencoding,
            Option.some.inj (halone.unique before hform)⟩

/-- The members of a set are no lists and no documents. -/
theorem leaf_of_mem_set (before : σ) (htypes : ∀ type ∈ types, type.isContainer = true)
    (hconverts : container.ConvertsTo scope place types (some stored)) {choice : Choice σ}
    (hresolve : scope.resolve place types container = .ok choice) {element : CandidateType σ}
    (hset : choice.type = .set element) : ∀ member ∈ container.members, member.isLeaf = true := by
  obtain ⟨other, hother, hcases⟩ := exists_container before htypes hconverts
  obtain rfl := Except.ok.inj (hother.symm.trans hresolve)
  obtain ⟨_, _, _, harray, -⟩ | ⟨_, _, -, -, hencodes⟩ := hcases
  · rw [harray] at hset
    cases hset
  · intro member hmember
    obtain ⟨_, _, -, hvalues, -⟩ := hencodes.members
    obtain ⟨_, -, hencoding⟩ := exists_related_left hvalues hmember
    exact (SetElement.leaf_of_member? hencoding).1

end Value

/-! ## Types that outrank others -/

theorem Score.FirstHighest.append {α : Type} {score : α → Rat} {items earlier later : List α}
    {item : α} (hfirst : FirstHighest score items item)
    (hearlier : ∀ other ∈ earlier, score other < score item)
    (hlater : ∀ other ∈ later, score other ≤ score item) :
    FirstHighest score (earlier ++ (items ++ later)) item := by
  obtain ⟨before, after, rfl, hbefore, hafter⟩ := hfirst
  refine ⟨earlier ++ before, after ++ later, by simp, ?_, ?_⟩
  · exact List.forall_mem_append.mpr ⟨hearlier, hbefore⟩
  · exact List.forall_mem_append.mpr ⟨hafter, hlater⟩

/-- Of some types a value fits one better than all that stand before, and as well as all that stand
after. -/
structure Value.Outranks (value : Value) (scope : Scope σ) (place : Place)
    (types earlier later : List (CandidateType σ)) : Prop where
  earlier : ∀ other ∈ earlier, ∃ type ∈ types,
    value.fit Score.rounded scope place other < value.fit Score.rounded scope place type
  later : ∀ other ∈ later, ∃ type ∈ types,
    value.fit Score.rounded scope place other ≤ value.fit Score.rounded scope place type

/-- Then it is encoded as if the others were not there. -/
theorem Value.Outranks.encode {value : Value} {scope : Scope σ} {place : Place}
    {types earlier later : List (CandidateType σ)}
    (houtranks : value.Outranks scope place types earlier later)
    (hdefined : value.isUndefined = false) {stored : Option WireValue}
    (hencode : scope.encode place types value = .ok stored) :
    scope.encode place (earlier ++ (types ++ later)) value = .ok stored := by
  obtain ⟨choice, hchoice, hstored⟩ := (Scope.encode_eq_ok hdefined).mp hencode
  refine (Scope.encode_eq_ok hdefined).mpr ⟨choice, ?_, hstored⟩
  rw [Scope.resolve_eq_ok_iff] at hchoice ⊢
  obtain ⟨hpos, hfirst⟩ := Scope.firstHighest_of_choose? hchoice
  obtain ⟨other, hother, htype⟩ := Scope.exists_choose?_iff.mpr ⟨hpos, hfirst.append
    (fun rival hrival => by
      obtain ⟨type, htype, hlower⟩ := houtranks.earlier rival hrival
      exact hlower.trans_le (hfirst.le htype))
    (fun rival hrival => by
      obtain ⟨type, htype, hle⟩ := houtranks.later rival hrival
      exact hle.trans (hfirst.le htype))⟩
  -- the type is the same, and alone it leads to one choice
  have halone := Scope.choose?_alone hother
  rw [htype, Scope.choose?_alone hchoice] at halone
  rw [hother, ← Option.some.inj halone]

end ItemMapper
