import ItemMapper.Proofs.RoundTrip.Stored
import ItemMapper.Proofs.Typing.Apart

/-!
# Stored scalars and sets that last

A value that is stored at once is decoded and stored again.  The same stored value comes out, with
one exception: a date may be stored in a form that is read as no date or as another one
(`WireValue.Legible`).  `WireValue.LeafLasts` asks for legible dates, on their own and in sets.

`WireValue.Recoded` is what decoding and storing again come to, with the scores that the types on
both sides are chosen by.  Of what has been stored it holds exactly where dates are legible
(`WireValue.exists_recoded`, `WireValue.leafLasts_of_encodeAs`).
-/

namespace ItemMapper

variable {σ : Type}

/-! ## The number of stored values -/

mutual

/-- The number of values that a stored value consists of, itself and the members of sets
included. -/
def WireValue.size : WireValue → Nat
  | .list items => 1 + WireValue.itemsSize items
  | .map fields => 1 + WireValue.fieldsSize fields
  | .stringSet members | .numberSet members => 1 + members.length
  | .binarySet members => 1 + members.length
  | _ => 1

/-- The number of values that a stored list consists of. -/
def WireValue.itemsSize : List WireValue → Nat
  | [] => 0
  | item :: rest => item.size + WireValue.itemsSize rest

/-- The number of values that the fields of an item consist of. -/
def WireValue.fieldsSize : List (String × WireValue) → Nat
  | [] => 0
  | (_, stored) :: rest => stored.size + WireValue.fieldsSize rest

end

namespace WireValue

theorem size_pos (stored : WireValue) : 0 < stored.size := by
  cases stored <;> simp [size]

/-! ## Dates that are read as they were stored -/

/-- The stored value is read as a date, and this date is stored as the value again. -/
def Legible (storage : DateStorage) (stored : WireValue) : Prop :=
  ∃ t, stored.date? storage = some t ∧ ofDate t storage = stored

/-- The members of a set of texts or numbers, as values of their own. -/
def members : WireValue → List WireValue
  | .stringSet texts => texts.map .string
  | .numberSet texts => texts.map .number
  | _ => []

/-- The dates in a stored scalar or set of some type are legible. -/
def LeafLasts (stored : WireValue) : CandidateType σ → Prop
  | .date storage => stored.Legible storage
  | .set (.date storage) => ∀ member ∈ stored.members, member.Legible storage
  | _ => True

/-- The stored value is decoded, as a value of some type, to a value that is stored as it again.
Both sides fit the type, the native one by a score that is kept up by the number of values. -/
structure Recoded (type : CandidateType σ) (stored : WireValue) (back : Value) : Prop where
  sameKind : back.isDocument = stored.isDocument
  defined : back.isUndefined = false
  score : ∀ reading : Reading σ, reading.type = type →
    Score.AtLeast (2 * stored.size) (back.score Score.rounded reading)
  storedScore : ∀ reading : Reading σ, reading.type = type →
    stored.score Score.rounded reading = 1
  decode : ∀ reading : Reading σ, reading.type = type → stored.decodeLeaf reading = .ok back
  encode : ∀ reading : Reading σ, reading.type = type →
    back.encodeAs reading = .ok (some stored)

variable {type : CandidateType σ} {stored : WireValue} {value back : Value}

namespace Recoded

theorem of_whole (hwhole : type.isWhole = true) (hkind : back.isDocument = stored.isDocument)
    (hdefined : back.isUndefined = false) (hscore : back.scalarScore type = 1)
    (hstored : stored.scalarScore type = 1)
    (hdecode : ∀ reading : Reading σ, reading.type = type → stored.decodeLeaf reading = .ok back)
    (hencode : ∀ reading : Reading σ, reading.type = type →
      reading.encodeScalar back = .ok (some stored)) :
    Recoded type stored back where
  sameKind := hkind
  defined := hdefined
  score := by
    rintro reading rfl
    rw [Value.score_of_whole hwhole, hscore]
    exact .one _
  storedScore := by
    rintro reading rfl
    rw [score_of_whole hwhole, hstored]
  decode := hdecode
  encode := by
    rintro reading rfl
    rw [Value.encodeAs_of_whole hwhole, hencode reading rfl]

/-- Values of the primitive types and combined texts are stored in their natural form. -/
theorem natural (htype : (∃ kind, type = .primitive kind) ∨ type.isCombine = true)
    (hnatural : stored.natural.natural? = some stored)
    (hscore : stored.natural.scalarScore type = 1) (hstored : stored.scalarScore type = 1) :
    Recoded type stored stored.natural := by
  have hwhole : type.isWhole = true := by
    cases type <;> simp_all [CandidateType.isWhole, CandidateType.isCombine]
  have hdefined : stored.natural.isUndefined = false := by
    cases hvalue : stored.natural <;> simp_all [Value.natural?, Value.isUndefined]
  refine of_whole hwhole (Value.isDocument_of_natural? hnatural).symm hdefined hscore hstored ?_ ?_
  · intro reading hreading
    unfold decodeLeaf
    rw [hreading]
    cases type <;> simp_all [CandidateType.isCombine]
  · intro reading hreading
    unfold Reading.encodeScalar
    rw [hreading]
    cases type <;> simp_all [CandidateType.isCombine]

/-- A legible date is stored as it was. -/
theorem date {storage : DateStorage} {t : Instant} (hread : stored.date? storage = some t)
    (hstored : ofDate t storage = stored) :
    Recoded (σ := σ) (.date storage) stored (.date t) := by
  have hkind : stored.isDocument = false := by
    rw [← hstored]
    cases storage <;> rfl
  refine of_whole rfl hkind.symm rfl rfl ?_ ?_ ?_
  · rw [scalarScore, hread]
    rfl
  · intro reading htype
    simp [decodeLeaf, htype, hread]
  · intro reading htype
    simp [Reading.encodeScalar, htype, Value.date?, hstored]

/-- A constant is decoded from its own stored form. -/
theorem constant {expected : Value} (hequal : expected.equal expected = true)
    (hnatural : expected.natural? = some stored) :
    Recoded (σ := σ) (.constant expected) stored expected := by
  have hdefined : expected.isUndefined = false := by
    cases expected <;> simp_all [Value.natural?, Value.isUndefined]
  refine of_whole rfl (Value.isDocument_of_natural? hnatural).symm hdefined ?_ ?_ ?_ ?_
  · have hsame : (expected == expected) = true := hequal
    simp [Value.scalarScore, hsame, Score.ofBool]
  · simp [scalarScore, hnatural, Score.ofBool]
  · intro reading htype
    simp [decodeLeaf, htype]
  · intro reading htype
    simp [Reading.encodeScalar, htype, hnatural]

theorem scores_of_members {element : CandidateType σ} {members : List Value}
    (hmodel : ∀ name, element ≠ .model name)
    (hscores : ∀ member ∈ members, ∀ reading : Reading σ, reading.type = element →
      member.score Score.rounded reading = 1) (scope : Scope σ) (place : Place) :
    List.Forall₂ Score.AtLeast (members.map fun _ => 1)
      (Value.memberScores Score.rounded scope place element members) := by
  induction members with
  | nil => exact .nil
  | cons member rest ih =>
      refine .cons ?_ (ih fun other hother => hscores other (by simp [hother]))
      rw [Scope.readings_of_ne_model hmodel, List.map_singleton, hscores member (by simp) _ rfl,
        Score.best_singleton (by norm_num)]
      exact .one _

/-- A set is stored as it was if its members are. -/
theorem set {element : CandidateType σ} {kind : SetElement} {members : List Value}
    (hkind : element.setElement? = some kind) (hset : stored.isSetOf kind = true)
    (hread : stored.setOf? kind = some (.set members))
    (hencode : kind.encode members = .ok (some stored))
    (hscores : ∀ member ∈ members, ∀ reading : Reading σ, reading.type = element →
      member.score Score.rounded reading = 1)
    (hsize : 1 + members.length = stored.size) (hmemory : stored.size ≤ 2 ^ 63) :
    Recoded (.set element) stored (.set members) := by
  have hmodel : ∀ name, element ≠ .model name := by
    rintro name rfl
    simp [CandidateType.setElement?] at hkind
  obtain ⟨hlist, hmap⟩ := SetElement.not_list_or_map hset
  refine ⟨?_, rfl, ?_, ?_, ?_, ?_⟩
  · cases stored with
    | map fields => exact absurd rfl (hmap fields)
    | _ => rfl
  · intro reading htype
    have hall := scores_of_members hmodel hscores reading.scope reading.place
    have hsum : (members.map fun _ => 1).sum = members.length := by simp
    simp only [Value.score, htype]
    refine (Score.AtLeast.average hall (by simp) (by omega)).mono ?_
    omega
  · intro reading htype
    have hscalar : stored.score Score.rounded reading = stored.scalarScore reading.type := by
      cases stored with
      | list items => exact absurd rfl (hlist items)
      | map fields => exact absurd rfl (hmap fields)
      | _ => simp [WireValue.score]
    rw [hscalar, htype]
    simp [scalarScore, hkind, hset, Score.ofBool]
  · intro reading htype
    simp [decodeLeaf, htype, hkind, hread]
  · intro reading htype
    simp [Value.encodeAs, Reading.encodeScalar, htype, Reading.encodeSet, hkind, hencode,
      Except.mapError]

end Recoded

end WireValue

/-! ## Numbers -/

namespace Binary64

/-- The text of a number is that of the number that is read from it. -/
theorem text_parse?_text (x : Binary64) : ((Decimal.parse? x.text).getD .nan).text = x.text := by
  by_cases hnan : x = .nan
  · rw [hnan]
    decide
  · obtain ⟨y, hparse, hequal⟩ := exists_parse?_text hnan
    rw [hparse, Option.getD_some, text_eq_of_equal hequal]

/-- Only not-a-number is different from itself. -/
theorem equal_self_of_equal {x y : Binary64} (hequal : x.equal y = true) : x.equal x = true := by
  rcases eq_or_zero_of_equal hequal with rfl | ⟨negative, _, rfl, -⟩
  · exact hequal
  · exact equal_zero negative negative

end Binary64

namespace Value

mutual

/-- What is equal to anything is equal to itself. -/
theorem equal_self_of_equal : ∀ {a b : Value}, a.equal b = true → a.equal a = true
  | .number x, b, hequal => by
      cases b with
      | number y => exact Binary64.equal_self_of_equal hequal
      | _ => simp [equal] at hequal
  | .list items, b, hequal => by
      cases b with
      | list others => exact equalItems_self_of_equal (by simpa [equal] using hequal)
      | _ => simp [equal] at hequal
  | .set members, b, hequal => by
      cases b with
      | set others => exact equalItems_self_of_equal (by simpa [equal] using hequal)
      | _ => simp [equal] at hequal
  | .map fields, b, hequal => by
      cases b with
      | map others => exact equalFields_self_of_equal (by simpa [equal] using hequal)
      | _ => simp [equal] at hequal
  | .undefined, _, _ | .null, _, _ | .bool _, _, _ | .string _, _, _ | .binary _, _, _
  | .date _, _, _ => by simp [equal]

theorem equalItems_self_of_equal : ∀ {items others : List Value},
    equalItems items others = true → equalItems items items = true
  | [], _, _ => rfl
  | item :: rest, others, hequal => by
      cases others with
      | nil => simp [equalItems] at hequal
      | cons other others =>
          rw [equalItems, Bool.and_eq_true] at hequal
          rw [equalItems, equal_self_of_equal hequal.1, equalItems_self_of_equal hequal.2]
          rfl

theorem equalFields_self_of_equal : ∀ {fields others : List (String × Value)},
    equalFields fields others = true → equalFields fields fields = true
  | [], _, _ => rfl
  | (key, value) :: rest, others, hequal => by
      cases others with
      | nil => simp [equalFields] at hequal
      | cons other others =>
          simp only [equalFields, Bool.and_eq_true] at hequal
          rw [equalFields, equal_self_of_equal hequal.1.2, equalFields_self_of_equal hequal.2]
          simp

end

end Value

/-! ## Stored sets -/

namespace SetElement

theorem exists_member_of_members {element : SetElement} {values : List Value}
    {members : List SetMember} (hmembers : element.members values = .ok members) :
    ∀ member ∈ members, ∃ value ∈ values, element.member? value = some member := by
  induction values generalizing members with
  | nil =>
      obtain rfl := Except.ok.inj hmembers
      simp
  | cons value rest ih =>
      rw [SetElement.members] at hmembers
      cases hfirst : element.member? value with
      | none => simp [hfirst] at hmembers
      | some first =>
          cases hrest : element.members rest with
          | error cause => simp [hfirst, hrest, Except.map] at hmembers
          | ok others =>
              obtain rfl : first :: others = members := by
                simpa [hfirst, hrest, Except.map] using hmembers
              intro member hmember
              rcases List.mem_cons.mp hmember with rfl | hmember
              · exact ⟨value, by simp, hfirst⟩
              · obtain ⟨other, hother, hvalue⟩ := ih hrest member hmember
                exact ⟨other, by simp [hother], hvalue⟩

/-- A stored set lists different members, each of which is the stored form of a value. -/
theorem exists_distinct_of_encode {element : SetElement} {values : List Value} {stored : WireValue}
    (hencode : element.encode values = .ok (some stored)) :
    ∃ members : List SetMember, members ≠ [] ∧ members.Nodup ∧
      element.store? members = some stored ∧
      ∀ member ∈ members, ∃ value ∈ values, element.member? value = some member := by
  unfold encode at hencode
  cases hmembers : element.members values with
  | error cause => simp [hmembers, Except.map] at hencode
  | ok members =>
      have hstore : element.store? members = some stored := by
        simpa [hmembers, Except.map] using hencode
      have hdistinct := nodup_eraseDups members
      refine ⟨members.eraseDups, ?_, hdistinct, ?_, fun member hmember =>
        exists_member_of_members hmembers member (List.mem_eraseDups.mp hmember)⟩
      · intro hnil
        simp [store?, hnil] at hstore
      · rw [store?, eraseDups_of_nodup hdistinct]
        exact hstore

/-- The members of a stored set of texts. -/
theorem exists_texts_of_encode {element : SetElement} {values : List Value} {stored : WireValue}
    (htext : element.wireType ≠ .binarySet) (property : String → Prop)
    (hvalue : ∀ value ∈ values, ∀ member, element.member? value = some member →
      ∃ text, member = .text text ∧ property text)
    (hencode : element.encode values = .ok (some stored)) :
    ∃ texts : List String, texts ≠ [] ∧ texts.Nodup ∧ (∀ text ∈ texts, property text) ∧
      element.store? (texts.map .text) = some stored ∧
      stored = if element.wireType = .stringSet then .stringSet texts else .numberSet texts := by
  obtain ⟨members, hne, hdistinct, hstore, hmembers⟩ := exists_distinct_of_encode hencode
  obtain ⟨texts, rfl, htexts⟩ : ∃ texts : List String, members = texts.map .text ∧
      ∀ text ∈ texts, property text := exists_eq_map fun member hmember => by
    obtain ⟨value, hmem, hmade⟩ := hmembers member hmember
    exact hvalue value hmem member hmade
  have hnil : texts ≠ [] := by simpa using hne
  have hnodup : texts.Nodup := hdistinct.of_map _
  refine ⟨texts, hnil, hnodup, htexts, hstore, ?_⟩
  rw [store?_texts element hnil hnodup htext] at hstore
  exact (Option.some.inj hstore).symm

end SetElement

namespace WireValue

variable {element : CandidateType σ} {values : List Value} {stored : WireValue}

/-- A set of texts is stored as it was if its members are made of the same texts. -/
theorem Recoded.texts {kind : SetElement} (hkind : element.setElement? = some kind)
    {texts : List String} (hwire : kind.wireType ≠ .binarySet)
    (hstored : stored = if kind.wireType = .stringSet then .stringSet texts else .numberSet texts)
    (hstore : kind.store? (texts.map .text) = some stored)
    (hread : stored.setOf? kind = some (.set values))
    (hmembers : kind.members values = .ok (texts.map .text))
    (hscores : ∀ value ∈ values, ∀ reading : Reading σ, reading.type = element →
      value.score Score.rounded reading = 1)
    (hlength : values.length = texts.length) (hmemory : stored.size ≤ 2 ^ 63) :
    Recoded (.set element) stored (.set values) := by
  have hkinds : kind.wireType = .stringSet ∨ kind.wireType = .numberSet := by
    cases kind with
    | date storage => cases storage <;> simp [SetElement.wireType]
    | _ => simp_all [SetElement.wireType]
  have hset : stored.isSetOf kind = true ∧ 1 + texts.length = stored.size := by
    rw [hstored]
    rcases hkinds with hkind | hkind <;> simp [hkind, isSetOf, wireType, size]
  refine .set hkind hset.1 hread ?_ hscores (by rw [hlength, hset.2]) hmemory
  rw [SetElement.encode, hmembers]
  exact congrArg Except.ok hstore

theorem exists_recoded_strings
    (hencode : SetElement.string.encode values = .ok (some stored))
    (hmemory : stored.size ≤ 2 ^ 63) :
    ∃ back, Recoded (σ := σ) (.set (.primitive .string)) stored back := by
  obtain ⟨texts, -, -, -, hstore, hstored⟩ := SetElement.exists_texts_of_encode
    (by decide) (fun _ => True)
    (fun value _ member hmember => by
      cases value <;> simp_all [SetElement.member?, eq_comm]) hencode
  refine ⟨.set (texts.map .string), .texts rfl (by decide) hstored hstore ?_ ?_ ?_
    (List.length_map ..) hmemory⟩
  · rw [hstored]
    rfl
  · exact SetElement.members_map .string (fun _ => rfl) texts
  · intro value hvalue reading htype
    obtain ⟨text, -, rfl⟩ := List.mem_map.mp hvalue
    rw [Value.score_of_whole (by rw [htype]; rfl), htype]
    rfl

theorem exists_recoded_numbers
    (hencode : SetElement.number.encode values = .ok (some stored))
    (hmemory : stored.size ≤ 2 ^ 63) :
    ∃ back, Recoded (σ := σ) (.set (.primitive .number)) stored back := by
  obtain ⟨texts, -, -, htexts, hstore, hstored⟩ := SetElement.exists_texts_of_encode
    (by decide) (fun text => ∃ x : Binary64, text = x.text)
    (fun value _ member hmember => by
      cases value <;> simp_all [SetElement.member?]
      exact ⟨_, hmember.symm⟩) hencode
  refine ⟨.set (texts.map .ofNumberText), .texts rfl (by decide) hstored hstore ?_ ?_ ?_
    (List.length_map ..) hmemory⟩
  · rw [hstored]
    rfl
  · rw [SetElement.members_map .number
      (g := fun text => .text ((Decimal.parse? text).getD .nan).text) (fun _ => rfl)]
    refine congrArg Except.ok (List.map_congr_left fun text htext => ?_)
    obtain ⟨x, rfl⟩ := htexts text htext
    rw [Binary64.text_parse?_text]
  · intro value hvalue reading htype
    obtain ⟨text, -, rfl⟩ := List.mem_map.mp hvalue
    rw [Value.score_of_whole (by rw [htype]; rfl), htype]
    rfl

theorem exists_recoded_binaries
    (hencode : SetElement.binary.encode values = .ok (some stored))
    (hmemory : stored.size ≤ 2 ^ 63) :
    ∃ back, Recoded (σ := σ) (.set (.primitive .binary)) stored back := by
  obtain ⟨members, hne, hdistinct, hstore, hmembers⟩ := SetElement.exists_distinct_of_encode hencode
  obtain ⟨contents, rfl, -⟩ : ∃ contents : List (List UInt8), members = contents.map .bytes ∧
      ∀ content ∈ contents, True := exists_eq_map fun member hmember => by
    obtain ⟨value, -, hmade⟩ := hmembers member hmember
    cases value <;> simp_all [SetElement.member?, eq_comm]
  have hstored : stored = .binarySet contents := by
    rw [SetElement.store?, eraseDups_of_nodup hdistinct] at hstore
    split at hstore
    · simp at hstore
    · rw [SetElement.binaries_map] at hstore
      exact (Option.some.inj hstore).symm
  refine ⟨.set (contents.map .binary),
    .set rfl (by rw [hstored]; rfl) (by rw [hstored]; rfl) ?_ ?_ ?_ hmemory⟩
  · rw [SetElement.encode, SetElement.members_map .binary (g := .bytes) (fun _ => rfl)]
    exact congrArg Except.ok hstore
  · intro value hvalue reading htype
    obtain ⟨content, -, rfl⟩ := List.mem_map.mp hvalue
    rw [Value.score_of_whole (by rw [htype]; rfl), htype]
    rfl
  · rw [hstored, List.length_map, size]

theorem exists_recoded_dates {storage : DateStorage}
    (hencode : (SetElement.date storage).encode values = .ok (some stored))
    (hlegible : ∀ member ∈ stored.members, member.Legible storage)
    (hmemory : stored.size ≤ 2 ^ 63) :
    ∃ back, Recoded (σ := σ) (.set (.date storage)) stored back := by
  have hwire : (SetElement.date storage).wireType ≠ .binarySet := by cases storage <;> decide
  obtain ⟨texts, -, -, -, hstore, hstored⟩ := SetElement.exists_texts_of_encode
    hwire (fun _ => True)
    (fun value _ member hmember => by
      simp only [SetElement.member?, Option.bind_eq_some_iff, Option.map_eq_some_iff] at hmember
      obtain ⟨_, -, text, -, rfl⟩ := hmember
      exact ⟨text, rfl, trivial⟩) hencode
  -- each text is that of the date that it is read as
  obtain ⟨dates, rfl, hdates⟩ : ∃ dates : List Instant,
      texts = dates.map (SetElement.dateText storage) ∧
        ∀ t ∈ dates, (ofDate t storage).date? storage = some t := exists_eq_map fun text htext => by
    obtain ⟨t, hread, hsame⟩ := hlegible
      (if (SetElement.date storage).wireType = .stringSet then .string text else .number text) (by
        rw [hstored]
        split <;> simpa [WireValue.members] using htext)
    rw [← hsame] at hread
    refine ⟨t, ?_, hread⟩
    cases storage <;> simp_all [ofDate, SetElement.dateText, SetElement.wireType]
  refine ⟨.set (dates.map .date), .texts rfl hwire hstored hstore ?_ ?_ ?_ (by simp) hmemory⟩
  · rw [hstored]
    exact SetElement.setOf?_dates hdates
  · exact SetElement.members_dates storage dates
  · intro value hvalue reading htype
    obtain ⟨t, -, rfl⟩ := List.mem_map.mp hvalue
    rw [Value.score_of_whole (by rw [htype]; rfl), htype]
    rfl

/-! ## What is stored at once -/

theorem exists_kind_of_encodeScalar {element : CandidateType σ} {reading : Reading σ}
    {value : Value} (htype : reading.type = .set element)
    (hencode : reading.encodeScalar value = .ok (some stored)) :
    ∃ kind members, element.setElement? = some kind ∧
      (value = .set members ∨ value = .list members) ∧ kind.encode members = .ok (some stored) := by
  have hset : ∀ members, reading.encodeSet element members = .ok (some stored) →
      ∃ kind, element.setElement? = some kind ∧ kind.encode members = .ok (some stored) := by
    intro members hstored
    cases hkind : element.setElement? with
    | none => cases members <;> simp [Reading.encodeSet, hkind] at hstored
    | some kind =>
        refine ⟨kind, rfl, ?_⟩
        cases hresult : kind.encode members <;> simp_all [Reading.encodeSet, Except.mapError]
  unfold Reading.encodeScalar at hencode
  cases value with
  | list members =>
      obtain ⟨kind, hkind, hstored⟩ := hset members (by simpa [htype] using hencode)
      exact ⟨kind, members, hkind, .inr rfl, hstored⟩
  | set members =>
      obtain ⟨kind, hkind, hstored⟩ := hset members (by simpa [htype] using hencode)
      exact ⟨kind, members, hkind, .inl rfl, hstored⟩
  | _ => simp [htype] at hencode

theorem exists_recoded_set {kind : SetElement} (hkind : element.setElement? = some kind)
    (hencode : kind.encode values = .ok (some stored))
    (hlasts : stored.LeafLasts (.set element)) (hmemory : stored.size ≤ 2 ^ 63) :
    ∃ back, Recoded (.set element) stored back := by
  cases element with
  | primitive primitive =>
      cases primitive <;> cases hkind
      · exact exists_recoded_strings hencode hmemory
      · exact exists_recoded_numbers hencode hmemory
      · exact exists_recoded_binaries hencode hmemory
  | date storage =>
      cases hkind
      exact exists_recoded_dates hencode hlasts hmemory
  | _ => simp [CandidateType.setElement?] at hkind

theorem natural_of_primitive {kind : Primitive} {value : Value}
    (hfits : 0 < value.scalarScore (σ := σ) (.primitive kind))
    (hnatural : value.natural? = some stored) :
    stored.natural.natural? = some stored ∧
      stored.natural.scalarScore (σ := σ) (.primitive kind) = 1 ∧
      stored.scalarScore (σ := σ) (.primitive kind) = 1 := by
  unfold Value.scalarScore at hfits
  rw [Score.ofBool_pos] at hfits
  cases kind <;> cases value <;> simp only [Bool.false_eq_true] at hfits <;>
    obtain rfl := Option.some.inj hnatural
  case number.number x =>
    refine ⟨?_, rfl, rfl⟩
    rw [natural, Value.ofNumberText, Value.natural?, Binary64.text_parse?_text]
  all_goals exact ⟨rfl, rfl, rfl⟩

/-- A value that is stored at once is decoded to a value that is stored in the same way, if its
dates are legible. -/
theorem exists_recoded {value : Value} {reading : Reading σ} {round : Rat → Rat}
    (hscore : 0 < value.score round reading)
    (hencode : reading.encodeScalar value = .ok (some stored))
    (hlasts : stored.LeafLasts reading.type) (hmemory : stored.size ≤ 2 ^ 63) :
    ∃ back, Recoded reading.type stored back := by
  obtain ⟨scope, place, type⟩ := reading
  cases type with
  | primitive kind =>
      rw [Value.score_of_whole rfl] at hscore
      obtain ⟨hnatural, hback, hstored⟩ := natural_of_primitive hscore
        (show value.natural? = some stored by simpa [Reading.encodeScalar] using hencode)
      exact ⟨_, .natural (.inl ⟨kind, rfl⟩) hnatural hback hstored⟩
  | combine sources separator =>
      rw [Value.score_of_whole rfl] at hscore
      unfold Value.scalarScore at hscore
      rw [Score.ofBool_pos] at hscore
      have hnatural : value.natural? = some stored := by
        simpa [Reading.encodeScalar] using hencode
      cases value <;> simp only [Bool.false_eq_true] at hscore
      obtain rfl := Option.some.inj hnatural
      exact ⟨_, .natural (.inr rfl) rfl rfl rfl⟩
  | constant expected =>
      rw [Value.score_of_whole rfl] at hscore
      unfold Value.scalarScore at hscore
      rw [Score.ofBool_pos] at hscore
      have hequal : expected.equal value = true := hscore
      have hnatural : value.natural? = some stored := by
        simpa [Reading.encodeScalar] using hencode
      rw [← Value.natural?_eq_of_equal hequal] at hnatural
      exact ⟨_, .constant (Value.equal_self_of_equal hequal) hnatural⟩
  | date storage =>
      obtain ⟨t, hread, hstored⟩ := hlasts
      exact ⟨_, .date hread hstored⟩
  | set element =>
      obtain ⟨kind, members, hkind, -, hstored⟩ := exists_kind_of_encodeScalar rfl hencode
      exact exists_recoded_set hkind hstored hlasts hmemory
  | _ => cases value <;> simp [Reading.encodeScalar] at hencode

/-- A text as it is stored for a date. -/
def ofDateText (storage : DateStorage) (text : String) : WireValue :=
  match storage with
  | .iso => .string text
  | .milliseconds | .seconds => .number text

theorem ofDateText_dateText (storage : DateStorage) (t : Instant) :
    ofDateText storage (SetElement.dateText storage t) = ofDate t storage := by
  cases storage <;> rfl

theorem exists_related_of_map_eq {α β γ : Type} {related : α → β → Prop} {f : α → γ} {g : β → γ}
    {items : List α} {values : List β} (hall : List.Forall₂ related items values)
    (hsame : items.map f = values.map g) :
    ∀ item ∈ items, ∃ value, related item value ∧ f item = g value := by
  induction hall with
  | nil => simp
  | @cons item value rest values hrelated _ ih =>
      obtain ⟨hfirst, hrest⟩ := List.cons.inj hsame
      intro other hother
      rcases List.mem_cons.mp hother with rfl | hother
      · exact ⟨value, hrelated, hfirst⟩
      · exact ih hrest other hother

/-- The dates that a set of texts is read as are stored as the same texts only if none of them is
lost. -/
theorem legible_of_encode_dates {storage : DateStorage} {texts : List String} {dates : List Instant}
    (hmembers : stored.members = texts.map (ofDateText storage))
    (hread : texts.mapM (fun text => (ofDateText storage text).date? storage) = some dates)
    (hencode : (SetElement.date storage).encode (dates.map .date) = .ok (some stored)) :
    ∀ member ∈ stored.members, member.Legible storage := by
  have hpairs := forall₂_of_mapM_eq_some hread
  set made := (dates.map (SetElement.dateText storage)).map SetMember.text with hmade
  rw [SetElement.encode, SetElement.members_dates] at hencode
  have hstore : (SetElement.date storage).store? made = some stored := Except.ok.inj hencode
  -- what is stored are the different texts of the dates
  obtain ⟨distinct, hdistinct, -⟩ : ∃ distinct : List String,
      made.eraseDups = distinct.map .text ∧ ∀ text ∈ distinct, True :=
    exists_eq_map fun member hmember => by
      obtain ⟨text, -, rfl⟩ := List.mem_map.mp (List.mem_eraseDups.mp hmember)
      exact ⟨text, rfl, trivial⟩
  have hstored : stored.members = distinct.map (ofDateText storage) := by
    rw [SetElement.store?, hdistinct] at hstore
    split at hstore
    · simp at hstore
    · rw [SetElement.texts_map] at hstore
      cases storage <;> simp only [SetElement.wireType] at hstore <;>
        (obtain rfl := Option.some.inj hstore; rfl)
  have hlength : made.eraseDups.length = made.length := by
    have hsame := congrArg List.length (hmembers.symm.trans hstored)
    rw [hdistinct]
    simpa [hmade, hpairs.length_eq] using hsame.symm
  have htexts : distinct = dates.map (SetElement.dateText storage) := by
    rw [eraseDups_of_length hlength, hmade] at hdistinct
    exact (List.map_injective_iff.mpr (fun _ _ => SetMember.text.inj) hdistinct).symm
  have hdates : texts.map (ofDateText storage) = dates.map (ofDate · storage) := by
    rw [← hmembers, hstored, htexts, List.map_map]
    exact List.map_congr_left fun t _ => ofDateText_dateText storage t
  intro member hmember
  rw [hmembers] at hmember
  obtain ⟨text, htext, rfl⟩ := List.mem_map.mp hmember
  obtain ⟨t, ht, hsame⟩ := exists_related_of_map_eq hpairs hdates text htext
  exact ⟨t, ht, hsame.symm⟩

/-- A stored set of the kind that a set of dates has is read text by text. -/
theorem exists_dates_of_setOf? {storage : DateStorage} {set : Value}
    (hfits : stored.wireType ∈ (CandidateType.set (σ := σ) (.date storage)).holds)
    (hset : stored.setOf? (.date storage) = some set) :
    ∃ (texts : List String) (dates : List Instant),
      stored.members = texts.map (ofDateText storage) ∧
      texts.mapM (fun text => (ofDateText storage text).date? storage) = some dates ∧
        set = .set (dates.map .date) := by
  have hkind : stored.wireType = (SetElement.date storage).wireType := by
    simpa [CandidateType.holds, CandidateType.setElement?] using hfits
  cases storage <;> cases stored <;>
    simp only [wireType, SetElement.wireType, reduceCtorEq] at hkind <;>
    · obtain ⟨dates, hdates, rfl⟩ := Option.map_eq_some_iff.mp hset
      exact ⟨_, dates, rfl, hdates, rfl⟩

/-- A value that is decoded and stored in the same way has legible dates. -/
theorem leafLasts_of_encodeAs {back : Value} {reading other : Reading σ}
    (htype : other.type = reading.type) (hfits : stored.wireType ∈ reading.type.holds)
    (hdecode : stored.decodeLeaf reading = .ok back)
    (hencode : back.encodeAs other = .ok (some stored)) : stored.LeafLasts reading.type := by
  obtain ⟨scope, place, type⟩ := reading
  cases type with
  | date storage =>
      simp only [decodeLeaf] at hdecode
      split at hdecode
      · next t hread =>
          obtain rfl := Except.ok.inj hdecode
          refine ⟨t, hread, ?_⟩
          simpa [Value.encodeAs, Reading.encodeScalar, htype, Value.date?] using hencode
      · simp at hdecode
  | set element =>
      cases element with
      | date storage =>
          simp only [decodeLeaf, CandidateType.setElement?, Option.getD_some] at hdecode
          split at hdecode
          · next set hset =>
              obtain rfl := Except.ok.inj hdecode
              obtain ⟨texts, dates, hmembers, hread, rfl⟩ := exists_dates_of_setOf? hfits hset
              refine legible_of_encode_dates hmembers hread ?_
              obtain ⟨kind, members, hkind, hvalue, hstored⟩ := exists_kind_of_encodeScalar htype
                (show other.encodeScalar _ = _ by simpa [Value.encodeAs] using hencode)
              obtain rfl : dates.map .date = members := by simpa using hvalue
              obtain rfl : SetElement.date storage = kind := by
                simpa [CandidateType.setElement?] using hkind
              exact hstored
          · simp at hdecode
      | _ => trivial
  | _ => trivial

end WireValue

end ItemMapper
