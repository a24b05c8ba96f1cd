import ItemMapper.Marshal.Read
import ItemMapper.Marshal.Write
import ItemMapper.Proofs.Coding.Natural
import ItemMapper.Proofs.RoundTrip.Shape
import ItemMapper.Proofs.Typing.Score

/-!
# Stored values

`StoredAs scope type value stored back`: wherever a value is looked at as a value of the type, it
is written as `stored`, and this is read as `back`, which is equal to the value.  Both sides choose
the type by scores of their own, the writer on the native value and the reader on the stored one,
so the scores of both are part of the statement.  They are kept above zero by the number of values
in `value`.

This module has the values without documents: the values that are stored at once
(`exists_storedLeaf`), among them the keys of items that are referred to, and lists.
-/

namespace ItemMapper

variable {σ : Type}

/-! ## The only candidate type -/

theorem Scope.resolve_of_readings {scope : Scope σ} {place : Place} {type : CandidateType σ}
    {value : Value} {reading : Reading σ}
    (hreadings : scope.readings place value.isDocument type = [reading])
    (hscore : 0 < value.score Score.rounded reading) :
    scope.resolve place [type] value = .ok ⟨type, reading⟩ := by
  simp [resolve, choose?, choices, hreadings, Score.firstBest, hscore]

theorem Scope.resolveStored_of_readings {scope : Scope σ} {place : Place} {type : CandidateType σ}
    {stored : WireValue} {reading : Reading σ}
    (hreadings : scope.readings place stored.isDocument type = [reading])
    (hscore : 0 < stored.score Score.rounded reading) :
    scope.resolveStored place [type] stored = .ok ⟨type, reading⟩ := by
  simp [resolveStored, choose?, choices, hreadings, Score.firstBest, hscore]

/-- How a value of a type is read, where the type is no reference to a model. -/
theorem Scope.readings_of_ne_model {scope : Scope σ} {type : CandidateType σ}
    (htype : ∀ name, type ≠ .model name) (place : Place) (isDocument : Bool) :
    scope.readings place isDocument type = [⟨scope, place, type⟩] := by
  cases type with
  | model name => exact absurd rfl (htype name)
  | _ => cases isDocument <;> rfl

theorem Scope.readings_document (scope : Scope σ) (place : Place) (type : CandidateType σ) :
    scope.readings place true type = [⟨scope, place, type⟩] := by
  cases type <;> rfl

/-- A value is read through hash keys, or as the type says. -/
theorem Scope.readings_cases (isDocument : Bool) (type : CandidateType σ) :
    (∃ name, type = .model name ∧ isDocument = false) ∨
      ∀ (scope : Scope σ) (place : Place),
        scope.readings place isDocument type = [⟨scope, place, type⟩] := by
  by_cases hmodel : ∃ name, type = .model name
  · obtain ⟨name, rfl⟩ := hmodel
    cases isDocument with
    | false => exact .inl ⟨name, rfl, rfl⟩
    | true => exact .inr fun scope place => readings_document scope place _
  · exact .inr fun scope place => readings_of_ne_model (fun name heq => hmodel ⟨name, heq⟩) place _

/-- Both sides read the value in the same way, and with a score that is kept up by its size. -/
structure BothRead (scope : Scope σ) (type : CandidateType σ) (value : Value) (stored : WireValue)
    (place : Place) (reading : Reading σ) : Prop where
  readings : scope.readings place value.isDocument type = [reading]
  sameKind : stored.isDocument = value.isDocument
  score : Score.AtLeast value.size (value.score Score.rounded reading)
  storedScore : Score.AtLeast value.size (stored.score Score.rounded reading)

namespace BothRead

variable {scope : Scope σ} {type : CandidateType σ} {value : Value} {stored : WireValue}
  {place : Place} {reading : Reading σ}

theorem resolve (hboth : BothRead scope type value stored place reading) :
    scope.resolve place [type] value = .ok ⟨type, reading⟩ :=
  Scope.resolve_of_readings hboth.readings hboth.score.pos

theorem resolveStored (hboth : BothRead scope type value stored place reading) :
    scope.resolveStored place [type] stored = .ok ⟨type, reading⟩ :=
  Scope.resolveStored_of_readings (hboth.sameKind ▸ hboth.readings) hboth.storedScore.pos

/-- The best score of the value, as it counts for what the value is in. -/
theorem best (hboth : BothRead scope type value stored place reading) :
    Score.AtLeast value.size (Score.best (([type].flatMap
      (scope.readings place value.isDocument)).map (value.score Score.rounded))) := by
  simpa [hboth.readings, Score.best_singleton hboth.score.pos.le] using hboth.score

theorem bestStored (hboth : BothRead scope type value stored place reading) :
    Score.AtLeast value.size (Score.best (([type].flatMap
      (scope.readings place stored.isDocument)).map (stored.score Score.rounded))) := by
  simpa [hboth.sameKind, hboth.readings, Score.best_singleton hboth.storedScore.pos.le] using
    hboth.storedScore

end BothRead

/-- A value that is written as `stored` and read from it as `back`. -/
structure StoredAs (scope : Scope σ) (type : CandidateType σ) (value : Value) (stored : WireValue)
    (back : Value) : Prop where
  equal : back.equal value = true
  defined : value.isUndefined = false
  both : ∀ place, ∃ reading, BothRead scope type value stored place reading
  write : ∀ make now depth place before, Pipeline.Yields
    (value.writer make ⟨.plain, now, depth⟩ scope place [type]) before (some stored) before
  read : ∀ place before, Pipeline.Yields (stored.reader .plain scope place [type]) before back before

/-! ## Values that are stored at once -/

/-- A value that is stored as a whole, whatever else the reading says. -/
structure StoredLeaf (type : CandidateType σ) (value : Value) (stored : WireValue) (back : Value) :
    Prop where
  equal : back.equal value = true
  sameKind : stored.isDocument = value.isDocument
  score : ∀ reading : Reading σ, reading.type = type →
    Score.AtLeast value.size (value.score Score.rounded reading)
  storedScore : ∀ reading : Reading σ, reading.type = type →
    stored.score Score.rounded reading = 1
  encode : ∀ reading : Reading σ, reading.type = type →
    value.encodeAs reading = .ok (some stored)
  decode : ∀ reading : Reading σ, reading.type = type → stored.decodeLeaf reading = .ok back

/-- Values of these types are looked at as a whole, even if they are lists or maps. -/
def CandidateType.isWhole : CandidateType σ → Bool
  | .primitive _ | .date _ | .combine _ _ | .constant _ => true
  | _ => false

section Whole

variable {reading : Reading σ} (hwhole : reading.type.isWhole = true)

include hwhole

theorem Reading.enter?_of_whole : reading.enter? = none := by
  obtain ⟨scope, place, type⟩ := reading
  cases type <;> simp_all [CandidateType.isWhole, Reading.enter?, Scope.enter?]

theorem Value.score_of_whole (value : Value) (round : Rat → Rat) :
    value.score round reading = value.scalarScore reading.type := by
  have henter := Reading.enter?_of_whole hwhole
  cases value with
  | map fields => simp [Value.score, henter]
  | list items => rw [Value.score]; split <;> simp_all [CandidateType.isWhole]
  | set members => rw [Value.score]; split <;> simp_all [CandidateType.isWhole]
  | _ => simp [Value.score]

theorem WireValue.score_of_whole (stored : WireValue) (round : Rat → Rat) :
    stored.score round reading = stored.scalarScore reading.type := by
  have henter := Reading.enter?_of_whole hwhole
  cases stored with
  | map fields => simp [WireValue.score, henter]
  | list items => rw [WireValue.score]; split <;> simp_all [CandidateType.isWhole]
  | _ => simp [WireValue.score]

theorem Value.encodeAs_of_whole (value : Value) :
    value.encodeAs reading = reading.encodeScalar value := by
  have henter := Reading.enter?_of_whole hwhole
  cases value with
  | map fields => simp [Value.encodeAs, henter]
  | list items => rw [Value.encodeAs]; split <;> simp_all [CandidateType.isWhole]
  | _ => simp [Value.encodeAs]

end Whole

/-- A set is stored as a set. -/
theorem SetElement.isDocument_of_store? {element : SetElement} {members : List SetMember}
    {stored : WireValue} (hstore : element.store? members = some stored) :
    stored.isDocument = false := by
  unfold store? at hstore
  split at hstore
  · simp at hstore
  · split at hstore <;> (obtain rfl := Option.some.inj hstore; rfl)

/-- Only maps have maps as natural form. -/
theorem Value.isDocument_of_natural? {value : Value} {stored : WireValue}
    (hnatural : value.natural? = some stored) : stored.isDocument = value.isDocument := by
  cases value with
  | undefined => simp [natural?] at hnatural
  | set members =>
      cases members with
      | nil => simp [natural?] at hnatural
      | cons first rest =>
          rw [natural?, SetElement.encode] at hnatural
          cases hmembers : (SetElement.ofFirst first).members (first :: rest) with
          | error cause => simp [hmembers, Except.map] at hnatural
          | ok members =>
              rw [hmembers] at hnatural
              exact SetElement.isDocument_of_store? hnatural
  | _ => rw [natural?, Option.some_inj] at hnatural; subst hnatural; rfl

/-! ### Sets -/

namespace SetElement

/-- A stored set is a set. -/
theorem not_list_or_map {kind : SetElement} {stored : WireValue}
    (hset : stored.isSetOf kind = true) :
    (∀ items, stored ≠ .list items) ∧ ∀ fields, stored ≠ .map fields := by
  constructor <;> rintro _ rfl <;> cases kind with
  | date storage => cases storage <;> simp [WireValue.isSetOf, WireValue.wireType, wireType] at hset
  | _ => simp [WireValue.isSetOf, WireValue.wireType, wireType] at hset

/-- Members of a kind fit its type completely. -/
theorem score_of_holds {kind : SetElement} {member : Value} {reading : Reading σ}
    (hkind : reading.type.setElement? = some kind) (hholds : kind.Holds member)
    (round : Rat → Rat) : member.score round reading = 1 := by
  have hwhole : reading.type.isWhole = true := by
    cases htype : reading.type <;> simp_all [CandidateType.setElement?, CandidateType.isWhole]
  rw [Value.score_of_whole hwhole]
  cases htype : reading.type with
  | primitive primitive =>
      rw [htype] at hkind
      cases primitive <;> cases hkind
      · obtain ⟨text, rfl⟩ := hholds
        rfl
      · obtain ⟨x, rfl, -⟩ := hholds
        rfl
      · obtain ⟨bytes, rfl⟩ := hholds
        rfl
  | date storage =>
      rw [htype] at hkind
      cases hkind
      obtain ⟨t, rfl, -⟩ := hholds
      rfl
  | _ => simp [htype, CandidateType.setElement?] at hkind

theorem memberScores_of_holds {kind : SetElement} {element : CandidateType σ}
    (hkind : element.setElement? = some kind) (scope : Scope σ) (place : Place) :
    ∀ {members : List Value}, (∀ member ∈ members, kind.Holds member) →
      List.Forall₂ Score.AtLeast (members.map Value.size)
        (Value.memberScores Score.rounded scope place element members)
  | [], _ => .nil
  | member :: rest, hmembers => by
      have hmodel : ∀ name, element ≠ .model name := by
        rintro name rfl
        simp [CandidateType.setElement?] at hkind
      have hscore : member.score Score.rounded ⟨scope, place, element⟩ = 1 :=
        score_of_holds hkind (hmembers member (by simp)) _
      refine .cons ?_ (memberScores_of_holds hkind scope place fun other hother =>
        hmembers other (by simp [hother]))
      rw [Scope.readings_of_ne_model hmodel, List.map_singleton, hscore,
        Score.best_singleton (by norm_num)]
      exact .one _

end SetElement

namespace StoredLeaf

variable {type : CandidateType σ} {value back : Value} {stored : WireValue}

theorem of_whole (hwhole : type.isWhole = true) (hequal : back.equal value = true)
    (hkind : stored.isDocument = value.isDocument) (hscore : value.scalarScore type = 1)
    (hstored : stored.scalarScore type = 1)
    (hencode : ∀ reading : Reading σ, reading.type = type →
      reading.encodeScalar value = .ok (some stored))
    (hdecode : ∀ reading : Reading σ, reading.type = type → stored.decodeLeaf reading = .ok back) :
    StoredLeaf type value stored back where
  equal := hequal
  sameKind := hkind
  score := by
    rintro reading rfl
    rw [Value.score_of_whole hwhole, hscore]
    exact .one _
  storedScore := by
    rintro reading rfl
    rw [WireValue.score_of_whole hwhole, hstored]
  encode := by
    rintro reading rfl
    rw [Value.encodeAs_of_whole hwhole, hencode reading rfl]
  decode := hdecode

/-- Values of the primitive types and combined texts are stored in their natural form. -/
theorem natural (htype : (∃ kind, type = .primitive kind) ∨ type.isCombine = true)
    (hnatural : value.natural? = some stored) (hequal : stored.natural.equal value = true)
    (hscore : value.scalarScore type = 1) (hstored : stored.scalarScore type = 1) :
    StoredLeaf type value stored stored.natural := by
  have hwhole : type.isWhole = true := by
    cases type <;> simp_all [CandidateType.isWhole, CandidateType.isCombine]
  refine of_whole hwhole hequal (Value.isDocument_of_natural? hnatural) hscore hstored ?_ ?_
  · intro reading hreading
    unfold Reading.encodeScalar
    rw [hreading]
    cases type <;> simp_all [CandidateType.isCombine]
  · intro reading hreading
    unfold WireValue.decodeLeaf
    rw [hreading]
    cases type <;> simp_all [CandidateType.isCombine]

/-- A date is stored in the form of its storage. -/
theorem date {storage : DateStorage} {t : Instant} (ht : t.FitsStorage storage) :
    StoredLeaf (σ := σ) (.date storage) (.date t) (.ofDate t storage) (.date t) := by
  have hread := WireValue.date?_ofDate ht
  refine of_whole rfl (by simp [Value.equal]) (by cases storage <;> rfl) rfl ?_ ?_ ?_
  · rw [WireValue.scalarScore, hread]
    rfl
  · intro reading htype
    simp [Reading.encodeScalar, htype, Value.date?]
  · intro reading htype
    simp [WireValue.decodeLeaf, htype, hread]

/-- A constant is stored as any value that is equal to it. -/
theorem constant {expected : Value} (hequal : expected.equal value = true)
    (hnatural : expected.natural? = some stored) :
    StoredLeaf (σ := σ) (.constant expected) value stored expected := by
  have hvalue : value.natural? = some stored := by
    rw [← Value.natural?_eq_of_equal hequal, hnatural]
  refine of_whole rfl hequal (Value.isDocument_of_natural? hvalue) ?_ ?_ ?_ ?_
  · have hsame : (expected == value) = true := hequal
    simp [Value.scalarScore, hsame, Score.ofBool]
  · simp [WireValue.scalarScore, hnatural, Score.ofBool]
  · intro reading htype
    simp [Reading.encodeScalar, htype, hvalue]
  · intro reading htype
    simp [WireValue.decodeLeaf, htype]

/-- A set of members of one kind is stored as a set of their stored forms. -/
theorem set {element : CandidateType σ} {kind : SetElement} {members : List Value}
    (hkind : element.setElement? = some kind) (hmembers : ∀ member ∈ members, kind.Holds member)
    (hmemory : (Value.set members).size ≤ 2 ^ 64)
    (hset : SetElement.StoredSet kind members stored back) :
    StoredLeaf (.set element) (.set members) stored back := by
  obtain ⟨hlist, hmap⟩ := SetElement.not_list_or_map hset.isSetOf
  refine ⟨hset.equal, ?_, ?_, ?_, ?_, ?_⟩
  · cases stored with
    | map fields => exact absurd rfl (hmap fields)
    | _ => rfl
  · intro reading htype
    have hscores := SetElement.memberScores_of_holds hkind reading.scope reading.place hmembers
    rw [Value.size, Value.itemsSize_eq] at hmemory ⊢
    simp only [Value.score, htype]
    exact Score.AtLeast.average hscores (Value.size_pos_of_mem members) (by omega)
  · intro reading htype
    have hscalar : stored.score Score.rounded reading = stored.scalarScore reading.type := by
      cases stored with
      | list items => exact absurd rfl (hlist items)
      | map fields => exact absurd rfl (hmap fields)
      | _ => simp [WireValue.score]
    rw [hscalar, htype]
    simp [WireValue.scalarScore, hkind, hset.isSetOf, Score.ofBool]
  · intro reading htype
    simp [Value.encodeAs, Reading.encodeScalar, htype, Reading.encodeSet, hkind, hset.encode,
      Except.mapError]
  · intro reading htype
    simp [WireValue.decodeLeaf, htype, hkind, hset.setOf?]

end StoredLeaf

/-! ### Writing and reading them -/

section Inside

variable {scope : Scope σ} {place : Place} {type : CandidateType σ} {reading : Reading σ}
  (hlist : ∀ elements, type ≠ .array elements)

include hlist

/-- A value is written at once if its type does not lead inside it. -/
theorem Value.writer_eq_encodeAs {value : Value} (make : Value → Draft σ) (writing : Writing)
    (hdefined : value.isUndefined = false)
    (hdocument : value.isDocument = true → scope.enter? place type = none)
    (hresolve : scope.resolve place [type] value = .ok ⟨type, reading⟩) :
    value.writer make writing scope place [type] = Pipeline.ofExcept (value.encodeAs reading) := by
  cases value with
  | undefined => simp [isUndefined] at hdefined
  | list items =>
      cases type with
      | array elements => exact absurd rfl (hlist elements)
      | _ => simp [writer, writeChosen, hresolve]
  | map fields => simp [writer, writeChosen, hresolve, hdocument rfl]
  | _ => simp [writer, writeChosen, hresolve]

theorem WireValue.reader_eq_decodeLeaf {stored : WireValue} (options : MarshalOptions)
    (hdocument : stored.isDocument = true → scope.enter? place type = none)
    (hresolve : scope.resolveStored place [type] stored = .ok ⟨type, reading⟩) :
    stored.reader options scope place [type] = Pipeline.ofExcept (stored.decodeLeaf reading) := by
  cases stored with
  | list items =>
      cases type with
      | array elements => exact absurd rfl (hlist elements)
      | _ => simp [reader, readChosen, hresolve]
  | map fields => simp [reader, readChosen, hresolve, hdocument rfl]
  | _ => simp [reader, readChosen, hresolve]

end Inside

/-- A value that is stored at once is stored wherever its type, or a type that stands for it, is
read as the type that it is stored by. -/
theorem StoredLeaf.storedAs {scope : Scope σ} {type leaf : CandidateType σ} {value back : Value}
    {stored : WireValue} (hleaf : StoredLeaf leaf value stored back)
    (hdefined : value.isUndefined = false) (hlist : ∀ elements, type ≠ .array elements)
    (hdocument : value.isDocument = true → ∀ place, scope.enter? place type = none)
    (hreadings : ∀ place, ∃ reading, reading.type = leaf ∧
      scope.readings place value.isDocument type = [reading]) :
    StoredAs scope type value stored back := by
  have hboth : ∀ place reading, reading.type = leaf →
      scope.readings place value.isDocument type = [reading] →
        BothRead scope type value stored place reading := by
    intro place reading htype hreading
    refine ⟨hreading, hleaf.sameKind, hleaf.score reading htype, ?_⟩
    rw [hleaf.storedScore reading htype]
    exact .one _
  refine ⟨hleaf.equal, hdefined, ?_, ?_, ?_⟩
  · intro place
    obtain ⟨reading, htype, hreading⟩ := hreadings place
    exact ⟨reading, hboth place reading htype hreading⟩
  · intro make now depth place before
    obtain ⟨reading, htype, hreading⟩ := hreadings place
    rw [Value.writer_eq_encodeAs hlist _ _ hdefined (fun hmap => hdocument hmap place)
      (hboth place reading htype hreading).resolve, hleaf.encode reading htype]
    simp
  · intro place before
    obtain ⟨reading, htype, hreading⟩ := hreadings place
    rw [WireValue.reader_eq_decodeLeaf hlist _
      (fun hmap => hdocument (hleaf.sameKind ▸ hmap) place)
      (hboth place reading htype hreading).resolveStored, hleaf.decode reading htype]
    simp

/-- Values that are no lists of a list type and no documents have a stored form at once. -/
theorem exists_storedLeaf {scope : Scope σ} {type : CandidateType σ} {value : Value}
    (hfits : Value.Fits scope type value)
    (htype : type.isWhole = true ∨ ∃ element, type = .set element)
    (hmemory : value.size ≤ 2 ^ 64) : ∃ stored back, StoredLeaf type value stored back := by
  cases hfits with
  | string =>
      exact ⟨_, _, .natural (.inl ⟨_, rfl⟩) rfl (by simp [WireValue.natural, Value.equal]) rfl rfl⟩
  | number hnumber =>
      obtain ⟨y, hparse, hequal⟩ := Binary64.exists_parse?_text hnumber
      refine ⟨_, _, .natural (.inl ⟨_, rfl⟩) rfl ?_ rfl rfl⟩
      simpa [WireValue.natural, Value.ofNumberText, hparse, Value.equal] using hequal
  | binary =>
      exact ⟨_, _, .natural (.inl ⟨_, rfl⟩) rfl (by simp [WireValue.natural, Value.equal]) rfl rfl⟩
  | boolean =>
      exact ⟨_, _, .natural (.inl ⟨_, rfl⟩) rfl (by simp [WireValue.natural, Value.equal]) rfl rfl⟩
  | null =>
      exact ⟨_, _, .natural (.inl ⟨_, rfl⟩) rfl (by simp [WireValue.natural, Value.equal]) rfl rfl⟩
  | combine =>
      exact ⟨_, _, .natural (.inr rfl) rfl (by simp [WireValue.natural, Value.equal]) rfl rfl⟩
  | date hdate => exact ⟨_, _, .date hdate⟩
  | constant hequal hnatural =>
      obtain ⟨stored, hstored⟩ := Option.isSome_iff_exists.mp hnatural
      exact ⟨_, _, .constant hequal hstored⟩
  | set hkind hne hdistinct hmembers =>
      have hholds := fun member hmember => Value.holds_of_fits hkind (hmembers member hmember)
      obtain ⟨stored, back, hset⟩ := SetElement.exists_stored hne hdistinct hholds
      exact ⟨stored, back, .set hkind hholds hmemory hset⟩
  | list => simp [CandidateType.isWhole] at htype
  | document hopens => cases hopens <;> simp [CandidateType.isWhole] at htype
  | key => simp [CandidateType.isWhole] at htype

theorem exists_storedWhole {scope : Scope σ} {type : CandidateType σ} {value : Value}
    (hfits : Value.Fits scope type value)
    (htype : type.isWhole = true ∨ ∃ element, type = .set element)
    (hmemory : value.size ≤ 2 ^ 64) : ∃ stored back, StoredAs scope type value stored back := by
  obtain ⟨stored, back, hleaf⟩ := exists_storedLeaf hfits htype hmemory
  -- such a type leads neither into a list nor into a document, nor to another model
  have hlist : ∀ elements, type ≠ .array elements := by
    rintro elements rfl
    simp [CandidateType.isWhole] at htype
  have hmodel : ∀ name, type ≠ .model name := by
    rintro name rfl
    simp [CandidateType.isWhole] at htype
  have henter : ∀ place, scope.enter? place type = none := by
    intro place
    cases type <;> simp_all [CandidateType.isWhole, Scope.enter?]
  exact ⟨stored, back, hleaf.storedAs (Value.isUndefined_of_fits hfits) hlist
    (fun _ place => henter place)
    fun place => ⟨_, rfl, Scope.readings_of_ne_model hmodel place _⟩⟩

/-- How the hash key of a model is read. -/
theorem Scope.readings_key {scope : Scope σ} {name : String} {model : Model σ} {field : Attribute σ}
    {type : CandidateType σ} (hmodel : scope.registry.find? name = some model)
    (hkey : model.schema.hashKey? = some field) (htypes : field.types = [type])
    (htype : ∀ other, type ≠ .model other) (place : Place) :
    scope.readings place false (.model name) =
      [⟨⟨scope.registry, model.schema⟩, place.restart, type⟩] := by
  -- the model itself is registered, so there is a step left to look up its key
  obtain ⟨budget, hbudget⟩ : ∃ budget, scope.registry.models.length = budget + 1 :=
    Nat.exists_eq_add_one.mpr (List.length_pos_of_mem (List.mem_of_find?_eq_some hmodel))
  cases type with
  | model other => exact absurd rfl (htype other)
  | _ => simp [readings, hbudget, Registry.keyReadings, hmodel, hkey, htypes]

/-- The hash key of an item is stored for a reference to the item. -/
theorem exists_storedKey {scope : Scope σ} {name : String} {model : Model σ} {field : Attribute σ}
    {type : CandidateType σ} {value : Value} (hmodel : scope.registry.find? name = some model)
    (hkey : model.schema.hashKey? = some field) (htypes : field.types = [type])
    (hscalar : (∃ kind, type = .primitive kind) ∨ ∃ storage, type = .date storage)
    (hvalue : Value.Fits ⟨scope.registry, model.schema⟩ type value)
    (hmemory : value.size ≤ 2 ^ 64) :
    ∃ stored back, StoredAs scope (.model name) value stored back := by
  have hwhole : type.isWhole = true := by
    rcases hscalar with ⟨kind, rfl⟩ | ⟨storage, rfl⟩ <;> rfl
  -- a key that is no document is told from a document of the model by its form
  have hdocument : value.isDocument = false := by
    cases hvalue with
    | document hopens => cases hopens <;> simp at hscalar
    | constant => simp at hscalar
    | key => simp at hscalar
    | _ => rfl
  obtain ⟨stored, back, hleaf⟩ := exists_storedLeaf hvalue (.inl hwhole) hmemory
  refine ⟨stored, back, hleaf.storedAs (Value.isUndefined_of_fits hvalue) (by simp) ?_ ?_⟩
  · simp [hdocument]
  · intro place
    rw [hdocument]
    exact ⟨_, rfl, Scope.readings_key hmodel hkey htypes
      (by rintro other rfl; simp at hscalar) place⟩

end ItemMapper
