import ItemMapper.Proofs.RoundTrip.Shape
import ItemMapper.Proofs.Typing.HashKeys
import ItemMapper.Proofs.Typing.Highest

/-!
# Values that match a type completely

`Value.Matches scope type value`: nothing of the value is at odds with the type.  Other than
`Value.Fits` this asks nothing of numbers, dates or sets, leaves fields without a value aside, and
is content with any of several types.

Exactly these values have the exact score one (`Value.fit_eq_one_iff`), by recursion on the value:
an average reaches one only if every member does, and an undeclared field never does.  A reference
to a model that stands for a hash key may lead through any number of models before it comes to a
type that the value is compared with; the readings of the reference are those types
(`Registry.mem_keyReadings_iff`).

So the choice among candidates can be told without scores (`Scope.resolve_declarative`): it is the
first one that fits best, and where there are candidates that the value matches completely, the
first of them.
-/

namespace ItemMapper

variable {σ : Type}

/-! ## Matching -/

/-- A value without members has the kind of value that a type is for. -/
inductive CandidateType.Suits : CandidateType σ → Value → Prop
  | string {text : String} : Suits (.primitive .string) (.string text)
  | number {number : Binary64} : Suits (.primitive .number) (.number number)
  | binary {bytes : List UInt8} : Suits (.primitive .binary) (.binary bytes)
  | boolean {value : Bool} : Suits (.primitive .boolean) (.bool value)
  | null : Suits (.primitive .null) .null
  | date {storage : DateStorage} {instant : Instant} : Suits (.date storage) (.date instant)
  | dateNumber {storage : DateStorage} {number : Binary64} : Suits (.date storage) (.number number)
  | combine {sources : List String} {separator text : String} :
      Suits (.combine sources separator) (.string text)
  | constant {expected value : Value} (hequal : (expected == value) = true) :
      Suits (.constant expected) value

mutual

/-- A value matches a type completely. -/
inductive Value.Matches : Scope σ → CandidateType σ → Value → Prop
  | scalar {scope : Scope σ} {type : CandidateType σ} {value : Value} (hsuits : type.Suits value) :
      Matches scope type value
  | list {scope : Scope σ} {elements : List (CandidateType σ)} {items : List Value}
      (hitems : ∀ item ∈ items, MatchesSome scope elements item) :
      Matches scope (.array elements) (.list items)
  | set {scope : Scope σ} {element : CandidateType σ} {members : List Value}
      (hmembers : ∀ member ∈ members, Matches scope element member) :
      Matches scope (.set element) (.set members)
  | setList {scope : Scope σ} {element : CandidateType σ} {members : List Value}
      (hmembers : ∀ member ∈ members, Matches scope element member) :
      Matches scope (.set element) (.list members)
  /-- Each entry with a value is declared, and matches some type of its attribute. -/
  | document {scope inner : Scope σ} {type : CandidateType σ} {schema : Schema σ}
      {fields : List (String × Value)} (hopens : scope.Opens type inner schema)
      (hdeclared : ∀ entry ∈ fields, entry.2.isUndefined = false →
        ∃ field, schema.nativeAttribute? entry.1 = some field)
      (hvalues : ∀ entry ∈ fields, entry.2.isUndefined = false →
        ∀ field, schema.nativeAttribute? entry.1 = some field →
          MatchesSome inner field.types entry.2) :
      Matches scope type (.map fields)
  /-- What is no document itself may be the hash key of one. -/
  | hashKey {scope : Scope σ} {name : String} {model : Model σ} {field : Attribute σ}
      {value : Value} (hvalue : value.isDocument = false)
      (hmodel : scope.registry.find? name = some model)
      (hkey : model.schema.hashKey? = some field)
      (hmatches : MatchesSome ⟨scope.registry, model.schema⟩ field.types value) :
      Matches scope (.model name) value

/-- A value matches one of some types completely. -/
inductive Value.MatchesSome : Scope σ → List (CandidateType σ) → Value → Prop
  | some {scope : Scope σ} {types : List (CandidateType σ)} {type : CandidateType σ} {value : Value}
      (htype : type ∈ types) (hmatches : Value.Matches scope type value) :
      MatchesSome scope types value

end

namespace Value

variable {scope : Scope σ} {place : Place} {type : CandidateType σ}
  {types elements : List (CandidateType σ)} {value : Value}

theorem matchesSome_iff :
    MatchesSome scope types value ↔ ∃ type ∈ types, Matches scope type value := by
  constructor
  · rintro ⟨htype, hmatches⟩
    exact ⟨_, htype, hmatches⟩
  · rintro ⟨type, htype, hmatches⟩
    exact .some htype hmatches

/-! ### Hash keys -/

/-- What matches a reference as a hash key matches a type that the hash key leads to. -/
theorem exists_keyLeads_of_matches : ∀ {scope : Scope σ} {type : CandidateType σ} {value : Value},
    Matches scope type value → value.isDocument = false → ∀ {name : String}, type = .model name →
      ∃ schema other, (∀ next, other ≠ .model next) ∧
        (∃ steps, scope.registry.KeyLeads schema other steps name) ∧
        Matches ⟨scope.registry, schema⟩ other value
  | _, _, _, .hashKey _ hmodel hkey (@MatchesSome.some _ _ _ type _ htype hmatches), hvalue,
      _, rfl => by
      have hrest := @exists_keyLeads_of_matches _ _ _ hmatches hvalue
      by_cases hmore : ∃ next, type = .model next
      · obtain ⟨next, rfl⟩ := hmore
        obtain ⟨schema, other, hother, ⟨steps, hleads⟩, hmatches⟩ := hrest rfl
        exact ⟨schema, other, hother, ⟨_, .next hmodel hkey htype hleads⟩, hmatches⟩
      · exact ⟨_, type, fun next heq => hmore ⟨next, heq⟩, ⟨0, .own hmodel hkey rfl htype⟩, hmatches⟩
  | _, _, _, .scalar hsuits, _, _, heq => by
      subst heq
      cases hsuits
  | _, _, _, .document _ _ _, hvalue, _, _ => nomatch hvalue
  | _, _, _, .list _, _, _, heq | _, _, _, .set _, _, _, heq | _, _, _, .setList _, _, _, heq =>
      nomatch heq

theorem matches_of_keyLeads {registry : Registry σ} {root schema : Schema σ} {steps : Nat}
    {name : String} (hvalue : value.isDocument = false)
    (hleads : registry.KeyLeads schema type steps name)
    (hmatches : Matches ⟨registry, schema⟩ type value) :
    Matches ⟨registry, root⟩ (.model name) value := by
  induction hleads generalizing root with
  | own hmodel hkey hschema htype =>
      subst hschema
      exact .hashKey hvalue hmodel hkey (.some htype hmatches)
  | next hmodel hkey hnext _ ih => exact .hashKey hvalue hmodel hkey (.some hnext ih)

/-- The types that a hash key is compared with are those that the readings of the reference have. -/
theorem matches_model_iff {name : String} (hvalue : value.isDocument = false) :
    Matches scope (.model name) value ↔
      ∃ reading ∈ scope.readings place value.isDocument (.model name),
        Matches reading.scope reading.type value := by
  rw [hvalue]
  constructor
  · intro hmatches
    obtain ⟨schema, type, hother, hleads, hmatches⟩ := exists_keyLeads_of_matches hmatches hvalue rfl
    exact ⟨⟨⟨scope.registry, schema⟩, place.restart, type⟩,
      Registry.mem_keyReadings_iff.mpr ⟨rfl, rfl, hother, hleads⟩, hmatches⟩
  · rintro ⟨⟨⟨_, _⟩, _, type⟩, hreading, hmatches⟩
    obtain ⟨rfl, -, -, steps, hleads⟩ := Registry.mem_keyReadings_iff.mp hreading
    exact matches_of_keyLeads hvalue hleads hmatches

/-- A value matches a type if it matches one of the readings of the type. -/
theorem matches_iff_reading :
    Matches scope type value ↔
      ∃ reading ∈ scope.readings place value.isDocument type,
        Matches reading.scope reading.type value := by
  cases type with
  | model name =>
      cases hvalue : value.isDocument with
      | false => exact hvalue ▸ matches_model_iff hvalue
      | true => simp [Scope.readings]
  | _ => simp [Scope.readings]

end Value

/-! ## Scores of one -/

theorem Score.ofBool_eq_one_iff {fits : Bool} : Score.ofBool fits = 1 ↔ fits = true := by
  cases fits <;> simp [Score.ofBool]

theorem Frame.unknownScore_lt_one (frame : Frame σ) (key : String) :
    frame.unknownScore key < 1 := by
  unfold unknownScore
  split <;> norm_num

/-- Only documents are read as documents of a model. -/
theorem Scope.not_model_of_mem_readings {scope : Scope σ} {place : Place} {isDocument : Bool}
    {type : CandidateType σ} {reading : Reading σ}
    (hreading : reading ∈ scope.readings place isDocument type) (hdocument : isDocument = false)
    (name : String) : reading.type ≠ .model name := by
  subst hdocument
  cases type with
  | model _ => exact (Registry.mem_keyReadings_iff.mp hreading).2.2.1 name
  | _ =>
      obtain rfl := List.mem_singleton.mp hreading
      exact fun heq => nomatch heq

namespace Value

variable {scope : Scope σ} {place : Place} {type : CandidateType σ}
  {types elements : List (CandidateType σ)} {value : Value}

theorem scalarScore_eq_one_iff : value.scalarScore type = 1 ↔ type.Suits value := by
  unfold scalarScore
  rw [Score.ofBool_eq_one_iff]
  constructor
  · intro hfits
    split at hfits
    case h_9 => exact .constant hfits
    case h_10 => contradiction
    all_goals constructor
  · rintro (_ | _ | _ | _ | _ | _ | _ | _ | hequal)
    case constant => exact hequal
    all_goals rfl

/-! ### By recursion on the value

A reading of a value that is no document is never that of a model: the hash key has been followed
already. -/

/-- The score of a value says whether it matches a reading. -/
def ScoresMatching (σ : Type) (value : Value) : Prop :=
  ∀ reading : Reading σ, (value.isDocument = false → ∀ name, reading.type ≠ .model name) →
    (value.score id reading = 1 ↔ Matches reading.scope reading.type value)

theorem ScoresMatching.best_readings (hvalue : ScoresMatching σ value) :
    Score.best ((scope.readings place value.isDocument type).map (value.score id)) = 1 ↔
      Matches scope type value := by
  have hbound : ∀ score ∈ (scope.readings place value.isDocument type).map (value.score id),
      score ≤ 1 := List.forall_mem_map.mpr fun reading _ =>
    (value.proper_score Score.keepsProper_exact reading).le_one
  rw [Score.best_eq_iff zero_lt_one hbound, List.mem_map, matches_iff_reading]
  exact exists_congr fun reading => and_congr_right fun hreading =>
    hvalue reading (Scope.not_model_of_mem_readings hreading)

theorem ScoresMatching.best_some (hvalue : ScoresMatching σ value) :
    Score.best ((types.flatMap (scope.readings place value.isDocument)).map (value.score id)) = 1 ↔
      MatchesSome scope types value := by
  have hbound : ∀ score ∈ (types.flatMap (scope.readings place value.isDocument)).map
      (value.score id), score ≤ 1 :=
    List.forall_mem_map.mpr fun reading _ =>
      (value.proper_score Score.keepsProper_exact reading).le_one
  rw [Score.best_eq_iff zero_lt_one hbound, List.mem_map, matchesSome_iff]
  constructor
  · rintro ⟨reading, hreading, hscore⟩
    obtain ⟨type, htype, hreading⟩ := List.mem_flatMap.mp hreading
    have hmatches := (hvalue reading (Scope.not_model_of_mem_readings hreading)).mp hscore
    exact ⟨type, htype, matches_iff_reading.mpr ⟨reading, hreading, hmatches⟩⟩
  · rintro ⟨type, htype, hmatches⟩
    obtain ⟨reading, hreading, hmatches⟩ := matches_iff_reading.mp hmatches
    exact ⟨reading, List.mem_flatMap.mpr ⟨type, htype, hreading⟩,
      (hvalue reading (Scope.not_model_of_mem_readings hreading)).mpr hmatches⟩

/-- Where a type takes scalars only, the value is to suit it. -/
theorem scalarScore_iff_matches (honly : Matches scope type value → type.Suits value) :
    value.scalarScore type = 1 ↔ Matches scope type value :=
  scalarScore_eq_one_iff.trans ⟨.scalar, honly⟩

mutual

theorem score_eq_one_iff : ∀ value : Value, ScoresMatching σ value
  | .list items, ⟨scope, place, type⟩, hreading => by
      simp only [score]
      cases type with
      | array elements =>
          rw [Score.average_eq_one_iff (proper_itemScores Score.keepsProper_exact items),
            itemScores_eq_one_iff items]
          exact ⟨.list, fun hmatches => by cases hmatches with
            | list hitems => exact hitems
            | scalar hsuits => cases hsuits⟩
      | set element =>
          rw [Score.average_eq_one_iff (proper_memberScores Score.keepsProper_exact items),
            memberScores_eq_one_iff items]
          exact ⟨.setList, fun hmatches => by cases hmatches with
            | setList hmembers => exact hmembers
            | scalar hsuits => cases hsuits⟩
      | model name => exact absurd rfl (hreading rfl name)
      | _ =>
          refine scalarScore_iff_matches fun hmatches => ?_
          cases hmatches
          assumption
  | .set members, ⟨scope, place, type⟩, hreading => by
      simp only [score]
      cases type with
      | set element =>
          rw [Score.average_eq_one_iff (proper_memberScores Score.keepsProper_exact members),
            memberScores_eq_one_iff members]
          exact ⟨.set, fun hmatches => by cases hmatches with
            | set hmembers => exact hmembers
            | scalar hsuits => cases hsuits⟩
      | model name => exact absurd rfl (hreading rfl name)
      | _ =>
          refine scalarScore_iff_matches fun hmatches => ?_
          cases hmatches
          assumption
  | .map fields, ⟨scope, place, type⟩, _ => by
      simp only [score]
      split
      · next frame hframe =>
          have hopens := Scope.opens_of_enter? hframe
          rw [Score.average_eq_one_iff (proper_fieldScores Score.keepsProper_exact fields),
            fieldScores_eq_one_iff fields]
          constructor
          · intro hall
            refine .document hopens (fun entry hentry hgiven => ?_) ?_
            · exact (hall entry hentry hgiven).imp fun field hfield => hfield.1
            · intro entry hentry hgiven field hfield
              obtain ⟨other, hother, hmatches⟩ := hall entry hentry hgiven
              obtain rfl := Option.some.inj (hfield.symm.trans hother)
              exact hmatches
          · intro hmatches entry hentry hgiven
            cases hmatches with
            | scalar hsuits => cases hsuits; cases hopens
            | hashKey hvalue => cases hvalue
            | document hother hdeclared hvalues =>
                obtain ⟨rfl, rfl⟩ := hopens.unique hother
                obtain ⟨field, hfield⟩ := hdeclared entry hentry hgiven
                exact ⟨field, hfield, hvalues entry hentry hgiven field hfield⟩
      · next hnone =>
          refine scalarScore_iff_matches fun hmatches => ?_
          cases hmatches with
          | scalar hsuits => exact hsuits
          | hashKey hvalue => cases hvalue
          | document hopens =>
              obtain ⟨_, henter⟩ := hopens.enter? place
              cases henter.symm.trans hnone
  | .undefined, ⟨_, _, type⟩, hreading | .null, ⟨_, _, type⟩, hreading
  | .bool _, ⟨_, _, type⟩, hreading | .number _, ⟨_, _, type⟩, hreading
  | .string _, ⟨_, _, type⟩, hreading | .binary _, ⟨_, _, type⟩, hreading
  | .date _, ⟨_, _, type⟩, hreading => by
      simp only [score]
      refine scalarScore_iff_matches fun hmatches => ?_
      cases hmatches with
      | scalar hsuits => exact hsuits
      | hashKey => exact absurd rfl (hreading rfl _)

theorem itemScores_eq_one_iff : ∀ (items : List Value) {scope : Scope σ} {place : Place}
    {elements : List (CandidateType σ)} {index : Nat},
    (∀ score ∈ itemScores id scope place elements index items, score = 1) ↔
      ∀ item ∈ items, MatchesSome scope elements item
  | [], _, _, _, _ => by simp [itemScores]
  | item :: rest, _, _, _, _ => by
      rw [itemScores, List.forall_mem_cons, List.forall_mem_cons, itemScores_eq_one_iff rest,
        (score_eq_one_iff item).best_some]

theorem memberScores_eq_one_iff : ∀ (members : List Value) {scope : Scope σ} {place : Place}
    {element : CandidateType σ},
    (∀ score ∈ memberScores id scope place element members, score = 1) ↔
      ∀ member ∈ members, Matches scope element member
  | [], _, _, _ => by simp [memberScores]
  | member :: rest, _, _, _ => by
      rw [memberScores, List.forall_mem_cons, List.forall_mem_cons, memberScores_eq_one_iff rest,
        (score_eq_one_iff member).best_readings]

theorem fieldScores_eq_one_iff : ∀ (fields : List (String × Value)) {frame : Frame σ},
    (∀ score ∈ fieldScores id frame fields, score = 1) ↔
      ∀ entry ∈ fields, entry.2.isUndefined = false →
        ∃ field, frame.schema.nativeAttribute? entry.1 = some field ∧
          MatchesSome frame.scope field.types entry.2
  | [], _ => by simp [fieldScores]
  | (key, value) :: rest, frame => by
      rw [fieldScores, List.forall_mem_cons, ← fieldScores_eq_one_iff rest]
      split
      · next hundefined => simp [hundefined]
      · next hgiven =>
          rw [List.forall_mem_cons]
          refine and_congr_left fun _ => ?_
          cases hfield : frame.schema.nativeAttribute? key with
          | none => simp [hgiven, (frame.unknownScore_lt_one key).ne]
          | some field => simp [hgiven, (score_eq_one_iff value).best_some]

end

end Value

/-! ## The choice -/

/-- How well a native value fits a candidate type: as its best reading does. -/
def Value.fit (round : Rat → Rat) (scope : Scope σ) (place : Place) (value : Value)
    (type : CandidateType σ) : Rat :=
  scope.fit place value.isDocument (value.score round) type

/-- How well a stored value fits a candidate type. -/
def WireValue.fit (round : Rat → Rat) (scope : Scope σ) (place : Place) (stored : WireValue)
    (type : CandidateType σ) : Rat :=
  scope.fit place stored.isDocument (stored.score round) type

theorem Value.proper_fit (scope : Scope σ) (place : Place) (value : Value)
    (type : CandidateType σ) : Score.Proper (value.fit id scope place type) :=
  Score.proper_best (List.forall_mem_map.mpr fun reading _ =>
    value.proper_score Score.keepsProper_exact reading)

theorem WireValue.proper_fit (scope : Scope σ) (place : Place) (stored : WireValue)
    (type : CandidateType σ) : Score.Proper (stored.fit id scope place type) :=
  Score.proper_best (List.forall_mem_map.mpr fun reading _ =>
    stored.proper_score Score.keepsProper_exact reading)

/-- A native value fits a candidate type completely exactly if it matches it. -/
theorem Value.fit_eq_one_iff {scope : Scope σ} {place : Place} {value : Value}
    {type : CandidateType σ} : value.fit id scope place type = 1 ↔ value.Matches scope type :=
  (Value.score_eq_one_iff value).best_readings

namespace Scope

/-- The type that a native value takes by scores with some rounding. -/
def resolveBy (round : Rat → Rat) (scope : Scope σ) (place : Place)
    (types : List (CandidateType σ)) (value : Value) : Except MapperError (Choice σ) :=
  match scope.choose? place types value.isDocument (value.score round) with
  | some choice => .ok choice
  | none => .error (.mismatch place types value.typeName)

/-- The type that a stored value takes by scores with some rounding. -/
def resolveStoredBy (round : Rat → Rat) (scope : Scope σ) (place : Place)
    (types : List (CandidateType σ)) (stored : WireValue) : Except MapperError (Choice σ) :=
  match scope.choose? place types stored.isDocument (stored.score round) with
  | some choice => .ok choice
  | none => .error (.mismatch place types stored.typeName)

theorem resolve_eq_resolveBy (scope : Scope σ) (place : Place) (types : List (CandidateType σ))
    (value : Value) :
    scope.resolve place types value = scope.resolveBy Score.rounded place types value :=
  rfl

theorem resolveStored_eq_resolveStoredBy (scope : Scope σ) (place : Place)
    (types : List (CandidateType σ)) (stored : WireValue) :
    scope.resolveStored place types stored =
      scope.resolveStoredBy Score.rounded place types stored :=
  rfl

/-- An answer is the first candidate among those that fit best, and an error only if none fits. -/
structure ChoosesBest (types : List (CandidateType σ)) (fit : CandidateType σ → Rat)
    (mismatch : MapperError) (answer : Except MapperError (Choice σ)) : Prop where
  chosen : ∀ type, (∃ choice, answer = .ok choice ∧ choice.type = type) ↔
    0 < fit type ∧ Score.FirstHighest fit types type
  failed : ∀ cause, answer = .error cause ↔ cause = mismatch ∧ ∀ type ∈ types, fit type = 0

theorem choosesBest_of_choose? {scope : Scope σ} {place : Place} {types : List (CandidateType σ)}
    {isDocument : Bool} {score : Reading σ → Rat} {mismatch : MapperError}
    {answer : Except MapperError (Choice σ)}
    (hanswer : answer = match scope.choose? place types isDocument score with
      | some choice => .ok choice
      | none => .error mismatch) :
    ChoosesBest types (scope.fit place isDocument score) mismatch answer := by
  subst hanswer
  refine ⟨fun type => ?_, fun cause => ?_⟩
  · rw [← exists_choose?_iff]
    cases scope.choose? place types isDocument score <;> simp
  · rw [← choose?_eq_none_iff]
    cases scope.choose? place types isDocument score <;> simp [eq_comm]

theorem choosesBest_resolveBy (round : Rat → Rat) (scope : Scope σ) (place : Place)
    (types : List (CandidateType σ)) (value : Value) :
    ChoosesBest types (value.fit round scope place) (.mismatch place types value.typeName)
      (scope.resolveBy round place types value) :=
  choosesBest_of_choose? rfl

theorem choosesBest_resolveStoredBy (round : Rat → Rat) (scope : Scope σ) (place : Place)
    (types : List (CandidateType σ)) (stored : WireValue) :
    ChoosesBest types (stored.fit round scope place) (.mismatch place types stored.typeName)
      (scope.resolveStoredBy round place types stored) :=
  choosesBest_of_choose? rfl

/-- A candidate with the highest score that there can be is the first highest if no candidate
before has this score. -/
theorem firstHighest_one_iff {types : List (CandidateType σ)} {fit : CandidateType σ → Rat}
    (hproper : ∀ type, Score.Proper (fit type)) {type : CandidateType σ} (hone : fit type = 1) :
    Score.FirstHighest fit types type ↔
      ∃ before after, types = before ++ type :: after ∧ ∀ other ∈ before, fit other ≠ 1 := by
  unfold Score.FirstHighest
  rw [hone]
  refine exists_congr fun before => exists_congr fun after => and_congr_right fun _ => ?_
  constructor
  · exact fun hbest other hother => (hbest.1 other hother).ne
  · exact fun hother => ⟨fun other hmem => (hproper other).le_one.lt_of_ne (hother other hmem),
      fun other _ => (hproper other).le_one⟩

end Scope

end ItemMapper
