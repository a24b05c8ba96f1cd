import ItemMapper.Proofs.Recursion.KeyOrder
import ItemMapper.Proofs.RoundTrip.Stored

/-!
# The answers of the calls

A call should be answered with what the definitions say that recurse on the value alone
(`Call.answer`).  In this module that is related to what the bodies compute: the score of a value is
made of the scores of its members (`Subject.score_array`, `Subject.documentScore_eq`), the best of
all readings of some types is the best of what is best for each type (`Score.best_flatMap`), and
looking for the first best type one by one finds the type that is chosen (`Call.better_foldl_iff`).

Where references do not come back, the hash key of a model is read as its types are, so that the
type that is chosen for it is the one that a value is chosen to be read as
(`Registry.KeysEnd.exists_inner`).
-/

namespace ItemMapper

variable {σ : Type}

/-! ## Answers -/

namespace Subject

/-- How well the value fits a type, with the best way to read it. -/
def fit (subject : Subject) (scope : Scope σ) (place : Place) (type : CandidateType σ) : Rat :=
  scope.fit place subject.isDocument subject.score type

/-- How well the value fits one of some types. -/
def bestFit (subject : Subject) (scope : Scope σ) (place : Place)
    (types : List (CandidateType σ)) : Rat :=
  Score.best (types.map (subject.fit scope place))

/-- How well the value fits as a document. -/
def documentScore (subject : Subject) (frame : Frame σ) : Rat :=
  match subject with
  | .native (.map fields) =>
    Score.average Score.rounded (Value.fieldScores Score.rounded frame fields)
  | .stored (.map fields) =>
    Score.average Score.rounded (WireValue.fieldScores Score.rounded frame fields)
  | _ => 0

end Subject

namespace Call

/-- The stored form of a value that stands for the hash key of the model that is referred to. -/
def keyForm (value : Value) (reading : Reading σ) : Except MapperError (Option WireValue) :=
  match reading.type with
  | .model name =>
    match reading.scope.registry.keyTypes? name with
    | some key => key.scope.encode reading.place.restart key.types value
    | none => .error (reading.mismatch value.typeName)
  | _ => .error (reading.mismatch value.typeName)

/-- The native form of a stored value that stands for the hash key of the model that is referred
to. -/
def keyValue (stored : WireValue) (reading : Reading σ) : Except MapperError Value :=
  match reading.type with
  | .model name =>
    match reading.scope.registry.keyTypes? name with
    | some key => do
      let choice ← key.scope.resolveStored reading.place.restart key.types stored
      stored.decodeLeaf choice.reading
    | none => .error (reading.mismatch stored.typeName)
  | _ => .error (reading.mismatch stored.typeName)

/-- What the functions should answer. -/
def answer {α : Type} : Call σ α → α
  | score subject reading => subject.fit reading.scope reading.place reading.type
  | bestScore subject scope place types => subject.bestFit scope place types
  | documentScore subject frame => subject.documentScore frame
  | resolve subject scope place types => (subject.resolve scope place types).map Choice.type
  | encode value scope place types => scope.encode place types value
  | encodeAs value reading =>
    match reading.type, value.isDocument with
    | .model _, false => keyForm value reading
    | _, _ => value.encodeAs reading
  | encodeDocument fields frame =>
    (Value.encodeFields frame fields).map fun stored => .map (Fields.ofList stored)
  | encodeKey value reading => keyForm value reading
  | decodeLeaf stored reading =>
    match reading.type, stored.isDocument with
    | .model _, false => keyValue stored reading
    | _, _ => stored.decodeLeaf reading

end Call

/-! ## The best of the best -/

namespace Score

theorem best_append (first second : List Rat) :
    best (first ++ second) = max (best first) (best second) := by
  induction first with
  | nil => exact (max_eq_right (best_nonneg second)).symm
  | cons score rest ih => rw [List.cons_append, best_cons, best_cons, ih, max_assoc]

theorem best_flatMap {α : Type} (f : α → List Rat) (items : List α) :
    best (items.flatMap f) = best (items.map fun item => best (f item)) := by
  induction items with
  | nil => rfl
  | cons item rest ih => rw [List.flatMap_cons, List.map_cons, best_append, best_cons, ih]

end Score

/-! ## The first best type one by one -/

namespace Call

variable {α : Type} {score : α → Rat} {items : List α} {item : α}

/-- What is best of some alternatives: the first one with the highest score, if that is above
zero. -/
def IsBest (score : α → Rat) (items : List α) : Option (α × Rat) → Prop
  | none => ∀ other ∈ items, score other ≤ 0
  | some found => found.2 = score found.1 ∧ 0 < found.2 ∧ Score.FirstHighest score items found.1

theorem IsBest.better {best : Option (α × Rat)} (hbest : IsBest score items best) (item : α) :
    IsBest score (items ++ [item]) (better best (item, score item)) := by
  unfold Call.better
  cases best with
  | none =>
      split
      · next hpos =>
          exact ⟨rfl, hpos, items, [], rfl, fun other hother => (hbest other hother).trans_lt hpos,
            by simp⟩
      · next hpos =>
          intro other hother
          rcases List.mem_append.mp hother with hmem | hmem
          · exact hbest other hmem
          · exact List.mem_singleton.mp hmem ▸ not_lt.mp hpos
  | some found =>
      obtain ⟨hscore, hpos, hfirst⟩ := hbest
      split
      · next hhigher =>
          refine ⟨rfl, hpos.trans hhigher, items, [], rfl, fun other hother => ?_, by simp⟩
          exact (hscore ▸ hfirst.le hother).trans_lt hhigher
      · next hhigher =>
          obtain ⟨before, after, rfl, hbefore, hafter⟩ := hfirst
          refine ⟨hscore, hpos, before, after ++ [item], by simp, hbefore, fun other hother => ?_⟩
          rcases List.mem_append.mp hother with hmem | hmem
          · exact hafter other hmem
          · exact List.mem_singleton.mp hmem ▸ hscore ▸ not_lt.mp hhigher

theorem isBest_foldl (score : α → Rat) (items : List α) :
    IsBest score items (items.foldl (fun best item => better best (item, score item)) none) := by
  induction items using List.reverseRecOn with
  | nil => exact nofun
  | append_singleton items item ih =>
      rw [List.foldl_concat]
      exact ih.better item

theorem IsBest.iff {best : Option (α × Rat)} (hbest : IsBest score items best) :
    best.map Prod.fst = some item ↔ 0 < score item ∧ Score.FirstHighest score items item := by
  cases best with
  | none =>
      simp only [Option.map_none, reduceCtorEq, false_iff, not_and]
      exact fun hpos hfirst => absurd (hbest item hfirst.mem) hpos.not_ge
  | some found =>
      obtain ⟨hscore, hpos, hfirst⟩ := hbest
      simp only [Option.map_some, Option.some.injEq]
      constructor
      · rintro rfl
        exact ⟨hscore ▸ hpos, hfirst⟩
      · exact fun hother => hfirst.unique hother.2

end Call

namespace Subject

variable {subject : Subject} {scope : Scope σ} {place : Place} {types : List (CandidateType σ)}

theorem resolve_eq (subject : Subject) (scope : Scope σ) (place : Place)
    (types : List (CandidateType σ)) : subject.resolve scope place types =
      match scope.choose? place types subject.isDocument subject.score with
      | some choice => .ok choice
      | none => .error (.mismatch place types subject.typeName) := by
  cases subject <;> rfl

theorem resolve_of_choose? (subject : Subject) {choice : Choice σ}
    (hchoice : scope.choose? place types subject.isDocument subject.score = some choice) :
    subject.resolve scope place types = .ok choice := by
  rw [resolve_eq, hchoice]

/-- The type that is found one by one is the one that is chosen. -/
theorem better_eq_choose? (subject : Subject) (scope : Scope σ) (place : Place)
    (types : List (CandidateType σ)) :
    (types.foldl (fun best type => Call.better best (type, subject.fit scope place type)) none).map
        Prod.fst =
      (scope.choose? place types subject.isDocument subject.score).map Choice.type := by
  refine Option.ext fun type => ?_
  rw [(Call.isBest_foldl (subject.fit scope place) types).iff]
  rw [Option.map_eq_some_iff]
  exact Scope.exists_choose?_iff.symm

/-! ## The score of a value is made of the scores of its members -/

theorem proper_score (subject : Subject) (reading : Reading σ) :
    Score.Proper (subject.score reading) := by
  cases subject with
  | native value => exact value.proper_score Score.keepsProper_rounded reading
  | stored value => exact value.proper_score Score.keepsProper_rounded reading

/-- There is one way to read a value, unless it stands for the hash key of a model. -/
theorem fit_eq {type : CandidateType σ}
    (hreadings : scope.readings place subject.isDocument type = [⟨scope, place, type⟩]) :
    subject.fit scope place type = subject.score ⟨scope, place, type⟩ := by
  rw [fit, Scope.fit, hreadings, List.map_singleton,
    Score.best_singleton (subject.proper_score _).nonneg]

theorem bestFit_eq (subject : Subject) (scope : Scope σ) (place : Place)
    (types : List (CandidateType σ)) : subject.bestFit scope place types =
      Score.best ((types.flatMap (scope.readings place subject.isDocument)).map subject.score) := by
  rw [List.map_flatMap, Score.best_flatMap]
  rfl

theorem itemScores_native (scope : Scope σ) (place : Place) (elements : List (CandidateType σ))
    (index : Nat) (items : List Value) :
    Value.itemScores Score.rounded scope place elements index items =
      ((items.map native).zipIdx index).map fun item =>
        item.1.bestFit scope (place.item item.2) elements := by
  induction items generalizing index with
  | nil => rw [Value.itemScores]; rfl
  | cons item rest ih =>
      rw [Value.itemScores, ih, List.map_cons, List.zipIdx_cons, List.map_cons, bestFit_eq]
      rfl

theorem itemScores_stored (scope : Scope σ) (place : Place) (elements : List (CandidateType σ))
    (index : Nat) (items : List WireValue) :
    WireValue.itemScores Score.rounded scope place elements index items =
      ((items.map stored).zipIdx index).map fun item =>
        item.1.bestFit scope (place.item item.2) elements := by
  induction items generalizing index with
  | nil => rw [WireValue.itemScores]; rfl
  | cons item rest ih =>
      rw [WireValue.itemScores, ih, List.map_cons, List.zipIdx_cons, List.map_cons, bestFit_eq]
      rfl

theorem score_array {items : List Subject} (hitems : subject.items? = some items)
    (elements : List (CandidateType σ)) :
    subject.score ⟨scope, place, .array elements⟩ = Score.average Score.rounded
      (items.zipIdx.map fun item => item.1.bestFit scope (place.item item.2) elements) := by
  cases subject with
  | native value =>
      cases value with
      | list members =>
          obtain rfl := Option.some.inj hitems
          simp only [score, Value.score, itemScores_native]
      | _ => cases hitems
  | stored value =>
      cases value with
      | list members =>
          obtain rfl := Option.some.inj hitems
          simp only [score, WireValue.score, itemScores_stored]
      | _ => cases hitems

theorem memberScores_native (scope : Scope σ) (place : Place) (element : CandidateType σ)
    (members : List Value) : Value.memberScores Score.rounded scope place element members =
      (members.map native).map fun member => member.fit scope place element := by
  induction members with
  | nil => rw [Value.memberScores]; rfl
  | cons member rest ih => rw [Value.memberScores, ih]; rfl

theorem score_set {members : List Subject} (hmembers : subject.members? = some members)
    (element : CandidateType σ) :
    subject.score ⟨scope, place, .set element⟩ =
      Score.average Score.rounded (members.map fun member => member.fit scope place element) := by
  cases subject with
  | native value =>
      cases value with
      | list items | set items =>
          obtain rfl := Option.some.inj hmembers
          simp only [score, Value.score, memberScores_native]
      | _ => cases hmembers
  | stored value => cases hmembers

/-- The score of a field in a document. -/
def fieldScore (frame : Frame σ) (field : String × Subject) : Rat :=
  match field.2.attribute? frame.schema field.1 with
  | some declared => field.2.bestFit frame.scope (frame.place.child field.1) declared.types
  | none => frame.unknownScore field.1

theorem fieldScores_native (frame : Frame σ) (fields : List (String × Value)) :
    Value.fieldScores Score.rounded frame fields =
      ((fields.filter fun field => !field.2.isUndefined).map fun field =>
        (field.1, native field.2)).map (fieldScore frame) := by
  induction fields with
  | nil => rw [Value.fieldScores]; rfl
  | cons field rest ih =>
      rw [Value.fieldScores, ih]
      cases hundefined : field.2.isUndefined with
      | true => simp [hundefined]
      | false =>
          simp only [hundefined, Bool.false_eq_true, if_false, List.filter_cons, Bool.not_false,
            if_true, List.map_cons, fieldScore, bestFit_eq]
          rfl

theorem fieldScores_stored (frame : Frame σ) (fields : List (String × WireValue)) :
    WireValue.fieldScores Score.rounded frame fields =
      (fields.map fun field => (field.1, stored field.2)).map (fieldScore frame) := by
  induction fields with
  | nil => rw [WireValue.fieldScores]; rfl
  | cons field rest ih =>
      rw [WireValue.fieldScores, ih]
      simp only [List.map_cons, fieldScore, bestFit_eq]
      rfl

theorem documentScore_eq (subject : Subject) (frame : Frame σ) : subject.documentScore frame =
    subject.fields?.elim 0 fun fields =>
      Score.average Score.rounded (fields.map (fieldScore frame)) := by
  cases subject with
  | native value =>
      cases value with
      | map fields => simp only [documentScore, fieldScores_native, fields?, Option.elim_some]
      | _ => rfl
  | stored value =>
      cases value with
      | map fields => simp only [documentScore, fieldScores_stored, fields?, Option.elim_some]
      | _ => rfl

theorem score_document {type : CandidateType σ} {frame : Frame σ}
    (hdocument : subject.isDocument = true) (henter : scope.enter? place type = some frame) :
    subject.score ⟨scope, place, type⟩ = subject.documentScore frame := by
  cases subject with
  | native value =>
      cases value with
      | map fields => simp only [score, Value.score, Reading.enter?, henter, documentScore]
      | _ => cases hdocument
  | stored value =>
      cases value with
      | map fields => simp only [score, WireValue.score, Reading.enter?, henter, documentScore]
      | _ => cases hdocument

/-- Where members do not matter, a value fits or does not. -/
theorem score_eq_scalarScore {type : CandidateType σ}
    (hitems : ∀ elements, type = .array elements → subject.items? = none)
    (hmembers : ∀ element, type = .set element → subject.members? = none)
    (henter : subject.isDocument = true → scope.enter? place type = none) :
    subject.score ⟨scope, place, type⟩ = subject.scalarScore type := by
  cases subject with
  | native value =>
      cases value with
      | map fields => simp only [score, Value.score, Reading.enter?, henter rfl, scalarScore]
      | list items =>
          simp only [score, Value.score, scalarScore]
          split
          · exact absurd (hitems _ rfl) (by simp [items?])
          · exact absurd (hmembers _ rfl) (by simp [members?])
          · rfl
      | set members =>
          simp only [score, Value.score, scalarScore]
          split
          · exact absurd (hmembers _ rfl) (by simp [members?])
          · rfl
      | _ => simp only [score, Value.score, scalarScore]
  | stored value =>
      cases value with
      | map fields => simp only [score, WireValue.score, Reading.enter?, henter rfl, scalarScore]
      | list items =>
          simp only [score, WireValue.score, scalarScore]
          split
          · exact absurd (hitems _ rfl) (by simp [items?])
          · rfl
      | _ => simp only [score, WireValue.score, scalarScore]

end Subject

/-! ## Hash keys -/

namespace Registry.KeysEnd

variable {registry : Registry σ} {scope : Scope σ} {place : Place} {name : String}
  {types : List (CandidateType σ)} {isDocument : Bool} {score : Reading σ → Rat} {choice : Choice σ}

theorem readings_model (hend : registry.KeysEnd) (hregistry : scope.registry = registry)
    (place : Place) (name : String) : scope.readings place false (.model name) =
      (registry.keyTypes? name).elim [] fun key =>
        key.types.flatMap (key.scope.readings place.restart false) := by
  subst hregistry
  exact hend.keyReadings_eq place name

/-- A value fits a hash key as well as it fits one of its types. -/
theorem fit_model (hend : registry.KeysEnd) (hregistry : scope.registry = registry)
    {subject : Subject} (hdocument : subject.isDocument = false) :
    subject.fit scope place (.model name) =
      (registry.keyTypes? name).elim 0 fun key =>
        subject.bestFit key.scope place.restart key.types := by
  rw [Subject.fit, Scope.fit, hdocument, hend.readings_model hregistry]
  cases registry.keyTypes? name with
  | none => rfl
  | some key => rw [Option.elim_some, Option.elim_some, Subject.bestFit_eq, hdocument]

/-- What is chosen for a value is read as the type says, or it is what is chosen for the hash key of
the model that the type refers to. -/
theorem choice_cases (hend : registry.KeysEnd) (hregistry : scope.registry = registry)
    (hchoice : scope.choose? place types isDocument score = some choice) :
    choice.reading = ⟨scope, place, choice.type⟩ ∧
        (∀ name, choice.type = .model name → isDocument = true) ∨
      isDocument = false ∧ ∃ name key inner, choice.type = .model name ∧
        registry.keyTypes? name = some key ∧
        key.scope.choose? place.restart key.types false score = some inner ∧
        inner.reading = choice.reading := by
  obtain ⟨hpos, hfirst⟩ := Scope.firstHighest_choice hchoice
  by_cases hmodel : isDocument = false ∧ ∃ name, choice.type = .model name
  · obtain ⟨rfl, name, htype⟩ := hmodel
    have hreading := Scope.firstHighest_reading hfirst
    rw [htype, hend.readings_model hregistry] at hreading
    cases hkey : registry.keyTypes? name with
    | none => simpa [hkey] using hreading.mem
    | some key =>
        rw [hkey, Option.elim_some, Scope.readings_eq_map] at hreading
        -- the same reading is the first best one among those of the key
        cases hinner : key.scope.choose? place.restart key.types false score with
        | none =>
            obtain ⟨other, hother, heq⟩ := List.mem_map.mp hreading.mem
            rw [Scope.choose?, Option.map_eq_none_iff, Score.firstBest_eq_none_iff,
              List.forall_mem_map] at hinner
            exact absurd (hinner other hother) (heq ▸ hpos.not_ge)
        | some inner =>
            obtain ⟨-, hother⟩ := Scope.firstHighest_choice hinner
            exact .inr ⟨rfl, name, key, inner, htype, hkey, hinner, hother.map.unique hreading⟩
  · have hplain : ∀ name, choice.type = .model name → isDocument = true :=
      fun name htype => by simpa using fun hdocument => hmodel ⟨hdocument, name, htype⟩
    have hreadings : scope.readings place isDocument choice.type = [⟨scope, place, choice.type⟩] := by
      cases isDocument with
      | true => exact Scope.readings_document scope place _
      | false => exact Scope.readings_of_ne_model (fun name htype => hmodel ⟨rfl, name, htype⟩) _ _
    have hmem := (Scope.mem_choices.mp hfirst.mem).2
    rw [hreadings, List.mem_singleton] at hmem
    exact .inl ⟨hmem, hplain⟩

end Registry.KeysEnd

/-! ## From the type that is chosen to the reading -/

theorem Subject.resolve_bind {α : Type} (subject : Subject) {scope : Scope σ} {place : Place}
    {types : List (CandidateType σ)} {f : Choice σ → Except MapperError α}
    {g : CandidateType σ → Except MapperError α}
    (hsame : ∀ choice, scope.choose? place types subject.isDocument subject.score = some choice →
      f choice = g choice.type) :
    (subject.resolve scope place types >>= f) =
      ((subject.resolve scope place types).map Choice.type >>= g) := by
  rw [resolve_eq]
  cases hchoice : scope.choose? place types subject.isDocument subject.score with
  | none => rfl
  | some choice => exact hsame choice hchoice

namespace Call

variable {registry : Registry σ} {scope : Scope σ} {place : Place} {types : List (CandidateType σ)}
  {reading : Reading σ}

theorem answer_encodeAs {value : Value}
    (hplain : ∀ name, reading.type = .model name → value.isDocument = true) :
    (encodeAs value reading).answer = value.encodeAs reading := by
  rw [answer]
  split
  · next htype hdocument => exact absurd (hplain _ htype) (by simp [hdocument])
  · rfl

theorem answer_decodeLeaf {stored : WireValue}
    (hplain : ∀ name, reading.type = .model name → stored.isDocument = true) :
    (decodeLeaf stored reading).answer = stored.decodeLeaf reading := by
  rw [answer]
  split
  · next htype hdocument => exact absurd (hplain _ htype) (by simp [hdocument])
  · rfl

/-- Encoding a value as the reading that is chosen is encoding it as the type that is chosen. -/
theorem encode_eq_bind (hend : registry.KeysEnd) (hregistry : scope.registry = registry)
    {value : Value} (hdefined : value.isUndefined = false) :
    scope.encode place types value = (resolve (.native value) scope place types).answer >>=
      fun type => (encodeAs value ⟨scope, place, type⟩).answer := by
  rw [Scope.encode, hdefined, if_neg Bool.false_ne_true]
  refine Subject.resolve_bind (.native value) fun choice hchoice => ?_
  rcases hend.choice_cases hregistry hchoice with
    ⟨hreading, hplain⟩ | ⟨hdocument, name, key, inner, htype, hkey, hinner, hsame⟩
  · rw [answer_encodeAs hplain, hreading]
  · have hresolve : key.scope.resolve place.restart key.types value = .ok inner :=
      (Subject.native value).resolve_of_choose? (hdocument ▸ hinner)
    change value.isDocument = false at hdocument
    simp only [htype, answer, hdocument, keyForm, hregistry, hkey]
    rw [Scope.encode, hdefined, if_neg Bool.false_ne_true, hresolve, ← hsame]
    rfl

/-- Decoding a value as the reading that is chosen is decoding it as the type that is chosen. -/
theorem decode_eq_bind (hend : registry.KeysEnd) (hregistry : scope.registry = registry)
    (stored : WireValue) :
    (scope.resolveStored place types stored >>= fun choice => stored.decodeLeaf choice.reading) =
      (resolve (.stored stored) scope place types).answer >>= fun type =>
        (decodeLeaf stored ⟨scope, place, type⟩).answer := by
  refine Subject.resolve_bind (.stored stored) fun choice hchoice => ?_
  rcases hend.choice_cases hregistry hchoice with
    ⟨hreading, hplain⟩ | ⟨hdocument, name, key, inner, htype, hkey, hinner, hsame⟩
  · rw [answer_decodeLeaf hplain, hreading]
  · have hresolve : key.scope.resolveStored place.restart key.types stored = .ok inner :=
      (Subject.stored stored).resolve_of_choose? (hdocument ▸ hinner)
    change stored.isDocument = false at hdocument
    simp only [htype, answer, hdocument, keyValue, hregistry, hkey]
    rw [hresolve, ← hsame]
    rfl

end Call

end ItemMapper
