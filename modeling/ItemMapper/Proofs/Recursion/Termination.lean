import ItemMapper.Proofs.Recursion.Answers

/-!
# Every call is answered

Where references between hash keys do not come back, every call is evaluated to what it should be
answered with (`Call.isAnswered`), whatever the schemas look like otherwise.

Two things get smaller along the calls.  Members of a value are smaller than the value.  Where the
same value is looked at again, as the hash key of a model that is referred to, the model comes later
in the order of references.  `KeysEnd.induction` puts both together, the size of the value first.
Then each body is gone through once, with what is known of the calls it makes.
-/

namespace ItemMapper

open Recursive

variable {σ : Type}

/-! ## Smaller values -/

theorem Value.sizeOf_lt_list {items : List Value} {item : Value} (hitem : item ∈ items) :
    sizeOf item < sizeOf (list items) := by
  have hless := List.sizeOf_lt_of_mem hitem
  rw [list.sizeOf_spec]
  omega

theorem Value.sizeOf_lt_set {members : List Value} {member : Value} (hmember : member ∈ members) :
    sizeOf member < sizeOf (set members) := by
  have hless := List.sizeOf_lt_of_mem hmember
  rw [set.sizeOf_spec]
  omega

theorem Value.sizeOf_lt_map {fields : List (String × Value)} {field : String × Value}
    (hfield : field ∈ fields) : sizeOf field.2 < sizeOf (map fields) := by
  obtain ⟨key, value⟩ := field
  have hless := List.sizeOf_lt_of_mem hfield
  rw [Prod.mk.sizeOf_spec] at hless
  change sizeOf value < _
  rw [map.sizeOf_spec]
  omega

theorem WireValue.sizeOf_lt_list {items : List WireValue} {item : WireValue}
    (hitem : item ∈ items) : sizeOf item < sizeOf (list items) := by
  have hless := List.sizeOf_lt_of_mem hitem
  rw [list.sizeOf_spec]
  omega

theorem WireValue.sizeOf_lt_map {fields : List (String × WireValue)} {field : String × WireValue}
    (hfield : field ∈ fields) : sizeOf field.2 < sizeOf (map fields) := by
  obtain ⟨key, value⟩ := field
  have hless := List.sizeOf_lt_of_mem hfield
  rw [Prod.mk.sizeOf_spec] at hless
  change sizeOf value < _
  rw [map.sizeOf_spec]
  omega

namespace Subject

noncomputable def size : Subject → Nat
  | native value => sizeOf value
  | stored value => sizeOf value

variable {subject : Subject}

theorem size_lt_of_items? {items : List Subject} (hitems : subject.items? = some items)
    {item : Subject} (hitem : item ∈ items) : item.size < subject.size := by
  cases subject with
  | native value =>
      cases value with
      | list values =>
          obtain rfl := Option.some.inj hitems
          obtain ⟨value, hvalue, rfl⟩ := List.mem_map.mp hitem
          exact Value.sizeOf_lt_list hvalue
      | _ => cases hitems
  | stored value =>
      cases value with
      | list values =>
          obtain rfl := Option.some.inj hitems
          obtain ⟨value, hvalue, rfl⟩ := List.mem_map.mp hitem
          exact WireValue.sizeOf_lt_list hvalue
      | _ => cases hitems

theorem size_lt_of_members? {members : List Subject} (hmembers : subject.members? = some members)
    {member : Subject} (hmember : member ∈ members) : member.size < subject.size := by
  cases subject with
  | native value =>
      cases value with
      | list values =>
          obtain rfl := Option.some.inj hmembers
          obtain ⟨value, hvalue, rfl⟩ := List.mem_map.mp hmember
          exact Value.sizeOf_lt_list hvalue
      | set values =>
          obtain rfl := Option.some.inj hmembers
          obtain ⟨value, hvalue, rfl⟩ := List.mem_map.mp hmember
          exact Value.sizeOf_lt_set hvalue
      | _ => cases hmembers
  | stored value => cases hmembers

theorem size_lt_of_fields? {fields : List (String × Subject)}
    (hfields : subject.fields? = some fields) {field : String × Subject} (hfield : field ∈ fields) :
    field.2.size < subject.size := by
  cases subject with
  | native value =>
      cases value with
      | map entries =>
          obtain rfl := Option.some.inj hfields
          obtain ⟨entry, hentry, rfl⟩ := List.mem_map.mp hfield
          exact Value.sizeOf_lt_map (List.mem_of_mem_filter hentry)
      | _ => cases hfields
  | stored value =>
      cases value with
      | map entries =>
          obtain rfl := Option.some.inj hfields
          obtain ⟨entry, hentry, rfl⟩ := List.mem_map.mp hfield
          exact WireValue.sizeOf_lt_map hentry
      | _ => cases hfields

end Subject

/-- What holds of a value and a reading if it holds of all smaller values, and of the same value as
the types of the hash key that the reading refers to, holds of all. -/
theorem Registry.KeysEnd.induction {registry : Registry σ} (hend : registry.KeysEnd)
    (holds : Subject → Reading σ → Prop)
    (hstep : ∀ subject reading, reading.scope.registry = registry →
      (∀ smaller other, smaller.size < subject.size → other.scope.registry = registry →
        holds smaller other) →
      (∀ name key, reading.type = .model name → registry.keyTypes? name = some key →
        ∀ type ∈ key.types, holds subject ⟨key.scope, reading.place.restart, type⟩) →
      holds subject reading)
    (subject : Subject) (reading : Reading σ) (hregistry : reading.scope.registry = registry) :
    holds subject reading := by
  induction hsize : subject.size using Nat.strongRecOn generalizing subject reading with
  | ind size ih =>
      subst hsize
      have hsmaller : ∀ smaller other, smaller.size < subject.size →
          other.scope.registry = registry → holds smaller other :=
        fun smaller other hless hother => ih _ hless smaller other hother rfl
      have hmodel : ∀ name, ∀ reading : Reading σ, reading.scope.registry = registry →
          reading.type = .model name → holds subject reading := by
        intro name
        induction name using hend.wellFounded.induction with | _ name ihname
        intro reading hregistry hname
        refine hstep subject reading hregistry hsmaller fun other key hother hkey type htype => ?_
        obtain rfl : name = other := by simpa [hname] using hother
        have hinner := Registry.registry_of_keyTypes? hkey
        cases type with
        | model next => exact ihname next (keyRefers_iff.mpr ⟨key, hkey, htype⟩) _ hinner rfl
        | _ => exact hstep subject _ hinner hsmaller fun _ _ hmodel => nomatch hmodel
      by_cases hname : ∃ name, reading.type = .model name
      · obtain ⟨name, hname⟩ := hname
        exact hmodel name reading hregistry hname
      · exact hstep subject reading hregistry hsmaller fun name _ hother =>
          absurd ⟨name, hother⟩ hname

namespace Call

/-- A call is evaluated to what it should be answered with. -/
def IsAnswered {α : Type} (call : Call σ α) : Prop :=
  Evaluates body (body α call) call.answer

variable {registry : Registry σ} {scope : Scope σ} {place : Place} {types : List (CandidateType σ)}
  {subject : Subject}

/-! ## Scoring -/

theorem isAnswered_bestScore
    (hall : ∀ type ∈ types, (score subject ⟨scope, place, type⟩).IsAnswered) :
    (bestScore subject scope place types).IsAnswered :=
  (Evaluates.mapM fun type htype => (hall type htype).ask).bind (.done _)

theorem isAnswered_fieldScore {frame : Frame σ} {field : String × Subject}
    (hall : ∀ place type, (score field.2 ⟨frame.scope, place, type⟩).IsAnswered) :
    Evaluates body (fieldScoreBody frame field) (Subject.fieldScore frame field) := by
  unfold fieldScoreBody Subject.fieldScore
  cases field.2.attribute? frame.schema field.1 with
  | some declared => exact (isAnswered_bestScore fun type _ => hall _ type).ask
  | none => exact .done _

theorem isAnswered_documentScore {frame : Frame σ}
    (hall : ∀ fields, subject.fields? = some fields → ∀ field ∈ fields, ∀ place type,
      (score field.2 ⟨frame.scope, place, type⟩).IsAnswered) :
    (documentScore subject frame).IsAnswered := by
  change Evaluates body (documentScoreBody subject frame) (subject.documentScore frame)
  rw [documentScoreBody, Subject.documentScore_eq]
  cases hfields : subject.fields? with
  | none => exact .done 0
  | some fields =>
      have hscores := Evaluates.mapM fun field hfield =>
        isAnswered_fieldScore (hall fields hfields field hfield)
      exact hscores.bind (.done _)

theorem registry_of_enter? {type : CandidateType σ} {frame : Frame σ}
    (henter : scope.enter? place type = some frame) :
    frame.scope.registry = scope.registry := by
  cases type with
  | object schema => exact Option.some.inj henter ▸ rfl
  | self => exact Option.some.inj henter ▸ rfl
  | model name =>
      obtain ⟨model, -, rfl⟩ := Option.map_eq_some_iff.mp henter
      rfl
  | _ => cases henter

/-- The types whose values are documents. -/
inductive IsNested : CandidateType σ → Prop
  | object (schema : Schema σ) : IsNested (.object schema)
  | self : IsNested .self
  | model (name : String) : IsNested (.model name)

theorem scalarScore_of_isNested {type : CandidateType σ} (hnested : IsNested type) :
    subject.scalarScore type = 0 := by
  cases hnested with
  | object _ | self | model _ =>
      cases subject with
      | native value => cases value <;> rfl
      | stored value => cases value <;> rfl

theorem scalarScore_array (elements : List (CandidateType σ)) :
    subject.scalarScore (.array elements) = 0 := by
  cases subject with
  | native value => cases value <;> rfl
  | stored value => cases value <;> rfl

theorem evaluates_enteredBody {type : CandidateType σ} (hnested : IsNested type)
    (hall : ∀ frame, scope.enter? place type = some frame →
      (documentScore subject frame).IsAnswered) :
    Evaluates body (enteredBody subject ⟨scope, place, type⟩)
      (subject.score ⟨scope, place, type⟩) := by
  have hzero : (subject.isDocument = true → scope.enter? place type = none) →
      subject.score ⟨scope, place, type⟩ = 0 := by
    intro hnone
    rw [Subject.score_eq_scalarScore _ _ hnone, scalarScore_of_isNested hnested]
    all_goals
      rintro _ rfl
      cases hnested
  unfold enteredBody Reading.enter?
  cases henter : scope.enter? place type with
  | none =>
      rw [hzero fun _ => henter]
      exact .done 0
  | some frame =>
      dsimp only
      split
      · next hdocument =>
          rw [Subject.score_document hdocument henter]
          exact (hall frame henter).ask
      · next hdocument =>
          rw [hzero fun hother => absurd hother hdocument]
          exact .done 0

theorem evaluates_array {elements : List (CandidateType σ)}
    (hall : ∀ items, subject.items? = some items → ∀ item ∈ items, ∀ place type,
      (score item ⟨scope, place, type⟩).IsAnswered) :
    Evaluates body (scoreBody subject ⟨scope, place, .array elements⟩)
      (subject.score ⟨scope, place, .array elements⟩) := by
  unfold scoreBody
  cases hitems : subject.items? with
  | none =>
      have hscore : subject.score ⟨scope, place, .array elements⟩ = _ :=
        Subject.score_eq_scalarScore (fun _ _ => hitems) nofun fun _ => rfl
      rw [hscore, scalarScore_array]
      exact .done 0
  | some items =>
      rw [Subject.score_array hitems]
      refine Evaluates.bind (Evaluates.mapM fun item hitem => ?_) (.done _)
      have hmem := List.fst_mem_of_mem_zipIdx hitem
      exact (isAnswered_bestScore fun type _ => hall items hitems item.1 hmem _ type).ask

theorem evaluates_set {element : CandidateType σ}
    (hall : ∀ members, subject.members? = some members → ∀ member ∈ members,
      (score member ⟨scope, place, element⟩).IsAnswered) :
    Evaluates body (scoreBody subject ⟨scope, place, .set element⟩)
      (subject.score ⟨scope, place, .set element⟩) := by
  unfold scoreBody
  cases hmembers : subject.members? with
  | none =>
      have hscore : subject.score ⟨scope, place, .set element⟩ = _ :=
        Subject.score_eq_scalarScore nofun (fun _ _ => hmembers) fun _ => rfl
      rw [hscore]
      exact .done _
  | some members =>
      rw [Subject.score_set hmembers]
      have hscores := Evaluates.mapM fun member hmember =>
        (hall members hmembers member hmember).ask
      exact hscores.bind (.done _)

theorem isAnswered_score (hend : registry.KeysEnd) (subject : Subject) (reading : Reading σ)
    (hregistry : reading.scope.registry = registry) : (score subject reading).IsAnswered := by
  refine hend.induction (fun subject reading => (score subject reading).IsAnswered) ?_ subject
    reading hregistry
  rintro subject ⟨scope, place, type⟩ hregistry hsmaller hkey
  change scope.registry = registry at hregistry
  change Evaluates body (scoreBody subject ⟨scope, place, type⟩) (subject.fit scope place type)
  -- documents are scored by their fields, in whatever scope their type leads to
  have hentered : ∀ frame, scope.enter? place type = some frame →
      (documentScore subject frame).IsAnswered := by
    intro frame henter
    have hframe := (registry_of_enter? henter).trans hregistry
    exact isAnswered_documentScore fun fields hfields field hfield place type =>
      hsmaller _ _ (Subject.size_lt_of_fields? hfields hfield) hframe
  have hplain : (∀ name, type ≠ .model name) →
      subject.fit scope place type = subject.score ⟨scope, place, type⟩ :=
    fun htype => Subject.fit_eq (Scope.readings_of_ne_model htype place _)
  cases type with
  | primitive _ | date _ | combine _ _ | constant _ =>
      rw [hplain nofun, Subject.score_eq_scalarScore _ _ fun _ => rfl]
      · exact .done _
      all_goals exact nofun
  | array elements =>
      rw [hplain nofun]
      exact evaluates_array fun items hitems item hitem place type =>
        hsmaller _ _ (Subject.size_lt_of_items? hitems hitem) hregistry
  | set element =>
      rw [hplain nofun]
      exact evaluates_set fun members hmembers member hmember =>
        hsmaller _ _ (Subject.size_lt_of_members? hmembers hmember) hregistry
  | object schema =>
      rw [hplain nofun]
      exact evaluates_enteredBody (.object schema) hentered
  | self =>
      rw [hplain nofun]
      exact evaluates_enteredBody .self hentered
  | model name =>
      unfold scoreBody
      cases hdocument : subject.isDocument with
      | true =>
          rw [Subject.fit_eq (hdocument ▸ Scope.readings_document scope place _)]
          exact evaluates_enteredBody (.model name) hentered
      | false =>
          rw [hend.fit_model hregistry hdocument]
          dsimp only
          cases hname : scope.registry.keyTypes? name with
          | none => 
            rw [hregistry] at hname
            rw [hname]
            exact .done 0
          | some key =>
              rw [← hregistry, hname]
              exact (isAnswered_bestScore (hkey name key rfl (hregistry ▸ hname))).ask

/-! ## Resolving -/

theorem answer_resolve (subject : Subject) (scope : Scope σ) (place : Place)
    (types : List (CandidateType σ)) : (resolve subject scope place types).answer =
      match types.foldl (fun best type => better best (type, subject.fit scope place type)) none with
      | some found => .ok found.1
      | none => .error (.mismatch place types subject.typeName) := by
  have hbest := subject.better_eq_choose? scope place types
  rw [answer, Subject.resolve_eq]
  revert hbest
  cases scope.choose? place types subject.isDocument subject.score with
  | none =>
      intro hnone
      rw [Option.map_none, Option.map_eq_none_iff] at hnone
      rw [hnone]
      rfl
  | some choice =>
      intro hsome
      obtain ⟨found, hfound, htype⟩ := Option.map_eq_some_iff.mp hsome
      rw [hfound]
      exact congrArg Except.ok htype.symm

theorem isAnswered_resolve (hend : registry.KeysEnd) (hregistry : scope.registry = registry) :
    (resolve subject scope place types).IsAnswered := by
  rw [IsAnswered, answer_resolve]
  refine Evaluates.bind (Evaluates.foldlM fun best type _ => ?_) (.done _)
  exact (isAnswered_score hend subject ⟨scope, place, type⟩ hregistry).ask.bind (.done _)

theorem mem_of_answer_resolve {type : CandidateType σ}
    (htype : (resolve subject scope place types).answer = .ok type) : type ∈ types := by
  rw [answer, Subject.resolve_eq] at htype
  cases hchoice : scope.choose? place types subject.isDocument subject.score with
  | none => simp [hchoice, Except.map] at htype
  | some choice =>
      simp only [hchoice, Except.map, Except.ok.injEq] at htype
      exact htype ▸ (Scope.mem_choices.mp (Scope.of_choose? hchoice).1).1

/-! ## Encoding -/

theorem isAnswered_encode (hend : registry.KeysEnd) (hregistry : scope.registry = registry)
    {value : Value} (hall : ∀ type ∈ types, (encodeAs value ⟨scope, place, type⟩).IsAnswered) :
    (encode value scope place types).IsAnswered := by
  change Evaluates body (encodeBody value scope place types) (scope.encode place types value)
  unfold encodeBody
  split
  · next hundefined =>
      rw [Scope.encode, if_pos hundefined]
      exact .done _
  · next hdefined =>
      rw [encode_eq_bind hend hregistry (by simpa using hdefined)]
      refine Evaluates.bindExcept (isAnswered_resolve hend hregistry).ask fun type htype => ?_
      exact (hall type (mem_of_answer_resolve htype)).ask

theorem isAnswered_encodeKey (hend : registry.KeysEnd) {value : Value} {reading : Reading σ}
    (hregistry : reading.scope.registry = registry)
    (hall : ∀ name key, reading.type = .model name → registry.keyTypes? name = some key →
      ∀ type ∈ key.types, (encodeAs value ⟨key.scope, reading.place.restart, type⟩).IsAnswered) :
    (encodeKey value reading).IsAnswered := by
  change Evaluates body (encodeKeyBody value reading) (keyForm value reading)
  unfold encodeKeyBody keyForm
  cases htype : reading.type with
  | model name =>
      dsimp only
      cases hkey : reading.scope.registry.keyTypes? name with
      | none => exact .done _
      | some key =>
          rw [hregistry] at hkey
          exact (isAnswered_encode hend (Registry.registry_of_keyTypes? hkey)
            (hall name key htype hkey)).ask
  | _ => exact .done _

theorem evaluates_encodeFieldBody {frame : Frame σ} {field : String × Value}
    (hall : ∀ place types, (encode field.2 frame.scope place types).IsAnswered) :
    Evaluates body (encodeFieldBody frame field).run (frame.encodeField field.1 field.2) := by
  unfold encodeFieldBody Frame.encodeField
  cases frame.schema.nativeAttribute? field.1 with
  | some declared => exact (hall _ _).ask.bindExcept fun stored _ => .done _
  | none => exact .done _

theorem isAnswered_encodeDocument {frame : Frame σ} {fields : List (String × Value)}
    (hall : ∀ field ∈ fields, ∀ place types, (encode field.2 frame.scope place types).IsAnswered) :
    (encodeDocument fields frame).IsAnswered := by
  have hfields : Evaluates body (fields.mapM (encodeFieldBody frame)).run
      (fields.mapM fun field => frame.encodeField field.1 field.2) :=
    Evaluates.mapMExcept fun field hfield => evaluates_encodeFieldBody (hall field hfield)
  have hanswer : (encodeDocument fields frame).answer =
      (fields.mapM fun field => frame.encodeField field.1 field.2) >>= fun entries =>
        .ok (.map (Fields.ofList (entries.filterMap id))) := by
    rw [answer, Value.encodeFields_eq_mapM]
    cases fields.mapM fun field => frame.encodeField field.1 field.2 <;> rfl
  rw [IsAnswered, hanswer]
  exact hfields.bindExcept fun entries _ => .done _

theorem isAnswered_encodeArray {elements : List (CandidateType σ)} {items : List Value}
    (hall : ∀ item ∈ items, ∀ place, (encode item scope place elements).IsAnswered) :
    (encodeAs (.list items) ⟨scope, place, .array elements⟩).IsAnswered := by
  have hitems : Evaluates body
      (items.zipIdx.mapM fun item =>
        askFor (.encode item.1 scope (place.item item.2) elements)).run
      (items.zipIdx.mapM fun item => scope.encode (place.item item.2) elements item.1) :=
    Evaluates.mapMExcept fun item hitem =>
      (hall item.1 (List.fst_mem_of_mem_zipIdx hitem) (place.item item.2)).ask
  have hanswer : (encodeAs (.list items) ⟨scope, place, .array elements⟩).answer =
      (items.zipIdx.mapM fun item => scope.encode (place.item item.2) elements item.1) >>=
        fun entries => .ok (some (.list (entries.filterMap id))) := by
    change (Value.list items).encodeAs ⟨scope, place, .array elements⟩ = _
    simp only [Value.encodeAs, Value.encodeItems_eq_mapM]
    cases items.zipIdx.mapM fun item => scope.encode (place.item item.2) elements item.1 <;> rfl
  rw [IsAnswered, hanswer]
  exact hitems.bindExcept fun entries _ => .done _

/-- A value that is no document stands for a hash key, where its type is one of documents. -/
theorem isAnswered_encodeAs_of_key {type : CandidateType σ} (hnested : IsNested type)
    {value : Value} (hdocument : value.isDocument = false)
    (hkey : (encodeKey value ⟨scope, place, type⟩).IsAnswered) :
    (encodeAs value ⟨scope, place, type⟩).IsAnswered := by
  have hbody : encodeAsBody value ⟨scope, place, type⟩ =
      askFor (encodeKey value ⟨scope, place, type⟩) := by
    cases hnested <;> cases value <;> first | rfl | cases hdocument
  have hanswer : (encodeAs value ⟨scope, place, type⟩).answer =
      keyForm value ⟨scope, place, type⟩ := by
    cases hnested <;> cases value <;> first | rfl | cases hdocument
  rw [IsAnswered, hanswer, body, hbody]
  exact hkey.ask

theorem isAnswered_encodeAs_of_map {type : CandidateType σ} (hnested : IsNested type)
    {fields : List (String × Value)}
    (hall : ∀ frame, scope.enter? place type = some frame →
      (encodeDocument fields frame).IsAnswered) :
    (encodeAs (.map fields) ⟨scope, place, type⟩).IsAnswered := by
  have hanswer : (encodeAs (.map fields) ⟨scope, place, type⟩).answer =
      (Value.map fields).encodeAs ⟨scope, place, type⟩ :=
    answer_encodeAs fun _ _ => rfl
  cases henter : scope.enter? place type with
  | some frame =>
      have hbody : encodeAsBody (.map fields) ⟨scope, place, type⟩ =
          askFor (.encodeDocument fields frame) >>= fun stored => return some stored := by
        cases hnested <;> simp only [encodeAsBody, Reading.enter?, henter]
      have hform : (Value.map fields).encodeAs ⟨scope, place, type⟩ =
          (encodeDocument fields frame).answer >>= fun stored => .ok (some stored) := by
        simp only [Value.encodeAs, Reading.enter?, henter, answer]
        cases Value.encodeFields frame fields <;> rfl
      rw [IsAnswered, hanswer, hform, body, hbody]
      exact (hall frame henter).ask.bindExcept fun stored _ => .done _
  | none =>
      have hbody : encodeAsBody (.map fields) ⟨scope, place, type⟩ =
          throw (Reading.mismatch ⟨scope, place, type⟩ (Value.map fields).typeName) := by
        cases hnested <;> simp only [encodeAsBody, Reading.enter?, henter]
      have hform : (Value.map fields).encodeAs ⟨scope, place, type⟩ =
          .error (Reading.mismatch ⟨scope, place, type⟩ (Value.map fields).typeName) := by
        simp only [Value.encodeAs, Reading.enter?, henter]
        cases hnested <;> rfl
      rw [IsAnswered, hanswer, hform, body, hbody]
      exact .done _

theorem isAnswered_encodeAs (hend : registry.KeysEnd) (value : Value) (reading : Reading σ)
    (hregistry : reading.scope.registry = registry) : (encodeAs value reading).IsAnswered := by
  refine hend.induction (fun subject reading => ∀ value, subject = .native value →
    (encodeAs value reading).IsAnswered) ?_ (.native value) reading hregistry value rfl
  rintro _ ⟨scope, place, type⟩ hregistry hsmaller hkey value rfl
  change scope.registry = registry at hregistry
  have hinner : ∀ member : Value, sizeOf member < sizeOf value → ∀ scope : Scope σ,
      scope.registry = registry → ∀ place types, (encode member scope place types).IsAnswered :=
    fun member hless scope hscope place types =>
      isAnswered_encode hend hscope fun type _ => hsmaller (.native member) _ hless hscope member rfl
  have hname : (encodeKey value ⟨scope, place, type⟩).IsAnswered :=
    isAnswered_encodeKey hend hregistry fun name key hmodel hfind type htype =>
      hkey name key hmodel hfind type htype value rfl
  have hnestedCase : IsNested type → (encodeAs value ⟨scope, place, type⟩).IsAnswered := by
    intro hnested
    cases hdocument : value.isDocument with
    | false => exact isAnswered_encodeAs_of_key hnested hdocument hname
    | true =>
        cases value with
        | map fields =>
            refine isAnswered_encodeAs_of_map hnested fun frame henter => ?_
            have hframe := (registry_of_enter? henter).trans hregistry
            exact isAnswered_encodeDocument fun field hfield place types =>
              hinner field.2 (Value.sizeOf_lt_map hfield) frame.scope hframe place types
        | _ => cases hdocument
  cases type with
  | object schema => exact hnestedCase (.object schema)
  | self => exact hnestedCase .self
  | model name => exact hnestedCase (.model name)
  | array elements =>
      cases value with
      | list items =>
          exact isAnswered_encodeArray fun item hitem place =>
            hinner item (Value.sizeOf_lt_list hitem) scope hregistry place elements
      | _ => exact .done _
  | _ => cases value <;> exact .done _

/-! ## Decoding -/

theorem isAnswered_decodeLeaf (hend : registry.KeysEnd) (stored : WireValue) (reading : Reading σ)
    (hregistry : reading.scope.registry = registry) : (decodeLeaf stored reading).IsAnswered := by
  refine hend.induction (fun subject reading => ∀ stored, subject = .stored stored →
    (decodeLeaf stored reading).IsAnswered) ?_ (.stored stored) reading hregistry stored rfl
  rintro _ ⟨scope, place, type⟩ hregistry - hkey stored rfl
  change scope.registry = registry at hregistry
  by_cases hmodel : stored.isDocument = false ∧ ∃ name, type = .model name
  · obtain ⟨hdocument, name, rfl⟩ := hmodel
    have hanswer : (decodeLeaf stored ⟨scope, place, .model name⟩).answer =
        keyValue stored ⟨scope, place, .model name⟩ := by
      simp only [answer, hdocument]
    rw [IsAnswered, hanswer, keyValue, body, decodeLeafBody, hdocument]
    dsimp only
    cases hname : scope.registry.keyTypes? name with
    | none => exact .done _
    | some key =>
        have hfind : registry.keyTypes? name = some key := hregistry ▸ hname
        have hscope := Registry.registry_of_keyTypes? hfind
        dsimp only
        rw [decode_eq_bind hend hscope]
        refine Evaluates.bindExcept (isAnswered_resolve hend hscope).ask fun type htype => ?_
        exact (hkey name key rfl hfind type (mem_of_answer_resolve htype) stored rfl).ask
  · have hplain : ∀ name, type = .model name → stored.isDocument = true :=
      fun name htype => by simpa using fun hdocument => hmodel ⟨hdocument, name, htype⟩
    have hbody : decodeLeafBody stored ⟨scope, place, type⟩ =
        .mk (pure (stored.decodeLeaf ⟨scope, place, type⟩)) := by
      unfold decodeLeafBody
      split
      · next htype hdocument => exact absurd (hplain _ htype) (by simp [hdocument])
      · rfl
    rw [IsAnswered, answer_decodeLeaf hplain, body, hbody]
    exact .done _

/-! ## Every call -/

theorem isAnswered (hend : registry.KeysEnd) {α : Type} (call : Call σ α)
    (hregistry : call.registry = registry) : call.IsAnswered := by
  cases call with
  | score subject reading => exact isAnswered_score hend subject reading hregistry
  | bestScore subject scope place types =>
      exact isAnswered_bestScore fun type _ => isAnswered_score hend subject _ hregistry
  | documentScore subject frame =>
      exact isAnswered_documentScore fun _ _ field _ _ _ =>
        isAnswered_score hend field.2 _ hregistry
  | resolve subject scope place types => exact isAnswered_resolve hend hregistry
  | encode value scope place types =>
      exact isAnswered_encode hend hregistry fun type _ => isAnswered_encodeAs hend value _ hregistry
  | encodeAs value reading => exact isAnswered_encodeAs hend value reading hregistry
  | encodeDocument fields frame =>
      exact isAnswered_encodeDocument fun field _ place types =>
        isAnswered_encode hend hregistry fun type _ =>
          isAnswered_encodeAs hend field.2 _ hregistry
  | encodeKey value reading =>
      exact isAnswered_encodeKey hend hregistry fun name key _ hkey type _ =>
        isAnswered_encodeAs hend value _ (Registry.registry_of_keyTypes? hkey)
  | decodeLeaf stored reading => exact isAnswered_decodeLeaf hend stored reading hregistry

end Call

end ItemMapper
