import ItemMapper.Proofs.Reading.Documents

/-!
# Which items are hidden

An expired item is hidden if the options ask for it and the model does not return expired items.
The time of expiry is looked up in the document under the stored name of its attribute, but the
document has the attribute under its native name.  So `Mapper.read_hides_iff` says that an item is
hidden exactly if its time of expiry has passed and the attribute has no alias; with an alias it is
always returned.

The stored time is read as the date type of the attribute says (`WireValue.time?`).  Where types
are not checked, a value that is no date of this type counts as it is by itself: a number is then
taken for milliseconds whatever the type says.
-/

namespace ItemMapper

variable {σ : Type}

open Pipeline

/-! ## Stored times -/

namespace WireValue

variable {stored : WireValue} {scope : Scope σ} {place : Place} {storage : DateStorage}

/-- The time that a stored value of a date attribute tells. -/
def time? (options : MarshalOptions) (storage : DateStorage) (stored : WireValue) :
    Option Instant :=
  (stored.date? storage).or (if options.typeCheck then none else stored.natural.date?)

theorem score_date (round : Rat → Rat) (stored : WireValue) :
    stored.score round ⟨scope, place, .date storage⟩ =
      Score.ofBool (stored.date? storage).isSome := by
  cases stored <;> rfl

/-- A value takes a date type exactly if it is a date. -/
theorem resolveStored_date_iff {choice : Choice σ} :
    scope.resolveStored place [.date storage] stored = .ok choice ↔
      choice = ⟨.date storage, scope, place, .date storage⟩ ∧
        (stored.date? storage).isSome = true := by
  have happart : scope.ToldApart [.date storage] := Scope.toldApart_singleton (by simp)
  have hchoices : scope.choices place [.date storage] stored.isDocument =
      [⟨.date storage, scope, place, .date storage⟩] := by
    cases hdocument : stored.isDocument <;> rfl
  rw [happart.resolveStored_iff, hchoices, List.mem_singleton]
  refine and_congr_right fun hchoice => ?_
  rw [hchoice, score_date, Score.ofBool_pos]

/-- What is read of a value as a date. -/
theorem date?_of_yields_readChosen {options : MarshalOptions} {value : Value} {before after : σ}
    {inside : CandidateType σ → Option (Pipeline σ Value)}
    (hrun : Yields (stored.readChosen options scope place [.date storage] inside) before value after)
    (hinside : inside (.date storage) = none) : value.date? = stored.time? options storage := by
  rw [readChosen] at hrun
  cases hchoice : scope.resolveStored place [.date storage] stored with
  | error cause =>
      have hdate : stored.date? storage = none := by
        rw [Option.eq_none_iff_forall_ne_some]
        intro t hdate
        have hok : scope.resolveStored place [.date storage] stored = .ok _ :=
          resolveStored_date_iff.mpr ⟨rfl, Option.isSome_iff_exists.mpr ⟨t, hdate⟩⟩
        rw [hchoice] at hok
        cases hok
      simp only [hchoice] at hrun
      split at hrun
      case isTrue => exact absurd hrun (by simp)
      case isFalse hcheck =>
        obtain ⟨rfl, -⟩ := yields_pure.mp hrun
        simp [time?, hdate, hcheck]
  | ok choice =>
      obtain ⟨rfl, hdate⟩ := resolveStored_date_iff.mp hchoice
      obtain ⟨t, hdate⟩ := Option.isSome_iff_exists.mp hdate
      simp only [hchoice, hinside, yields_ofExcept, decodeLeaf, hdate, Except.ok.injEq] at hrun
      obtain ⟨rfl, -⟩ := hrun
      simp [time?, hdate, Value.date?]

theorem date?_of_yields_reader {options : MarshalOptions} {value : Value} {before after : σ}
    (hrun : Yields (stored.reader options scope place [.date storage]) before value after) :
    value.date? = stored.time? options storage := by
  cases stored <;> simp only [reader] at hrun <;> exact date?_of_yields_readChosen hrun rfl

end WireValue

/-! ## The time of expiry in the document -/

/-- The model has the attribute with the time of expiry, and it is a date. -/
theorem Model.exists_expiryField {name : String} {schema : Schema σ} {expiry : Expiry}
    {model : Model σ} (hbuild : Model.build name schema (some expiry) = .ok model)
    (hdate : ∀ field ∈ schema.attributes, field.name = expiry.name →
      ∃ storage, field.types = [.date storage]) :
    model.expiry = some expiry ∧ ∃ field ∈ model.schema.attributes, field.name = expiry.name ∧
      ∃ storage, field.types = [.date storage] := by
  unfold Model.build at hbuild
  split at hbuild
  case h_1 hnone => cases hnone
  case h_2 settings hsome =>
    obtain rfl := Option.some.inj hsome
    split at hbuild
    case isTrue hdeclared =>
      obtain rfl := Except.ok.inj hbuild
      obtain ⟨field, hfield⟩ := Option.isSome_iff_exists.mp hdeclared
      obtain ⟨hmem, hname⟩ := SchemaOf.mem_of_attribute? hfield
      exact ⟨rfl, field, hmem, hname, hdate field hmem hname⟩
    case isFalse =>
      split at hbuild
      case isTrue => cases hbuild
      case isFalse =>
        split at hbuild
        case h_2 => cases hbuild
        case h_1 extended hadd =>
          obtain rfl := Except.ok.inj hbuild
          refine ⟨rfl, expiry.declaration, ?_, rfl, .seconds, rfl⟩
          simp only [SchemaOf.addAttribute, SchemaOf.build, Except.bind_eq_ok,
            Except.pure_eq_ok] at hadd
          obtain ⟨_, ⟨_, -, _, -, _, -, rfl⟩, rfl⟩ := hadd
          exact List.mem_append_right _ (List.mem_singleton_self _)

namespace Frame

variable {frame : Frame σ} {options : MarshalOptions} {item : Item} {document : Document}
  {field : Attribute σ} {before after : σ}

/-- What a document has under the stored name of an attribute: the attribute if it has no alias,
and nothing otherwise. -/
theorem exists_readField_of_name (hschema : frame.schema.WellFormed)
    (hfield : field ∈ frame.schema.attributes)
    (hrun : Yields (frame.read options item) before document after) :
    ∃ value first last, Yields (frame.readField options item field) first value last ∧
      document.get? field.name = if field.nativeAlias = none then value else none := by
  rw [read_eq, yields_bind] at hrun
  obtain ⟨loaded, _, hloaded, hdocument⟩ := hrun
  obtain ⟨rfl, -⟩ := yields_pure.mp hdocument
  obtain ⟨_, _, _, value, first, last, -, -, hvalue, hmem⟩ := hloaded.exists_of_mem_mapM hfield
  refine ⟨value, first, last, hvalue, ?_⟩
  have hnative : ∀ other ∈ frame.schema.attributes, other.nativeName = field.name →
      other.nativeAlias = none ∧ other = field := by
    intro other hother hname
    cases halias : other.nativeAlias with
    | none =>
        rw [AttributeOf.nativeName, halias, Option.getD_none] at hname
        exact ⟨rfl, hschema.eq_of_name_eq hother hfield hname⟩
    | some nativeAlias =>
        rw [AttributeOf.nativeName, halias, Option.getD_some] at hname
        exact absurd (by rw [halias, hname]) (hschema.aliasFree other hother field hfield)
  have hshown : (Fields.ofList (frame.shown item)).get? field.name = none := by
    refine Option.eq_none_iff_forall_ne_some.mpr fun other hother => ?_
    have hundeclared := (mem_shown.mp (Fields.mem_of_get?_ofList hother)).1
    rw [hschema.attribute?_name hfield] at hundeclared
    cases hundeclared
  rw [Fields.get?_ofList_append, hshown, Option.none_or]
  split
  case isTrue halias =>
    have hname : field.nativeName = field.name := by simp [AttributeOf.nativeName, halias]
    have hentry := get?_entries hloaded.length_eq hschema.nodup_attributes hmem
      fun other hother hsame => (hnative other hother (hsame.trans hname)).2
    rwa [hname] at hentry
  case isFalse halias =>
    refine Option.eq_none_iff_forall_ne_some.mpr fun other hother => halias ?_
    obtain ⟨found, hfound, hname⟩ := mem_entries_iff.mp (Fields.mem_of_get?_ofList hother)
    obtain ⟨hnone, rfl⟩ := hnative found (List.of_mem_zip hfound).1 hname
    exact hnone

/-- The time that a document has under the stored name of a date attribute. -/
theorem time_of_read {storage : DateStorage} (hschema : frame.schema.WellFormed)
    (hfield : field ∈ frame.schema.attributes) (htypes : field.types = [.date storage])
    (hmodifiers : options.modifiers = false)
    (hrun : Yields (frame.read options item) before document after) (time : Instant) :
    (document.get? field.name).bind Value.date? = some time ↔
      field.nativeAlias = none ∧ ∃ stored, item.get? field.name = some stored ∧
        stored.time? options storage = some time := by
  obtain ⟨value, first, last, hvalue, hget⟩ := exists_readField_of_name hschema hfield hrun
  rw [hget]
  by_cases halias : field.nativeAlias = none
  · rw [if_pos halias]
    simp only [halias, true_and]
    cases hstored : item.get? field.name with
    | none =>
        simp only [readField, hstored, yields_pure] at hvalue
        simp [← hvalue.1]
    | some stored =>
        simp only [readField, hstored, yields_bind, hmodifiers, Bool.false_eq_true, if_false,
          yields_pure] at hvalue
        obtain ⟨back, _, hback, rfl, -⟩ := hvalue
        rw [htypes] at hback
        simp [WireValue.date?_of_yields_reader hback]
  · simp [halias]

end Frame

/-! ## Mappers -/

/-- A mapper returns what it has read, unless the model hides it. -/
theorem Mapper.yields_read_iff {mapper : Mapper σ} {options : MarshalOptions} {now : Instant}
    {item : Item} {document : Document} {result : Option Document} {before after : σ}
    (hrun : Yields (mapper.scope.frame.read options item) before document after) :
    Yields (mapper.read options now item) before result after ↔
      result = if options.checkExpiry && mapper.model.hides now document then none
        else some document := by
  rw [Mapper.read, yields_bind]
  constructor
  · rintro ⟨other, _, hother, hresult⟩
    obtain ⟨hsame, rfl⟩ := Prod.mk.inj (hrun.symm.trans hother)
    obtain rfl := Except.ok.inj hsame
    exact (yields_pure.mp hresult).1.symm
  · rintro rfl
    exact ⟨_, _, hrun, yields_pure_self⟩

/-- Let the items of a model expire by an attribute that is a date or is added by the model, and
let an item be read without modifiers.  It is hidden exactly if expired items are to be hidden, the
attribute has no alias, and the stored time is before the current time.  Otherwise the document is
returned. -/
theorem Mapper.read_hides_iff {mapper : Mapper σ} {name : String} {schema : Schema σ}
    {expiry : Expiry} {options : MarshalOptions} {now : Instant} {item : Item}
    {document : Document} {before after : σ} (hschema : schema.WellFormed)
    (hbuild : Model.build name schema (some expiry) = .ok mapper.model)
    (hdate : ∀ field ∈ schema.attributes, field.name = expiry.name →
      ∃ storage, field.types = [.date storage])
    (hmodifiers : options.modifiers = false)
    (hrun : Yields (mapper.scope.frame.read options item) before document after) :
    ∃ field storage, field ∈ mapper.model.schema.attributes ∧ field.name = expiry.name ∧
      field.types = [.date storage] ∧
      (Yields (mapper.read options now item) before none after ↔
        options.checkExpiry = true ∧ expiry.returnExpired = false ∧ field.nativeAlias = none ∧
          ∃ stored time, item.get? expiry.name = some stored ∧
            stored.time? options storage = some time ∧ time.before now = true) ∧
      (Yields (mapper.read options now item) before (some document) after ↔
        ¬ Yields (mapper.read options now item) before none after) := by
  obtain ⟨hexpiry, field, hfield, hname, storage, htypes⟩ := Model.exists_expiryField hbuild hdate
  refine ⟨field, storage, hfield, hname, htypes, ?_, ?_⟩
  · have htime := Frame.time_of_read (SchemaOf.wellFormed_of_modelBuild hschema hbuild) hfield
      htypes hmodifiers hrun
    rw [hname] at htime
    have hhides : mapper.model.hides now document = true ↔ expiry.returnExpired = false ∧
        ∃ time, (document.get? expiry.name).bind Value.date? = some time ∧
          time.before now = true := by
      simp [Model.hides, hexpiry, Option.any_eq_true]
    have hnone : ∀ hidden : Bool,
        (none = if hidden then none else some document) ↔ hidden = true := by
      simp
    rw [Mapper.yields_read_iff hrun, hnone, Bool.and_eq_true, hhides]
    simp only [htime]
    constructor
    · rintro ⟨hcheck, hreturn, time, ⟨halias, stored, hstored, htold⟩, hbefore⟩
      exact ⟨hcheck, hreturn, halias, stored, time, hstored, htold, hbefore⟩
    · rintro ⟨hcheck, hreturn, halias, stored, time, hstored, htold, hbefore⟩
      exact ⟨hcheck, hreturn, time, ⟨halias, stored, hstored, htold⟩, hbefore⟩
  · simp only [Mapper.yields_read_iff hrun]
    split <;> simp

/-! ## Sessions that expire -/

/-- The time of expiry of a session has another name for the application. -/
def SchemaOf.session : Schema Unit where
  attributes := [.plain "id" [.primitive .string],
    { AttributeOf.plain "ttl" [.date .seconds] with nativeAlias := some "expiresAt" }]
  keepUnknown := .disabled
  timestamps := none

theorem SchemaOf.build_session : build session.attributes .disabled none = .ok session :=
  rfl

/-- Sessions last a minute and are hidden afterwards. -/
def Model.session : Model Unit :=
  ⟨"Session", .session, some ⟨60, "ttl", false⟩⟩

theorem Model.build_session :
    build "Session" .session (some ⟨60, "ttl", false⟩) = .ok Model.session :=
  rfl

/-- The mapper of the only model, `Model.session`. -/
def Mapper.session : Mapper Unit :=
  ⟨⟨[.session]⟩, .session⟩

/-- A session that has expired after the first second. -/
def Item.session : Item :=
  [("id", .string "1"), ("ttl", .number "1")]

/-- Two seconds after the beginning of 1970. -/
def Instant.twoSeconds : Instant :=
  ⟨2, 0, by decide⟩

set_option maxRecDepth 4000 in
theorem Mapper.yields_read_session :
    Yields (session.scope.frame.read { MarshalOptions.plain with checkExpiry := true }
        Item.session) ()
      [("expiresAt", .date ⟨1, 0, by decide⟩), ("id", .string "1")] () :=
  yields_of_value? rfl

/-- The session has expired, but it is returned. -/
theorem Mapper.returns_expired_session :
    ((Item.session.get? "ttl").bind (WireValue.date? .seconds)).any
        (·.before Instant.twoSeconds) = true ∧
      Yields (session.read { MarshalOptions.plain with checkExpiry := true } .twoSeconds
          Item.session) ()
        (some [("expiresAt", .date ⟨1, 0, by decide⟩), ("id", .string "1")]) () :=
  ⟨by decide +kernel, (yields_read_iff yields_read_session).mpr rfl⟩

theorem Mapper.read_hides_iff_session :
    ∃ field storage, field ∈ session.model.schema.attributes ∧ field.name = "ttl" ∧
      field.types = [.date storage] ∧
      (Yields (session.read { MarshalOptions.plain with checkExpiry := true } .twoSeconds
          Item.session) () none () ↔
        true = true ∧ false = false ∧ field.nativeAlias = none ∧
          ∃ stored time, Item.session.get? "ttl" = some stored ∧
            stored.time? { MarshalOptions.plain with checkExpiry := true } storage = some time ∧
            time.before .twoSeconds = true) ∧
      (Yields (session.read { MarshalOptions.plain with checkExpiry := true } .twoSeconds
          Item.session) ()
          (some [("expiresAt", .date ⟨1, 0, by decide⟩), ("id", .string "1")]) () ↔
        ¬ Yields (session.read { MarshalOptions.plain with checkExpiry := true } .twoSeconds
          Item.session) () none ()) := by
  refine read_hides_iff (SchemaOf.wellFormed_of_build SchemaOf.build_session)
    Model.build_session ?_ rfl yields_read_session
  intro field hfield hname
  simp only [SchemaOf.session, List.mem_cons, List.not_mem_nil, or_false] at hfield
  rcases hfield with rfl | rfl
  · simp [AttributeOf.plain] at hname
  · exact ⟨.seconds, rfl⟩

end ItemMapper
