import ItemMapper.Proofs.RoundTrip.Documents

/-!
# Conversion alone

With the plain options no stage of writing does anything but the conversion of values, and no
function of the application is called.  So a run that succeeds once succeeds with the same result
whatever stands for replacements, at whatever time, at any depth and in any state of the
application, which it leaves as it is: writing is `Steady`.  `Value.ConvertsTo` is therefore all
there is to say of a value, and `Frame.ConvertsTo` of a document.

`Frame.ConvertsTo` says what is written, not how.  `Frame.convertsTo_iff` describes it attribute by
attribute: the item holds under each stored name what the field of that name is stored as
(`Frame.StoresAs`), in whatever order the fields are worked through.
-/

namespace ItemMapper

variable {σ α β : Type}

open Pipeline

/-! ## Steady steps -/

/-- What writing with the plain options is given and makes no use of. -/
structure Setting (σ : Type) where
  make : Value → Draft σ
  now : Instant
  depth : Nat

def Setting.writing (setting : Setting σ) : Writing :=
  ⟨.plain, setting.now, setting.depth⟩

/-- A run in one setting is a run in every setting, and leaves the state alone. -/
def Steady (step : Setting σ → Pipeline σ α) : Prop :=
  ∀ setting before value after, Yields (step setting) before value after →
    before = after ∧ ∀ other state, Yields (step other) state value state

namespace Steady

theorem pure (value : α) : Steady (σ := σ) fun _ => Pure.pure value := by
  intro setting before given after hrun
  obtain ⟨rfl, rfl⟩ := yields_pure.mp hrun
  exact ⟨rfl, fun _ _ => yields_pure_self⟩

theorem ofExcept (result : Except MapperError α) : Steady (σ := σ) fun _ => .ofExcept result := by
  intro setting before value after hrun
  obtain ⟨rfl, rfl⟩ := yields_ofExcept.mp hrun
  exact ⟨rfl, fun _ _ => yields_ofExcept.mpr ⟨rfl, rfl⟩⟩

theorem throw (cause : MapperError) : Steady (σ := σ) (α := α) fun _ => MonadExcept.throw cause :=
  fun _ _ _ _ hrun => (yields_throw.mp hrun).elim

theorem bind {first : Setting σ → Pipeline σ α} {next : Setting σ → α → Pipeline σ β}
    (hfirst : Steady first) (hnext : ∀ middle, Steady fun setting => next setting middle) :
    Steady fun setting => first setting >>= next setting := by
  intro setting before value after hrun
  obtain ⟨middle, between, hmiddle, hrest⟩ := yields_bind.mp hrun
  obtain ⟨rfl, hmiddles⟩ := hfirst _ _ _ _ hmiddle
  obtain ⟨rfl, hrests⟩ := hnext _ _ _ _ _ hrest
  exact ⟨rfl, fun other state => (hmiddles other state).bind (hrests other state)⟩

theorem mapM {step : Setting σ → α → Pipeline σ β} {items : List α}
    (hstep : ∀ item ∈ items, Steady fun setting => step setting item) :
    Steady fun setting => items.mapM (step setting) := by
  induction items with
  | nil =>
      simp only [List.mapM_nil]
      exact .pure []
  | cons item rest ih =>
      simp only [List.mapM_cons]
      apply (hstep item (by simp)).bind
      intro value
      apply (ih fun other hother => hstep other (by simp [hother])).bind
      exact fun values => .pure (value :: values)

end Steady

theorem Value.eq_undefined {value : Value} (hundefined : value.isUndefined = true) :
    value = .undefined := by
  cases value <;> simp_all [isUndefined]

/-! ## Fields made name by name -/

/-- Fields that are made for different names hold under each of them what was made for it. -/
theorem Fields.view_ofList (holds : String → Option α → Prop) {names : List String}
    {entries : List (Option (String × α))} (hdistinct : names.Nodup)
    (hentries : List.Forall₂ (fun name entry =>
      ∃ value, entry = value.map (fun value => (name, value)) ∧ holds name value) names entries) :
    (∀ name ∈ names, holds name ((Fields.ofList (entries.filterMap id)).get? name)) ∧
      ∀ name ∉ names, (Fields.ofList (entries.filterMap id)).get? name = none := by
  have hmade : ∀ {name value}, (name, value) ∈ entries.filterMap id →
      name ∈ names ∧ holds name (some value) := by
    intro name value hmem
    obtain ⟨entry, hentry, hsome⟩ := List.mem_filterMap.mp hmem
    obtain ⟨other, hother, made, rfl, hholds⟩ := exists_related_right hentries hentry
    obtain ⟨_, rfl, heq⟩ := Option.map_eq_some_iff.mp hsome
    obtain ⟨rfl, rfl⟩ := Prod.mk.inj heq
    exact ⟨hother, hholds⟩
  have hkeys : ((entries.filterMap id).map Prod.fst).Sublist names := by
    clear hdistinct hmade
    induction hentries with
    | nil => exact .slnil
    | cons hentry _ ih =>
        obtain ⟨value, rfl, -⟩ := hentry
        cases value with
        | none => exact ih.cons _
        | some value => exact ih.cons_cons _
  have hview : ∀ {name value}, (Fields.ofList (entries.filterMap id)).get? name = some value ↔
      (name, value) ∈ entries.filterMap id :=
    Fields.get?_ofList_eq_some_iff (hdistinct.sublist hkeys)
  constructor
  · intro name hname
    cases hget : (Fields.ofList (entries.filterMap id)).get? name with
    | some value => exact (hmade (hview.mp hget)).2
    | none =>
        obtain ⟨_, hentry, made, rfl, hholds⟩ := exists_related_left hentries hname
        cases made with
        | none => exact hholds
        | some value =>
            rw [hview.mpr (List.mem_filterMap.mpr ⟨_, hentry, rfl⟩)] at hget
            cases hget
  · intro name hname
    rw [Option.eq_none_iff_forall_ne_some]
    exact fun value hget => hname (hmade (hview.mp hget)).1

/-! ## Documents under stored names -/

namespace SchemaOf

/-- The stored name that a name on the native side stands for. -/
def storedName (schema : Schema σ) (name : String) : String :=
  ((schema.nativeAttribute? name).map AttributeOf.name).getD name

/-- The fields of a document under stored names. -/
def normalized (schema : Schema σ) (fields : List (String × Value)) : Document :=
  Fields.ofList (fields.map fun field => (schema.storedName field.1, field.2))

end SchemaOf

/-- The undeclared fields of a document. -/
def Frame.undeclared (frame : Frame σ) (document : Document) : Document :=
  document.filter fun (key, _) => (frame.schema.attribute? key).isNone

/-- What is kept of them. -/
def Frame.kept (frame : Frame σ) (document : Document) : List (String × WireValue) :=
  (frame.undeclared document).filterMap fun (key, value) =>
    (value.keep? frame.scope (frame.place.child key)).map fun stored => (key, stored)

namespace Drafts

/-- The drafts of a document that is under stored names. -/
def ofDocument (setting : Setting σ) (document : Document) : Fields (Draft σ) :=
  document.mapValues fun value => ⟨value, value.writer setting.make setting.writing⟩

/-- Fields are drafted under their stored names. -/
theorem normalize_drafts (make : Value → Draft σ) (writing : Writing) (schema : Schema σ)
    (fields : List (String × Value)) : normalize schema (Value.drafts make writing fields) =
      (schema.normalized fields).mapValues fun value => ⟨value, value.writer make writing⟩ := by
  rw [SchemaOf.normalized, ← Fields.ofList_mapValues, normalize, Value.drafts_eq_map]
  simp [Fields.mapValues, SchemaOf.storedName, Function.comp_def]

theorem encodeUnknown_ofDocument (setting : Setting σ) (frame : Frame σ) (document : Document) :
    encodeUnknown frame (ofDocument setting document) = frame.kept document := by
  simp [encodeUnknown, ofDocument, Frame.kept, Frame.undeclared, Fields.mapValues, List.filter_map,
    List.filterMap_map, Function.comp_def]

theorem fill_plain (setting : Setting σ) (place : Place) (drafts : Fields (Draft σ))
    (field : Attribute σ) :
    fill setting.make setting.writing place drafts field = pure drafts := by
  have hwants : wantsDefault setting.writing.options field (drafts.get? field.name) = false := by
    cases drafts.get? field.name <;> simp [wantsDefault, Setting.writing, MarshalOptions.plain]
  have hmodifiers : setting.writing.options.modifiers = false := rfl
  simp [fill, hwants, hmodifiers]

theorem foldlM_fill_plain (setting : Setting σ) (place : Place) (attributes : List (Attribute σ)) :
    ∀ drafts : Fields (Draft σ),
      attributes.foldlM (fill setting.make setting.writing place) drafts = pure drafts := by
  induction attributes with
  | nil => exact fun _ => rfl
  | cons field rest ih => exact fun drafts => by simp [fill_plain, ih]

/-- What is left of writing an attribute is to write its value. -/
theorem encodeAttribute_plain (setting : Setting σ) (frame : Frame σ) (document : Document)
    (field : Attribute σ) :
    encodeAttribute setting.writing frame (ofDocument setting document) field =
      match document.get? field.name with
      | none => pure none
      | some value => do
        let stored ← value.writer setting.make setting.writing frame.scope
          (frame.place.child field.name) field.types
        return stored.map fun stored => (field.name, stored) := by
  have hrequired : ∀ given : Option (Draft σ),
      isMissing setting.writing.options.required given = false := fun _ => rfl
  have hcheck : ∀ value path,
      checkValue setting.writing.options field value path = (pure () : Pipeline σ Unit) :=
    fun _ _ => rfl
  have hdraft := Fields.get?_mapValues
    (fun value => (⟨value, value.writer setting.make setting.writing⟩ : Draft σ)) document
    field.name
  rw [← ofDocument] at hdraft
  cases hvalue : document.get? field.name with
  | none =>
      rw [hvalue] at hdraft
      simp [encodeAttribute, hrequired, defined?, hdraft]
  | some value =>
      rw [hvalue, Option.map_some] at hdraft
      cases hdefined : value.isUndefined with
      | false =>
          simp [encodeAttribute, hrequired, hcheck, defined?, hdraft, Option.filter_some, hdefined]
      | true =>
          -- the undefined value is left out, and would be written as nothing
          obtain rfl := Value.eq_undefined hdefined
          simp [encodeAttribute, hrequired, defined?, hdraft, Option.filter_some, hdefined,
            Value.writer]

theorem write_plain (setting : Setting σ) (frame : Frame σ) (fields : List (String × Value)) :
    write setting.make setting.writing frame
        (Value.drafts setting.make setting.writing fields) = do
      let document := frame.schema.normalized fields
      let declared ← frame.schema.attributes.mapM
        (encodeAttribute setting.writing frame (ofDocument setting document))
      return Fields.ofList (declared.filterMap id ++ frame.kept document) := by
  have hstamp := stamp_plain setting.make setting.now setting.depth frame.schema
    (ofDocument setting (frame.schema.normalized fields))
  have hcombine : setting.writing.options.combine = false := rfl
  rw [write, normalize_drafts, ← ofDocument]
  rw [show (⟨.plain, setting.now, setting.depth⟩ : Writing) = setting.writing from rfl] at hstamp
  simp [hstamp, foldlM_fill_plain, hcombine, encodeUnknown_ofDocument]

end Drafts

/-! ## Writing is steady -/

/-- Writing goes on inside the value in a steady way, or not at all. -/
theorem Value.steady_writeChosen (value : Value) (scope : Scope σ) (place : Place)
    (types : List (CandidateType σ))
    {inside : Setting σ → CandidateType σ → Option (Pipeline σ WireValue)}
    (hinside : ∀ type, (∀ setting, inside setting type = none) ∨
      ∃ nested, Steady nested ∧ ∀ setting, inside setting type = some (nested setting)) :
    Steady fun setting =>
      value.writeChosen setting.writing scope place types (inside setting) := by
  have hcheck : ∀ setting : Setting σ, setting.writing.options.typeCheck = true := fun _ => rfl
  simp only [Value.writeChosen, hcheck, if_true]
  cases scope.resolve place types value with
  | error cause => exact .throw cause
  | ok choice =>
      rcases hinside choice.type with hnone | ⟨nested, hnested, hsome⟩
      · simp only [hnone]
        exact .ofExcept _
      · simp only [hsome]
        exact hnested.bind fun stored => .pure (some stored)

/-- A document is written in a steady way if its values are. -/
theorem Drafts.steady_write (frame : Frame σ) (fields : List (String × Value))
    (hfields : ∀ field ∈ fields, ∀ (scope : Scope σ) (place : Place)
      (types : List (CandidateType σ)), Steady fun setting =>
        field.2.writer setting.make setting.writing scope place types) :
    Steady fun setting => Drafts.write setting.make setting.writing frame
      (Value.drafts setting.make setting.writing fields) := by
  have hvalues : ∀ name value, (frame.schema.normalized fields).get? name = some value →
      ∃ field ∈ fields, field.2 = value := by
    intro name value hvalue
    rw [SchemaOf.normalized, Fields.get?_ofList] at hvalue
    have hmem := List.mem_reverse.mp (Fields.mem_of_get? hvalue)
    obtain ⟨field, hfield, heq⟩ := List.mem_map.mp hmem
    exact ⟨field, hfield, (Prod.mk.inj heq).2⟩
  simp only [write_plain]
  refine .bind (.mapM fun field _ => ?_) fun declared => .pure _
  simp only [encodeAttribute_plain]
  cases hvalue : (frame.schema.normalized fields).get? field.name with
  | none => exact .pure none
  | some value =>
      obtain ⟨given, hgiven, rfl⟩ := hvalues _ _ hvalue
      exact (hfields given hgiven _ _ _).bind fun stored => .pure _

mutual

theorem Value.steady_writer : ∀ (value : Value) (scope : Scope σ) (place : Place)
    (types : List (CandidateType σ)),
    Steady fun setting => value.writer setting.make setting.writing scope place types
  | .undefined, _, _, _ => by
      simp only [Value.writer]
      exact .pure none
  | .list items, scope, place, types => by
      simp only [Value.writer]
      apply Value.steady_writeChosen
      intro type
      cases type with
      | array elements =>
          exact .inr ⟨_, (Value.steady_writeItems items scope place elements 0).bind
            fun storeds => .pure (.list storeds), fun _ => rfl⟩
      | _ => exact .inl fun _ => rfl
  | .map fields, scope, place, types => by
      simp only [Value.writer]
      apply Value.steady_writeChosen
      intro type
      cases scope.enter? place type with
      | none => exact .inl fun _ => rfl
      | some frame =>
          exact .inr ⟨_, (Drafts.steady_write frame fields (Value.steady_fields fields)).bind
            fun item => .pure (.map item), fun _ => rfl⟩
  | .null, _, _, _ | .bool _, _, _, _ | .number _, _, _, _ | .string _, _, _, _
  | .binary _, _, _, _ | .date _, _, _, _ | .set _, _, _, _ => by
      simp only [Value.writer]
      exact Value.steady_writeChosen _ _ _ _ fun _ => .inl fun _ => rfl

theorem Value.steady_writeItems : ∀ (items : List Value) (scope : Scope σ) (place : Place)
    (elements : List (CandidateType σ)) (index : Nat),
    Steady fun setting =>
      Value.writeItems setting.make setting.writing scope place elements index items
  | [], _, _, _, _ => by
      simp only [Value.writeItems]
      exact .pure []
  | item :: rest, scope, place, elements, index => by
      simp only [Value.writeItems]
      apply (Value.steady_writer item scope (place.item index) elements).bind
      intro stored
      apply (Value.steady_writeItems rest scope place elements (index + 1)).bind
      exact fun others => .pure (stored.toList ++ others)

theorem Value.steady_fields : ∀ (fields : List (String × Value)), ∀ field ∈ fields,
    ∀ (scope : Scope σ) (place : Place) (types : List (CandidateType σ)),
      Steady fun setting => field.2.writer setting.make setting.writing scope place types
  | [], _, hfield => by simp at hfield
  | (key, value) :: rest, field, hfield => by
      rcases List.mem_cons.mp hfield with rfl | hfield
      · exact Value.steady_writer value
      · exact Value.steady_fields rest field hfield

end

/-! ## What values are stored as -/

instance : Inhabited (Setting σ) :=
  ⟨fun value => value.shallowDraft ⟨.plain, .epoch, 0⟩, .epoch, 0⟩

/-- A value is stored in this way at a place, as one of some types. -/
def Value.ConvertsTo (value : Value) (scope : Scope σ) (place : Place)
    (types : List (CandidateType σ)) (stored : Option WireValue) : Prop :=
  ∀ (setting : Setting σ) before,
    Yields (value.writer setting.make setting.writing scope place types) before stored before

namespace Value

variable {value : Value} {scope : Scope σ} {place : Place} {types : List (CandidateType σ)}
  {stored other : Option WireValue}

theorem convertsTo_of_yields (setting : Setting σ) {before after : σ}
    (hrun : Yields (value.writer setting.make setting.writing scope place types)
      before stored after) :
    before = after ∧ value.ConvertsTo scope place types stored :=
  value.steady_writer scope place types _ _ _ _ hrun

theorem ConvertsTo.unique (before : σ) (hstored : value.ConvertsTo scope place types stored)
    (hother : value.ConvertsTo scope place types other) : stored = other := by
  have hrun := (hstored default before).symm.trans (hother default before)
  simpa using hrun

end Value

/-! ## What documents are stored as -/

/-- The fields of a document are stored as this item. -/
def Frame.ConvertsTo (frame : Frame σ) (fields : List (String × Value)) (item : Item) : Prop :=
  ∀ (setting : Setting σ) before,
    Yields (Drafts.write setting.make setting.writing frame
      (Value.drafts setting.make setting.writing fields)) before item before

/-- The field of a document under a stored name is stored in this way: a declared one as one of
its types, and of an undeclared one what is kept. -/
def Frame.StoresAs (frame : Frame σ) (document : Document) (name : String)
    (stored : Option WireValue) : Prop :=
  match document.get? name, frame.schema.attribute? name with
  | none, _ => stored = none
  | some value, some field =>
    value.ConvertsTo frame.scope (frame.place.child name) field.types stored
  | some value, none => value.keep? frame.scope (frame.place.child name) = stored

namespace Frame

variable {frame : Frame σ} {fields : List (String × Value)} {document : Document} {item : Item}
  {name : String} {stored other : Option WireValue} {field : Attribute σ}

theorem convertsTo_of_yields (setting : Setting σ) {before after : σ}
    (hrun : Yields (Drafts.write setting.make setting.writing frame
      (Value.drafts setting.make setting.writing fields)) before item after) :
    before = after ∧ frame.ConvertsTo fields item :=
  Drafts.steady_write frame fields (Value.steady_fields fields) _ _ _ _ hrun

theorem storesAs_absent (hgiven : document.get? name = none) :
    frame.StoresAs document name stored ↔ stored = none := by
  rw [StoresAs, hgiven]

theorem storesAs_declared {value : Value} (hgiven : document.get? name = some value)
    (hattribute : frame.schema.attribute? name = some field) :
    frame.StoresAs document name stored ↔
      value.ConvertsTo frame.scope (frame.place.child name) field.types stored := by
  rw [StoresAs, hgiven, hattribute]

theorem storesAs_undeclared {value : Value} (hgiven : document.get? name = some value)
    (hattribute : frame.schema.attribute? name = none) :
    frame.StoresAs document name stored ↔
      value.keep? frame.scope (frame.place.child name) = stored := by
  rw [StoresAs, hgiven, hattribute]

theorem storesAs_congr {others : Document} (hsame : document.get? name = others.get? name) :
    frame.StoresAs document name stored ↔ frame.StoresAs others name stored := by
  rw [StoresAs, StoresAs, hsame]

theorem StoresAs.unique (before : σ) (hstored : frame.StoresAs document name stored)
    (hother : frame.StoresAs document name other) : stored = other := by
  cases hgiven : document.get? name with
  | none => rw [(storesAs_absent hgiven).mp hstored, (storesAs_absent hgiven).mp hother]
  | some value =>
      cases hattribute : frame.schema.attribute? name with
      | none =>
          rw [← (storesAs_undeclared hgiven hattribute).mp hstored,
            ← (storesAs_undeclared hgiven hattribute).mp hother]
      | some field =>
          exact ((storesAs_declared hgiven hattribute).mp hstored).unique before
            ((storesAs_declared hgiven hattribute).mp hother)

/-! ### Attribute by attribute -/

theorem storesAs_of_yields (hattribute : frame.schema.attribute? field.name = some field)
    {setting : Setting σ} {before after : σ} {entry : Option (String × WireValue)}
    (hrun : Yields (Drafts.encodeAttribute setting.writing frame
      (Drafts.ofDocument setting document) field) before entry after) :
    ∃ stored, entry = stored.map (fun stored => (field.name, stored)) ∧
      frame.StoresAs document field.name stored := by
  rw [Drafts.encodeAttribute_plain] at hrun
  cases hgiven : document.get? field.name with
  | none =>
      rw [hgiven] at hrun
      obtain ⟨rfl, -⟩ := yields_pure.mp hrun
      exact ⟨none, rfl, (storesAs_absent hgiven).mpr rfl⟩
  | some value =>
      rw [hgiven] at hrun
      obtain ⟨stored, between, hwrite, hrest⟩ := yields_bind.mp hrun
      obtain ⟨rfl, -⟩ := yields_pure.mp hrest
      exact ⟨stored, rfl,
        (storesAs_declared hgiven hattribute).mpr (Value.convertsTo_of_yields setting hwrite).2⟩

theorem StoresAs.yields (hattribute : frame.schema.attribute? field.name = some field)
    (hstored : frame.StoresAs document field.name stored) (setting : Setting σ) (before : σ) :
    Yields (Drafts.encodeAttribute setting.writing frame (Drafts.ofDocument setting document)
      field) before (stored.map fun stored => (field.name, stored)) before := by
  rw [Drafts.encodeAttribute_plain]
  cases hgiven : document.get? field.name with
  | none =>
      obtain rfl := (storesAs_absent hgiven).mp hstored
      exact yields_pure_self
  | some value =>
      have hconverts := (storesAs_declared hgiven hattribute).mp hstored
      exact (hconverts setting before).bind yields_pure_self

/-! ### The whole document -/

theorem of_mem_undeclared (hsorted : Fields.Sorted document) {given : String × Value}
    (hgiven : given ∈ frame.undeclared document) :
    document.get? given.1 = some given.2 ∧ frame.schema.attribute? given.1 = none := by
  obtain ⟨hmem, hnone⟩ := List.mem_filter.mp hgiven
  exact ⟨(Fields.get?_eq_some_iff (Fields.nodup_of_sorted hsorted)).mpr hmem,
    Option.isNone_iff_eq_none.mp hnone⟩

/-- No attribute has the name of an undeclared field. -/
theorem nodup_storedNames (hschema : frame.schema.WellFormed) (hsorted : Fields.Sorted document) :
    (frame.schema.attributes.map AttributeOf.name ++
      (frame.undeclared document).map Prod.fst).Nodup := by
  refine List.nodup_append.mpr ⟨hschema.distinct, ?_, ?_⟩
  · exact (Fields.nodup_of_sorted hsorted).sublist (List.filter_sublist.map _)
  · rintro name hname _ hother rfl
    obtain ⟨field, hfield, rfl⟩ := List.mem_map.mp hname
    obtain ⟨given, hgiven, hsame⟩ := List.mem_map.mp hother
    have hnone := (of_mem_undeclared hsorted hgiven).2
    rw [hsame, hschema.attribute?_name hfield] at hnone
    cases hnone

theorem storesAs_ofList (hschema : frame.schema.WellFormed) (hsorted : Fields.Sorted document)
    {declared : List (Option (String × WireValue))}
    (hdeclared : List.Forall₂ (fun field entry =>
      ∃ stored, entry = stored.map (fun stored => (field.name, stored)) ∧
        frame.StoresAs document field.name stored) frame.schema.attributes declared)
    (name : String) : frame.StoresAs document name
      ((Fields.ofList (declared.filterMap id ++ frame.kept document)).get? name) := by
  have hkept : List.Forall₂ (fun name entry =>
      ∃ stored, entry = stored.map (fun stored => (name, stored)) ∧
        frame.StoresAs document name stored) ((frame.undeclared document).map Prod.fst)
      ((frame.undeclared document).map fun (key, value) =>
        (value.keep? frame.scope (frame.place.child key)).map fun stored => (key, stored)) := by
    rw [List.forall₂_map_left_iff, List.forall₂_map_right_iff, List.forall₂_same]
    intro given hgiven
    obtain ⟨hvalue, hnone⟩ := of_mem_undeclared hsorted hgiven
    exact ⟨_, rfl, (storesAs_undeclared hvalue hnone).mpr rfl⟩
  -- declared and undeclared fields are entries under names that are all different
  obtain ⟨hnamed, hother⟩ := Fields.view_ofList (frame.StoresAs document)
    (nodup_storedNames hschema hsorted)
    (List.rel_append (List.forall₂_map_left_iff.mpr hdeclared) hkept)
  rw [List.filterMap_append, List.filterMap_map] at hnamed hother
  by_cases hname : name ∈ frame.schema.attributes.map AttributeOf.name ++
      (frame.undeclared document).map Prod.fst
  · exact hnamed name hname
  · -- a field under another name would be an undeclared one
    have habsent : document.get? name = none := by
      rw [Option.eq_none_iff_forall_ne_some]
      intro value hvalue
      refine hname (List.mem_append_right _ (List.mem_map.mpr ⟨(name, value), ?_, rfl⟩))
      refine List.mem_filter.mpr ⟨Fields.mem_of_get? hvalue, ?_⟩
      rw [Option.isNone_iff_eq_none, SchemaOf.attribute?, List.find?_eq_none]
      intro field hfield hsame
      exact hname (List.mem_append_left _ (List.mem_map.mpr ⟨field, hfield, by simpa using hsame⟩))
    exact (storesAs_absent habsent).mpr (hother name hname)

/-- A document is stored field by field: the item is the one that holds under each stored name what
the field of that name is stored as. -/
theorem convertsTo_iff (hschema : frame.schema.WellFormed) (before : σ) :
    frame.ConvertsTo fields item ↔ Fields.Sorted item ∧
      ∀ name, frame.StoresAs (frame.schema.normalized fields) name (item.get? name) := by
  have hsorted : Fields.Sorted (frame.schema.normalized fields) := Fields.sorted_ofList _
  have hattribute : ∀ field ∈ frame.schema.attributes,
      frame.schema.attribute? field.name = some field :=
    fun _ hfield => hschema.attribute?_name hfield
  constructor
  · intro hconverts
    have hrun := hconverts default before
    rw [Drafts.write_plain] at hrun
    obtain ⟨declared, between, hdeclared, hitem⟩ := yields_bind.mp hrun
    obtain ⟨rfl, -⟩ := yields_pure.mp hitem
    refine ⟨Fields.sorted_ofList _, storesAs_ofList hschema hsorted ?_⟩
    have hentries := (List.forall₂_and_left _ _).mpr ⟨hattribute,
      Yields.forall₂_mapM (fun field entry _ _ hentry hfield =>
        storesAs_of_yields hfield hentry) hdeclared⟩
    exact hentries.imp fun _ _ ⟨hfield, hentry⟩ => hentry hfield
  · rintro ⟨hitem, hstores⟩ setting before
    have hdeclared := yields_mapM_of_forall fun field hfield =>
      (hstores field.name).yields (hattribute field hfield) setting before
    rw [Drafts.write_plain]
    apply hdeclared.bind
    refine yields_pure.mpr ⟨Fields.ext (Fields.sorted_ofList _) hitem fun name => ?_, rfl⟩
    refine (storesAs_ofList hschema hsorted ?_ name).unique before (hstores name)
    rw [List.forall₂_map_right_iff, List.forall₂_same]
    exact fun field _ => ⟨item.get? field.name, rfl, hstores field.name⟩

end Frame

end ItemMapper
