import ItemMapper.Proofs.Marshal.Throughout

/-!
# Complete items

The check of required attributes looks at the values that the stages before have settled: no
required attribute of a document that is written is without a defined value
(`Drafts.of_encodeAttribute_required`).  The item has this attribute, too, unless the value stores
nothing.

`Frame.Complete` says this of an item, and of the documents inside of it.  It follows the way a value
is written: lists item by item, documents through the stages again, and all other values as a whole.
Only the last are not looked into, and the only documents that they hide stand in a list that is the
key of a referenced model.  What is shown here is that it holds of one document (`Frame.Holds`);
`Frame.throughout_of_yields` takes it to those inside.
-/

namespace ItemMapper

variable {σ : Type}

open Pipeline

mutual

/-- An item that holds the required attributes of a settled document.  All of them have defined
values, and only those that store nothing are missing. -/
inductive Frame.Complete (writing : Writing) : Frame σ → Document → Item → Prop where
  | intro {frame : Frame σ} {settled : Document} {item : Item}
      (hdefined : ∀ field ∈ frame.schema.attributes, field.required = true →
        ∃ value, settled.get? field.name = some value ∧ value.isUndefined = false)
      (hmissing : ∀ field ∈ frame.schema.attributes, ∀ value,
        settled.get? field.name = some value →
          (item.get? field.name = none ↔ value.StoresNothing writing.options.typeCheck frame.scope
            (frame.place.child field.name) field.types))
      (hinside : ∀ field ∈ frame.schema.attributes, ∀ value stored,
        settled.get? field.name = some value → item.get? field.name = some stored →
          Value.Complete writing frame.scope (frame.place.child field.name) field.types value
            stored) :
      Frame.Complete writing frame settled item

/-- A stored value in which all documents are complete. -/
inductive Value.Complete (writing : Writing) :
    Scope σ → Place → List (CandidateType σ) → Value → WireValue → Prop where
  /-- A document of an object type, or behind a reference. -/
  | document {scope : Scope σ} {place : Place} {types : List (CandidateType σ)} {choice : Choice σ}
      {frame : Frame σ} {fields : List (String × Value)} {settled : Document} {item : Item}
      (hchoice : scope.resolve place types (.map fields) = .ok choice)
      (henter : scope.enter? place choice.type = some frame)
      (hsettles : frame.Settles writing fields settled)
      (hdocument : Frame.Complete writing frame settled item) :
      Value.Complete writing scope place types (.map fields) (.map item)
  | list {scope : Scope σ} {place : Place} {types elements : List (CandidateType σ)}
      {choice : Choice σ} {items : List Value} {storeds : List WireValue}
      (hchoice : scope.resolve place types (.list items) = .ok choice)
      (harray : choice.type = .array elements)
      (hitems : Value.ItemsComplete writing scope place elements 0 items storeds) :
      Value.Complete writing scope place types (.list items) (.list storeds)
  /-- A value without documents of its own, or the key of a referenced model, which is stored
  without any check of attributes. -/
  | whole {scope : Scope σ} {place : Place} {types : List (CandidateType σ)} {choice : Choice σ}
      {value : Value} {stored : WireValue} (hchoice : scope.resolve place types value = .ok choice)
      (hmap : ∀ fields, value = .map fields → choice.reading.enter? = none)
      (hlist : ∀ items elements, value = .list items → choice.reading.type = .array elements →
        ∃ name, choice.type = .model name)
      (hencode : value.encodeAs choice.reading = .ok (some stored)) :
      Value.Complete writing scope place types value stored
  /-- A value that has none of the types, where these are not checked. -/
  | untyped {scope : Scope σ} {place : Place} {types : List (CandidateType σ)} {cause : MapperError}
      {value : Value} {stored : WireValue} (hunchecked : writing.options.typeCheck = false)
      (hmisfit : scope.resolve place types value = .error cause)
      (hnatural : value.natural? = some stored) :
      Value.Complete writing scope place types value stored

/-- The items of a list, from a position on. -/
inductive Value.ItemsComplete (writing : Writing) :
    Scope σ → Place → List (CandidateType σ) → Nat → List Value → List WireValue → Prop where
  | nil {scope : Scope σ} {place : Place} {elements : List (CandidateType σ)} {index : Nat} :
      Value.ItemsComplete writing scope place elements index [] []
  | stored {scope : Scope σ} {place : Place} {elements : List (CandidateType σ)} {index : Nat}
      {item : Value} {rest : List Value} {stored : WireValue} {others : List WireValue}
      (hitem : Value.Complete writing scope (place.item index) elements item stored)
      (hrest : Value.ItemsComplete writing scope place elements (index + 1) rest others) :
      Value.ItemsComplete writing scope place elements index (item :: rest) (stored :: others)
  | dropped {scope : Scope σ} {place : Place} {elements : List (CandidateType σ)} {index : Nat}
      {item : Value} {rest : List Value} {others : List WireValue}
      (hitem : item.StoresNothing writing.options.typeCheck scope (place.item index) elements)
      (hrest : Value.ItemsComplete writing scope place elements (index + 1) rest others) :
      Value.ItemsComplete writing scope place elements index (item :: rest) others

end

/-- All required attributes are checked, and every schema that can be reached is well formed. -/
structure Scope.ChecksRequired (start : Scope σ) (writing : Writing) : Prop where
  required : writing.options.required = .all
  wellFormed : ∀ scope schema, start.Reaches scope schema → schema.WellFormed

/-- The required attributes of a settled document have defined values, and an item holds exactly those
attributes whose values store something. -/
structure Frame.Holds (writing : Writing) (frame : Frame σ) (settled : Document) (item : Item) :
    Prop where
  defined : ∀ field ∈ frame.schema.attributes, field.required = true →
    ∃ value, settled.get? field.name = some value ∧ value.isUndefined = false
  missing : ∀ field ∈ frame.schema.attributes, ∀ value, settled.get? field.name = some value →
    (item.get? field.name = none ↔ value.StoresNothing writing.options.typeCheck frame.scope
      (frame.place.child field.name) field.types)

variable {start : Scope σ} {writing : Writing}

/-! ## One document -/

/-- A required attribute that is encoded has a defined value. -/
theorem Drafts.of_encodeAttribute_required {frame : Frame σ} {drafts : Fields (Draft σ)}
    {field : Attribute σ} {before after : σ} (hrequired : writing.options.required = .all)
    (hmust : field.required = true) {entry : Option (String × WireValue)}
    (hrun : Yields (encodeAttribute writing frame drafts field) before entry after) :
    ∃ value, (values drafts).get? field.name = some value ∧ value.isUndefined = false := by
  unfold encodeAttribute at hrun
  obtain ⟨hpresent, -⟩ := yields_check.mp hrun
  rw [hrequired, hmust, values, Fields.get?_mapValues] at *
  cases hdraft : drafts.get? field.name with
  | none => simp [isMissing, hdraft] at hpresent
  | some draft => exact ⟨draft.value, rfl, by simpa [isMissing, hdraft] using hpresent⟩

theorem Frame.Stores.holds {frame : Frame σ} {fields : List (String × Value)} {settled : Document}
    {item : Item} (hrequired : writing.options.required = .all) (hschema : frame.schema.WellFormed)
    (hstores : frame.Stores writing fields settled item) : frame.Holds writing settled item := by
  obtain ⟨depth, before, drafts, between, after, hsettle, hencode, rfl⟩ := hstores
  have htells : Drafts.All (fun _ => True) (Draft.Tells writing.options.typeCheck) drafts :=
    Drafts.all_of_yields_settle .all (fun value => Value.tells_madeDraft depth value)
      (fun field hfield => ⟨trivial, Value.tells_drafts fields field hfield⟩) hsettle
  constructor
  · intro field hfield hmust
    obtain ⟨entry, _, _, hentry, -⟩ :=
      Drafts.exists_encodeAttribute_of_yields_encode hschema hencode hfield
    exact Drafts.of_encodeAttribute_required hrequired hmust hentry
  · intro field hfield value hvalue
    obtain ⟨draft, hdraft, rfl⟩ := Option.map_eq_some_iff.mp
      ((Fields.get?_mapValues ..).symm.trans hvalue)
    obtain ⟨entry, _, _, hentry, hget⟩ :=
      Drafts.exists_encodeAttribute_of_yields_encode hschema hencode hfield
    rw [hget]
    rcases Drafts.of_yields_encodeAttribute_draft hdraft hentry with
      ⟨hundefined, rfl⟩ | ⟨stored, _, _, hstored, rfl⟩
    · rw [Value.eq_undefined hundefined]
      exact ⟨fun _ => .undefined, fun _ => rfl⟩
    · rw [← (htells _ (Fields.mem_of_get? hdraft)).2 hstored]
      simp

/-! ## All documents -/

mutual

theorem Frame.exists_complete_of_throughout {frame : Frame σ} {fields : List (String × Value)}
    {item : Item} : Frame.Throughout writing (fun frame _ => Frame.Holds writing frame) frame fields
      item →
    ∃ settled, frame.Settles writing fields settled ∧ Frame.Complete writing frame settled item
  | .intro hsettles hholds _ hinside =>
      ⟨_, hsettles, .intro hholds.defined hholds.missing fun field hfield value stored hvalue hstored =>
        Value.complete_of_throughout (hinside field hfield value stored hvalue hstored)⟩

theorem Value.complete_of_throughout {scope : Scope σ} {place : Place}
    {types : List (CandidateType σ)} {value : Value} {stored : WireValue} :
    Value.Throughout writing (fun frame _ => Frame.Holds writing frame) scope place types value
      stored →
    Value.Complete writing scope place types value stored
  | .document hchoice henter hdocument => by
      obtain ⟨settled, hsettles, hcomplete⟩ := Frame.exists_complete_of_throughout hdocument
      exact .document hchoice henter hsettles hcomplete
  | .list hchoice harray hitems =>
      .list hchoice harray (Value.itemsComplete_of_throughout hitems)
  | .whole hchoice hmap hlist hencode => .whole hchoice hmap hlist hencode
  | .untyped hunchecked hmisfit hnatural => .untyped hunchecked hmisfit hnatural

theorem Value.itemsComplete_of_throughout {scope : Scope σ} {place : Place}
    {elements : List (CandidateType σ)} {index : Nat} {items : List Value}
    {storeds : List WireValue} :
    Value.ItemsThroughout writing (fun frame _ => Frame.Holds writing frame) scope place elements
      index items storeds →
    Value.ItemsComplete writing scope place elements index items storeds
  | .nil => .nil
  | .stored hitem hrest =>
      .stored (Value.complete_of_throughout hitem) (Value.itemsComplete_of_throughout hrest)
  | .dropped hitem hrest => .dropped hitem (Value.itemsComplete_of_throughout hrest)

end

/-- A document that is written with the check of all required attributes makes a complete item. -/
theorem Frame.exists_complete_of_yields (hchecks : start.ChecksRequired writing)
    {document : Document} {before after : σ} {item : Item}
    (hrun : Yields (start.frame.write writing document) before item after) :
    ∃ settled, start.frame.Settles writing document settled ∧
      start.frame.Complete writing settled item := by
  refine Frame.exists_complete_of_throughout (Frame.throughout_of_yields ⟨hchecks.wellFormed, ?_⟩ hrun)
  exact fun frame fields settled item hschema hstores => hstores.holds hchecks.required hschema

/-! ## Documents in keys -/

theorem Value.of_encodeFields {frame : Frame σ} {fields : List (String × Value)}
    {entries : List (String × WireValue)} (hencode : Value.encodeFields frame fields = .ok entries) :
    (∀ given ∈ fields, ∃ entry, frame.encodeField given.1 given.2 = .ok entry ∧
        ∀ stored ∈ entry, stored ∈ entries) ∧
      ∀ stored ∈ entries, ∃ given ∈ fields, frame.encodeField given.1 given.2 = .ok (some stored) := by
  induction fields generalizing entries with
  | nil =>
      rw [Value.encodeFields] at hencode
      obtain rfl := Except.ok.inj hencode
      simp
  | cons field rest ih =>
      simp only [Value.encodeFields_cons, Except.bind_eq_ok, Except.pure_eq_ok] at hencode
      obtain ⟨entry, hentry, others, hothers, rfl⟩ := hencode
      obtain ⟨hgiven, hstored⟩ := ih hothers
      constructor
      · rw [List.forall_mem_cons]
        refine ⟨⟨entry, hentry, fun stored hmem => ?_⟩, fun given hmem => ?_⟩
        · exact List.mem_append_left _ (Option.mem_toList.mpr hmem)
        · obtain ⟨other, hother, hkept⟩ := hgiven given hmem
          exact ⟨other, hother, fun stored hmem => List.mem_append_right _ (hkept stored hmem)⟩
      · intro stored hmem
        rcases List.mem_append.mp hmem with hfirst | hrest
        · obtain rfl := Option.mem_toList.mp hfirst
          exact ⟨field, List.mem_cons_self, hentry⟩
        · obtain ⟨given, hmember, hmade⟩ := hstored stored hrest
          exact ⟨given, List.mem_cons_of_mem _ hmember, hmade⟩

/-- The codec alone checks no attribute: one is missing, whether it is required or not, unless the
document gives it a value that is stored. -/
theorem Frame.get?_encodeFields_eq_none_iff {frame : Frame σ} (hschema : frame.schema.WellFormed)
    {fields : List (String × Value)} {entries : List (String × WireValue)}
    (hencode : Value.encodeFields frame fields = .ok entries) {field : Attribute σ}
    (hfield : field ∈ frame.schema.attributes) :
    (Fields.ofList entries).get? field.name = none ↔
      ∀ given ∈ fields, frame.schema.nativeAttribute? given.1 = some field →
        given.2.StoresNothing true frame.scope (frame.place.child given.1) field.types := by
  obtain ⟨hgiven, hstored⟩ := Value.of_encodeFields hencode
  constructor
  · intro hnone given hmem hnative
    obtain ⟨entry, hentry, hkept⟩ := hgiven given hmem
    simp only [encodeField, hnative, Except.bind_eq_ok, Except.pure_eq_ok] at hentry
    obtain ⟨stored, hencoded, rfl⟩ := hentry
    rw [← Scope.encode_eq_none_iff hencoded, Option.eq_none_iff_forall_ne_some]
    rintro written rfl
    rw [Fields.get?_ofList, Fields.get?_eq_none_iff] at hnone
    exact hnone written (List.mem_reverse.mpr (hkept _ rfl))
  · intro hvanishes
    rw [Option.eq_none_iff_forall_ne_some]
    intro stored hget
    obtain ⟨given, hmem, hmade⟩ := hstored _ (Fields.mem_of_get?_ofList hget)
    unfold encodeField at hmade
    cases hnative : frame.schema.nativeAttribute? given.1 with
    | none =>
        simp only [hnative, Except.ok.injEq, Option.map_eq_some_iff, Prod.mk.injEq] at hmade
        obtain ⟨_, -, hname, -⟩ := hmade
        rw [hname, hschema.nativeAttribute?_name hfield] at hnative
        contradiction
    | some other =>
        simp only [hnative, Except.bind_eq_ok, Except.pure_eq_ok] at hmade
        obtain ⟨written, hencoded, hsome⟩ := hmade
        obtain ⟨_, rfl, hsame⟩ := Option.map_eq_some_iff.mp hsome
        obtain rfl := hschema.eq_of_name_eq (SchemaOf.mem_of_nativeAttribute? hnative) hfield
          (Prod.mk.inj hsame).1
        have hnothing := (Scope.encode_eq_none_iff hencoded).mpr (hvanishes given hmem hnative)
        contradiction

end ItemMapper
