import ItemMapper.Proofs.Marshal.Throughout
import ItemMapper.Proofs.Reference.Documents
import ItemMapper.Proofs.Required.Documents
import ItemMapper.Proofs.Saving.Stages

/-!
# Combined attributes of an item

A combined attribute is computed from native values, before anything is encoded.  Texts, numbers and
truth values are stored with the very text that they add to a combined attribute
(`Value.KeepsText`), so that the stored attributes agree with each other in the same way:
`Item.Combines` compares them, and `Document.Combines` the values that they are stored from.

`Frame.Stores.consistent` shows this of a document that passes through the stages.  The codec alone
computes nothing; the documents that it encodes agree exactly if they were given so
(`Frame.combines_encodeFields_iff`).
-/

namespace ItemMapper

variable {σ : Type}

open Pipeline

/-- The text that a stored scalar adds to a combined attribute. -/
def WireValue.combinedText? : WireValue → Option String
  | .string text | .number text => some text
  | .boolean value => some (Value.boolText value)
  | _ => none

/-- An item has the attribute with this name exactly if it has one of the sources, and then as the
texts of those that it has, in the order of the sources and with separators between them. -/
structure Item.Combines (item : Item) (name : String) (sources : List String)
    (separator : String) : Prop where
  present : (item.get? name).isSome = true ↔ ∃ source ∈ sources, (item.get? source).isSome = true
  joined : ∀ stored, item.get? name = some stored → ∃ texts,
    List.Forall₂ (fun held text => WireValue.combinedText? held = some text)
      (sources.filterMap item.get?) texts ∧
    stored = .string (String.intercalate separator texts)

/-- The value with this name is made of the values of the sources, or there are none. -/
def Document.Combines (given : String → Option Value) (name : String) (sources : List String)
    (separator : String) : Prop :=
  given name = none ∧ sources.filterMap given = [] ∨
    ∃ text, given name = some (.string text) ∧ sources.filterMap given ≠ [] ∧
      Drafts.Joins (sources.filterMap given) separator text

/-- Types of texts, numbers and truth values. -/
inductive CandidateType.HasText : CandidateType σ → Prop where
  | string : HasText (.primitive .string)
  | number : HasText (.primitive .number)
  | boolean : HasText (.primitive .boolean)
  | combine (sources : List String) (separator : String) : HasText (.combine sources separator)

/-- The only type of the attribute is one of texts, numbers or truth values. -/
def AttributeOf.HasText (field : Attribute σ) : Prop :=
  ∃ type : CandidateType σ, type.HasText ∧ field.types = [type]

/-- All combined attributes whose sources are texts, numbers or truth values agree with these. -/
def Frame.Consistent (frame : Frame σ) (item : Item) : Prop :=
  ∀ field ∈ frame.schema.attributes, ∀ sources separator,
    field.combine? = some (sources, separator) →
    (∀ source ∈ sources, ∃ other ∈ frame.schema.attributes, other.name = source ∧ other.HasText) →
    item.Combines field.name sources separator

/-! ## Texts that are kept -/

/-- A value is stored in its natural form, and this has the text of the value. -/
structure Value.KeepsText (value : Value) (stored : WireValue) : Prop where
  natural : value.natural? = some stored
  text : ∃ text, value.combinedText? = some text ∧ stored.combinedText? = some text

/-- What is stored under a single type of texts is the natural form of the value. -/
theorem Value.keepsText_of_score {value : Value} {scope : Scope σ} {place : Place}
    {type : CandidateType σ} (htype : type.HasText)
    (hscore : 0 < value.score Score.rounded ⟨scope, place, type⟩) :
    ∃ stored, value.KeepsText stored ∧
      ∀ reading : Reading σ, reading.type = type → value.encodeAs reading = .ok (some stored) := by
  have htakes := mem_takes_of_score hscore
  -- only the kind of value that the type takes is left
  cases htype <;> cases value <;>
    simp only [CandidateType.takes, Primitive.typeName, typeName, List.mem_singleton,
      String.reduceEq] at htakes
  all_goals
    refine ⟨_, ⟨rfl, _, rfl, rfl⟩, fun reading hreading => ?_⟩
    simp [encodeAs, Reading.encodeScalar, hreading, natural?]

theorem Scope.keepsText_of_resolve {scope : Scope σ} {place : Place} {type : CandidateType σ}
    {value : Value} {choice : Choice σ} (htype : type.HasText)
    (hchoice : scope.resolve place [type] value = .ok choice) :
    choice.type = type ∧ ∃ stored, value.KeepsText stored ∧
      value.encodeAs choice.reading = .ok (some stored) := by
  obtain ⟨hmem, hreading⟩ := Scope.of_resolve hchoice
  have hsame : choice.type = type := List.mem_singleton.mp hmem
  have hmodel : ∀ name, choice.type ≠ .model name := by
    rintro name hname
    rw [hsame] at hname
    cases htype <;> cases hname
  rw [Scope.readings_of_ne_model hmodel, List.mem_singleton, hsame] at hreading
  have hscore := (Scope.of_choose? (Scope.resolve_eq_ok_iff.mp hchoice)).2
  rw [hreading] at hscore
  obtain ⟨stored, hkeeps, hencode⟩ := Value.keepsText_of_score htype hscore
  exact ⟨hsame, stored, hkeeps, hencode _ (by rw [hreading])⟩

/-! ### Drafts -/

/-- Whenever a draft is written as a text, it is undefined or its text is kept. -/
def Draft.KeepsText (draft : Draft σ) : Prop :=
  ∀ {scope : Scope σ} {place : Place} {type : CandidateType σ} {before stored after}, type.HasText →
    Yields (draft.write scope place [type]) before stored after →
      draft.value.isUndefined = true ∨ ∃ kept, stored = some kept ∧ draft.value.KeepsText kept

namespace Value

variable {make : Value → Draft σ} {writing : Writing}

theorem keepsText_of_writeChosen (hcheck : writing.options.typeCheck = true) {value : Value}
    {scope : Scope σ} {place : Place} {type : CandidateType σ} (htype : type.HasText)
    {inside : CandidateType σ → Option (Pipeline σ WireValue)} (hinside : inside type = none)
    {before after : σ} {stored : Option WireValue}
    (hrun : Yields (value.writeChosen writing scope place [type] inside) before stored after) :
    ∃ kept, stored = some kept ∧ value.KeepsText kept := by
  unfold writeChosen at hrun
  split at hrun
  · rw [if_pos hcheck] at hrun
    exact (yields_throw.mp hrun).elim
  · next choice hchoice =>
      obtain ⟨hsame, kept, hkeeps, hencode⟩ := Scope.keepsText_of_resolve htype hchoice
      rw [hsame, hinside, hencode] at hrun
      obtain ⟨hstored, -⟩ := yields_ofExcept.mp hrun
      exact ⟨kept, (Except.ok.inj hstored).symm, hkeeps⟩

/-- A type of texts has no items and no fields. -/
theorem keepsText_writer (hcheck : writing.options.typeCheck = true) (value : Value) :
    Draft.KeepsText ⟨value, value.writer make writing⟩ := by
  intro scope place type before stored after htype hrun
  cases value with
  | undefined => exact .inl rfl
  | list items =>
      simp only [writer] at hrun
      exact .inr (keepsText_of_writeChosen hcheck htype (by cases htype <;> rfl) hrun)
  | map fields =>
      simp only [writer] at hrun
      exact .inr (keepsText_of_writeChosen hcheck htype (by cases htype <;> rfl) hrun)
  | _ =>
      simp only [writer] at hrun
      exact .inr (keepsText_of_writeChosen hcheck htype rfl hrun)

theorem keepsText_madeDraft (hcheck : writing.options.typeCheck = true) (depth : Nat)
    (value : Value) : (madeDraft (σ := σ) writing depth value).KeepsText := by
  cases depth with
  | zero =>
      intro scope place type before stored after htype hrun
      simp only [madeDraft, shallowDraft] at hrun
      split at hrun
      · exact .inl rfl
      · exact (yields_throw.mp hrun).elim
      · exact (yields_throw.mp hrun).elim
      · exact .inr (keepsText_of_writeChosen hcheck htype rfl hrun)
  | succ depth =>
      rw [madeDraft]
      cases depth <;> rw [writerTo] <;> exact keepsText_writer hcheck value

theorem keepsText_drafts (hcheck : writing.options.typeCheck = true)
    (fields : List (String × Value)) :
    ∀ draft ∈ drafts make writing fields, draft.2.KeepsText := by
  induction fields with
  | nil => simp [drafts]
  | cons field rest ih =>
      rw [drafts, List.forall_mem_cons]
      exact ⟨keepsText_writer hcheck field.2, ih⟩

end Value

/-! ## From values to stored attributes -/

theorem Value.KeepsText.combinedText?_eq {value : Value} {stored : WireValue}
    (hkeeps : value.KeepsText stored) : value.combinedText? = stored.combinedText? := by
  obtain ⟨-, text, hvalue, hstored⟩ := hkeeps
  exact hvalue.trans hstored.symm

/-- A text is kept as itself and as nothing else. -/
theorem Value.keepsText_string_iff {value : Value} {text : String} :
    value.KeepsText (.string text) ↔ value = .string text := by
  constructor
  · rintro ⟨hnatural, given, hgiven, -⟩
    cases value <;> simp_all [natural?, combinedText?, WireValue.ofDate]
  · rintro rfl
    exact ⟨rfl, text, rfl, rfl⟩

section Sources

variable {item : Item} {given : String → Option Value} {name : String} {sources : List String}
  {separator : String}
  (hname : Option.Rel Value.KeepsText (given name) (item.get? name))
  (hsources : ∀ source ∈ sources, Option.Rel Value.KeepsText (given source) (item.get? source))

include hsources

theorem Item.keepsText_sources :
    List.Forall₂ Value.KeepsText (sources.filterMap given) (sources.filterMap item.get?) := by
  refine List.rel_filterMap (R := fun source other => source = other ∧ source ∈ sources) ?_
    (List.forall₂_same.mpr fun _ hmem => ⟨rfl, hmem⟩)
  rintro source _ ⟨rfl, hmem⟩
  exact hsources source hmem

/-- The texts of the stored sources are those of the values. -/
theorem Item.texts_iff {texts : List String} :
    List.Forall₂ (fun held text => WireValue.combinedText? held = some text)
        (sources.filterMap item.get?) texts ↔
      List.Forall₂ (fun value text => Value.combinedText? value = some text)
        (sources.filterMap given) texts := by
  have hsame : (sources.filterMap given).map Value.combinedText? =
      (sources.filterMap item.get?).map WireValue.combinedText? := by
    rw [← List.forall₂_eq_eq_eq, List.forall₂_map_left_iff, List.forall₂_map_right_iff]
    exact (keepsText_sources hsources).imp fun _ _ hkeeps => hkeeps.combinedText?_eq
  rw [← List.forall₂_map_left_iff (R := fun text other => text = some other), ← hsame,
    List.forall₂_map_left_iff]

theorem Item.present_iff :
    (∃ source ∈ sources, (item.get? source).isSome = true) ↔ sources.filterMap given ≠ [] := by
  rw [Ne, ← List.length_eq_zero_iff, (keepsText_sources hsources).length_eq,
    List.length_eq_zero_iff]
  simp [List.filterMap_eq_nil_iff, Option.isSome_iff_ne_none]

include hname

/-- If the texts of all values are kept, the stored attributes agree exactly if the values do. -/
theorem Item.combines_iff :
    item.Combines name sources separator ↔ Document.Combines given name sources separator := by
  have hjoins : ∀ text, Drafts.Joins (sources.filterMap given) separator text ↔ ∃ texts,
      List.Forall₂ (fun held text => WireValue.combinedText? held = some text)
        (sources.filterMap item.get?) texts ∧ String.intercalate separator texts = text :=
    fun text => exists_congr fun texts => and_congr_left fun _ => (texts_iff hsources).symm
  unfold Document.Combines
  constructor
  · rintro ⟨hstored, hjoined⟩
    rw [present_iff hsources] at hstored
    generalize given name = value at hname ⊢
    generalize item.get? name = stored at hname hstored hjoined
    cases hname with
    | none => exact .inl ⟨rfl, by simpa using hstored⟩
    | some hkeeps =>
        obtain ⟨texts, hheld, rfl⟩ := hjoined _ rfl
        obtain rfl := Value.keepsText_string_iff.mp hkeeps
        exact .inr ⟨_, rfl, hstored.mp rfl, (hjoins _).mpr ⟨texts, hheld, rfl⟩⟩
  · rintro (⟨hnone, hempty⟩ | ⟨text, htext, hpresent, hjoin⟩)
    · rw [hnone] at hname
      have hitem : item.get? name = none := by
        generalize item.get? name = stored at hname ⊢
        cases hname
        rfl
      refine ⟨?_, by simp [hitem]⟩
      rw [present_iff hsources, hitem, hempty]
      simp
    · rw [htext] at hname
      obtain ⟨texts, hheld, rfl⟩ := (hjoins _).mp hjoin
      have hitem : item.get? name = some (.string (String.intercalate separator texts)) := by
        generalize item.get? name = stored at hname ⊢
        cases hname with
        | some hkeeps => exact congrArg some (Option.some.inj hkeeps.natural).symm
      refine ⟨?_, fun stored hstored => ⟨texts, hheld, ?_⟩⟩
      · rw [present_iff hsources, hitem]
        simpa using hpresent
      · exact Option.some.inj (hstored.symm.trans hitem)

end Sources

/-! ## Documents that pass through the stages -/

namespace Drafts

variable {writing : Writing} {drafts : Fields (Draft σ)}

/-- The values that are encoded. -/
def given (drafts : Fields (Draft σ)) (name : String) : Option Value :=
  (defined? drafts name).map Draft.value

/-- Combined attributes are computed if that is asked for. -/
theorem exists_foldlM_combine_of_yields_settle {make : Value → Draft σ} {schema : Schema σ}
    {place : Place} {fields : List (String × Draft σ)} {before after : σ}
    (hcombine : writing.options.combine = true)
    (hrun : Yields (settle make writing schema place fields) before drafts after) :
    ∃ filled, schema.attributes.foldlM (combine make place) filled = .ok drafts := by
  unfold settle at hrun
  obtain ⟨filled, between, -, hrest⟩ := yields_bind.mp hrun
  rw [if_pos hcombine] at hrest
  exact ⟨filled, (yields_ofExcept.mp hrest).1⟩

/-- The settled values of a combined attribute and its sources agree. -/
theorem combines_of_foldlM {schema : Schema σ} {place : Place} {make : Value → Draft σ}
    (hmake : ∀ value, (make value).value = value) (hschema : schema.WellFormed)
    {filled : Fields (Draft σ)}
    (hfold : schema.attributes.foldlM (combine make place) filled = .ok drafts)
    {field : Attribute σ} (hfield : field ∈ schema.attributes) {sources : List String}
    {separator : String} (hcombine : field.combine? = some (sources, separator)) :
    Document.Combines (given drafts) field.name sources separator := by
  have hindependent : Scope.Independent schema.attributes :=
    @Scope.independent_attributes σ ⟨⟨[]⟩, schema⟩ hschema
  have hpresent : present drafts sources = present filled sources := by
    apply List.filterMap_congr
    intro source hsource
    obtain ⟨other, hother, rfl, hplain⟩ :=
      hschema.plainSources field hfield sources separator hcombine source hsource
    rw [defined?, defined?, get?_of_foldlM_combine hschema hother hplain hfold]
  have hfinal := (of_foldlM_combine hindependent hfold).1 field hfield
  generalize hdraft : drafts.get? field.name = final at hfinal
  cases hfinal with
  | plain hplain => simp [hplain] at hcombine
  | empty hsame hnone _ =>
      obtain ⟨rfl, rfl⟩ := Prod.mk.inj (Option.some.inj (hsame.symm.trans hcombine))
      exact .inl ⟨by simp [given, defined?, hdraft], hpresent.trans hnone⟩
  | joined hsame hsome _ htext =>
      obtain ⟨rfl, rfl⟩ := Prod.mk.inj (Option.some.inj (hsame.symm.trans hcombine))
      rw [← hpresent] at hsome htext
      exact .inr ⟨_, by simp [given, defined?, hdraft, hmake, Value.isUndefined], hsome, htext⟩

/-- Where types are checked, the text of an attribute is kept. -/
theorem keepsText_of_yields_encode {frame : Frame σ} (hschema : frame.schema.WellFormed)
    (hkeeps : All (fun _ => True) Draft.KeepsText drafts) {before after : σ} {item : Item}
    (hrun : Yields (encode writing frame drafts) before item after) {field : Attribute σ}
    (hfield : field ∈ frame.schema.attributes) (htext : field.HasText) :
    Option.Rel Value.KeepsText (given drafts field.name) (item.get? field.name) := by
  obtain ⟨type, htype, htypes⟩ := htext
  obtain ⟨entry, first, last, hentry, hitem⟩ :=
    exists_encodeAttribute_of_yields_encode hschema hrun hfield
  rw [hitem]
  rcases of_yields_encodeAttribute hentry with
    ⟨hnone, rfl⟩ | ⟨draft, stored, _, _, hdraft, hstored, rfl⟩
  · rw [given, hnone]
    exact .none
  · obtain ⟨hget, hdefined⟩ := Option.filter_eq_some_iff.mp hdraft
    rw [htypes] at hstored
    rcases (hkeeps _ (Fields.mem_of_get? hget)).2 htype hstored with
      hundefined | ⟨kept, rfl, hkept⟩
    · simp [hundefined] at hdefined
    · rw [given, hdraft]
      exact .some hkept

end Drafts

/-- The stages leave every document with combined attributes that agree with their sources. -/
theorem Frame.Stores.consistent {frame : Frame σ} {writing : Writing}
    {fields : List (String × Value)} {settled : Document} {item : Item}
    (hcombine : writing.options.combine = true) (hcheck : writing.options.typeCheck = true)
    (hschema : frame.schema.WellFormed) (hstores : frame.Stores writing fields settled item) :
    frame.Consistent item := by
  obtain ⟨depth, before, drafts, between, after, hsettle, hencode, -⟩ := hstores
  obtain ⟨filled, hfold⟩ := Drafts.exists_foldlM_combine_of_yields_settle hcombine hsettle
  have hkeeps : Drafts.All (fun _ => True) Draft.KeepsText drafts :=
    Drafts.all_of_yields_settle .all (fun value => Value.keepsText_madeDraft hcheck depth value)
      (fun field hfield => ⟨trivial, Value.keepsText_drafts hcheck fields field hfield⟩) hsettle
  intro field hfield sources separator hcombined hsources
  have htext : field.HasText :=
    ⟨_, .combine sources separator, AttributeOf.types_of_combine? hcombined⟩
  refine (Item.combines_iff (Drafts.keepsText_of_yields_encode hschema hkeeps hencode hfield htext)
    fun source hsource => ?_).mpr
      (Drafts.combines_of_foldlM (Value.madeDraft_value writing depth) hschema hfold hfield hcombined)
  obtain ⟨other, hother, rfl, hotherText⟩ := hsources source hsource
  exact Drafts.keepsText_of_yields_encode hschema hkeeps hencode hother hotherText

/-! ## Documents in keys -/

/-- The last value that some fields give to the attribute with this stored name, undefined ones left
aside. -/
def SchemaOf.given? (schema : Schema σ) (fields : List (String × Value)) (name : String) :
    Option Value :=
  fields.reverse.findSome? fun given =>
    if schema.storedName given.1 = name ∧ given.2.isUndefined = false then some given.2 else none

theorem SchemaOf.given?_cons (schema : Schema σ) (given : String × Value)
    (rest : List (String × Value)) (name : String) :
    schema.given? (given :: rest) name = (schema.given? rest name).or
      (if schema.storedName given.1 = name ∧ given.2.isUndefined = false then some given.2
        else none) := by
  simp [given?, List.findSome?_append]

/-- The codec keeps the text of a field, if that is one of the attribute. -/
theorem Frame.keepsText_encodeField {frame : Frame σ} (hschema : frame.schema.WellFormed)
    {key : String} {value : Value} {entry : Option (String × WireValue)}
    (hencode : frame.encodeField key value = .ok entry) {field : Attribute σ}
    (hfield : field ∈ frame.schema.attributes) (htext : field.HasText) :
    Option.Rel Value.KeepsText
      (if frame.schema.storedName key = field.name ∧ value.isUndefined = false then some value
        else none)
      ((Fields.ofList entry.toList).get? field.name) := by
  unfold encodeField at hencode
  unfold SchemaOf.storedName
  cases hnative : frame.schema.nativeAttribute? key with
  | none =>
      simp only [hnative, Except.ok.injEq] at hencode
      have hname : field.name ≠ key := by
        rintro rfl
        simp [hschema.nativeAttribute?_name hfield] at hnative
      rw [if_neg fun hsame => hname hsame.1.symm, ← hencode, Fields.get?_ofList]
      cases value.keep? frame.scope (frame.place.child key) with
      | none => exact .none
      | some kept => simp [Fields.get?_cons, hname]
  | some declared =>
      simp only [hnative, Except.bind_eq_ok, Except.pure_eq_ok] at hencode
      obtain ⟨stored, hencode, rfl⟩ := hencode
      rw [Option.map_some, Option.getD_some]
      by_cases hname : declared.name = field.name
      · obtain rfl := hschema.eq_of_name_eq (SchemaOf.mem_of_nativeAttribute? hnative) hfield hname
        obtain ⟨type, htype, htypes⟩ := htext
        cases hundefined : value.isUndefined with
        | true =>
            rw [Scope.encode, if_pos hundefined] at hencode
            obtain rfl := Except.ok.inj hencode
            rw [if_neg (by simp)]
            exact .none
        | false =>
            obtain ⟨choice, hchoice, hchosen⟩ := (Scope.encode_eq_ok hundefined).mp hencode
            rw [htypes] at hchoice
            obtain ⟨-, kept, hkeeps, hkept⟩ := Scope.keepsText_of_resolve htype hchoice
            obtain rfl := Except.ok.inj (hchosen.symm.trans hkept)
            simpa [Fields.get?_ofList, Fields.get?_cons] using hkeeps
      · rw [if_neg fun hsame => hname hsame.1, Fields.get?_ofList]
        cases stored with
        | none => exact .none
        | some kept => simp [Fields.get?_cons, Ne.symm hname]

/-- The codec keeps the text of an attribute, too. -/
theorem Frame.keepsText_encodeFields {frame : Frame σ} (hschema : frame.schema.WellFormed)
    {fields : List (String × Value)} {entries : List (String × WireValue)}
    (hencode : Value.encodeFields frame fields = .ok entries) {field : Attribute σ}
    (hfield : field ∈ frame.schema.attributes) (htext : field.HasText) :
    Option.Rel Value.KeepsText (frame.schema.given? fields field.name)
      ((Fields.ofList entries).get? field.name) := by
  induction fields generalizing entries with
  | nil =>
      rw [Value.encodeFields] at hencode
      obtain rfl := Except.ok.inj hencode
      exact .none
  | cons given rest ih =>
      simp only [Value.encodeFields_cons, Except.bind_eq_ok, Except.pure_eq_ok] at hencode
      obtain ⟨entry, hentry, others, hothers, rfl⟩ := hencode
      rw [SchemaOf.given?_cons, Fields.get?_ofList_append]
      have hrest := ih hothers
      generalize frame.schema.given? rest field.name = later at hrest ⊢
      generalize (Fields.ofList others).get? field.name = stored at hrest ⊢
      -- a later field counts, and only without one the first
      cases hrest with
      | some hkeeps => exact .some hkeeps
      | none => exact Frame.keepsText_encodeField hschema hentry hfield htext

/-- The codec alone joins nothing: the attributes in what it stores agree exactly if the values that
the document gives them do. -/
theorem Frame.combines_encodeFields_iff {frame : Frame σ} (hschema : frame.schema.WellFormed)
    {fields : List (String × Value)} {entries : List (String × WireValue)}
    (hencode : Value.encodeFields frame fields = .ok entries) {field : Attribute σ}
    (hfield : field ∈ frame.schema.attributes) {sources : List String} {separator : String}
    (hcombine : field.combine? = some (sources, separator))
    (hsources : ∀ source ∈ sources, ∃ other ∈ frame.schema.attributes,
      other.name = source ∧ other.HasText) :
    Item.Combines (Fields.ofList entries) field.name sources separator ↔
      Document.Combines (frame.schema.given? fields) field.name sources separator := by
  apply Item.combines_iff
  · exact Frame.keepsText_encodeFields hschema hencode hfield
      ⟨_, .combine sources separator, AttributeOf.types_of_combine? hcombine⟩
  · intro source hsource
    obtain ⟨other, hother, rfl, htext⟩ := hsources source hsource
    exact Frame.keepsText_encodeFields hschema hencode hother htext

end ItemMapper
