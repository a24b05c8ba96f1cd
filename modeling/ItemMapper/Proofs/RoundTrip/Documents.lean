import ItemMapper.Proofs.AttributePath
import ItemMapper.Proofs.Fields
import ItemMapper.Proofs.RoundTrip.Lists

/-!
# Stored documents

A document lists its fields by their native names and its stored form by their stored names, and
both sides work through the attributes in the order of the schema.  `Entry` puts together what
belongs to one field, so that each of the lists is the list of entries, seen in some way and in some
order.  The entries of all attributes, in the order of the schema, are the entries in another order
(`EntriesStored.filterMap_find?_perm`), and fields do not depend on the order that they are given
in.

With the plain options no stage of writing or reading but the conversion itself does anything
(`Drafts.yields_fill_plain`, `Drafts.yields_encodeAttribute_plain`).  What is left is
`EntriesStored.documentStored`: the document is stored entry by entry.
-/

namespace ItemMapper

variable {σ : Type}

/-- A field of a document, with what it is written as and what is read from it. -/
structure Entry (σ : Type) where
  field : Attribute σ
  type : CandidateType σ
  value : Value
  stored : WireValue
  back : Value

namespace Entry

/-- The field of the document. -/
def given (entry : Entry σ) : String × Value :=
  (entry.field.nativeName, entry.value)

/-- The field of the stored document. -/
def storedField (entry : Entry σ) : String × WireValue :=
  (entry.field.name, entry.stored)

/-- The field of the document that is read. -/
def readField (entry : Entry σ) : String × Value :=
  (entry.field.nativeName, entry.back)

/-- The field is that of an attribute of the schema and stored by the only type of the attribute. -/
structure Stored (scope : Scope σ) (schema : Schema σ) (entry : Entry σ) : Prop where
  declared : entry.field ∈ schema.attributes
  types : entry.field.types = [entry.type]
  storedAs : StoredAs scope entry.type entry.value entry.stored entry.back

/-- The entry of an attribute. -/
def find? (entries : List (Entry σ)) (field : Attribute σ) : Option (Entry σ) :=
  entries.find? fun entry => entry.field.name == field.name

theorem name_of_find? {entries : List (Entry σ)} {field : Attribute σ} {entry : Entry σ}
    (hfind : find? entries field = some entry) : entry ∈ entries ∧ entry.field.name = field.name :=
  ⟨List.mem_of_find?_eq_some hfind, by simpa using List.find?_some hfind⟩

end Entry

theorem exists_entries {scope : Scope σ} {schema : Schema σ} {fields : List (String × Value)}
    (hfields : ∀ given ∈ fields, ∃ field ∈ schema.attributes, field.nativeName = given.1 ∧
      ∃ type, field.types = [type] ∧ ∃ stored back, StoredAs scope type given.2 stored back) :
    ∃ entries : List (Entry σ), fields = entries.map Entry.given ∧
      ∀ entry ∈ entries, entry.Stored scope schema := by
  apply exists_eq_map
  intro given hgiven
  obtain ⟨field, hfield, hname, type, htypes, stored, back, hstored⟩ := hfields given hgiven
  exact ⟨⟨field, type, given.2, stored, back⟩, Prod.ext hname.symm rfl, hfield, htypes, hstored⟩

theorem sublist_of_filterMap {α β γ : Type} {f : α → Option β} {g : β → γ} {h : α → γ}
    (hsame : ∀ a b, f a = some b → g b = h a) (items : List α) :
    ((items.filterMap f).map g).Sublist (items.map h) := by
  induction items with
  | nil => exact .slnil
  | cons item rest ih =>
      cases hitem : f item with
      | none =>
          rw [List.filterMap_cons_none hitem]
          exact ih.cons _
      | some b =>
          rw [List.filterMap_cons_some hitem, List.map_cons, List.map_cons, hsame item b hitem]
          exact ih.cons_cons _

/-- The fields of a document that are stored one by one. -/
structure EntriesStored (scope : Scope σ) (schema : Schema σ) (entries : List (Entry σ)) : Prop where
  wellFormed : schema.WellFormed
  nativeNames : (schema.attributes.map AttributeOf.nativeName).Nodup
  stored : ∀ entry ∈ entries, entry.Stored scope schema
  sorted : Fields.Sorted (entries.map Entry.given)

namespace EntriesStored

variable {scope : Scope σ} {schema : Schema σ} {entries : List (Entry σ)}

/-! ### Entries and attributes -/

theorem nodup_nativeNames (hentries : EntriesStored scope schema entries) :
    (entries.map fun entry => entry.field.nativeName).Nodup := by
  simpa [Entry.given, Function.comp_def] using Fields.nodup_of_sorted hentries.sorted

/-- Entries of different native names have different stored names. -/
theorem nodup_names (hentries : EntriesStored scope schema entries) :
    (entries.map fun entry => entry.field.name).Nodup := by
  have hdistinct := hentries.nodup_nativeNames
  refine List.Nodup.map_on ?_ (hdistinct.of_map _)
  intro entry hentry other hother hname
  have hfield := hentries.wellFormed.eq_of_name_eq (hentries.stored entry hentry).declared
    (hentries.stored other hother).declared hname
  exact List.inj_on_of_nodup_map hdistinct hentry hother (by rw [hfield])

theorem find?_field (hentries : EntriesStored scope schema entries) {entry : Entry σ}
    (hentry : entry ∈ entries) : Entry.find? entries entry.field = some entry := by
  cases hfind : Entry.find? entries entry.field with
  | none =>
      rw [Entry.find?, List.find?_eq_none] at hfind
      exact absurd (by simp) (hfind entry hentry)
  | some other =>
      obtain ⟨hother, hname⟩ := Entry.name_of_find? hfind
      rw [List.inj_on_of_nodup_map hentries.nodup_names hother hentry hname]

/-- Working through the attributes meets each entry once. -/
theorem filterMap_find?_perm (hentries : EntriesStored scope schema entries) :
    (schema.attributes.filterMap (Entry.find? entries)).Perm entries := by
  have hdistinct : ((schema.attributes.filterMap (Entry.find? entries)).map
      fun entry => entry.field.name).Nodup :=
    hentries.wellFormed.distinct.sublist (sublist_of_filterMap
      (fun field entry hfind => (Entry.name_of_find? hfind).2) schema.attributes)
  -- neither list repeats an entry, so it is enough that they have the same ones
  refine (List.perm_ext_iff_of_nodup (hdistinct.of_map _)
    (hentries.nodup_names.of_map _)).mpr fun entry => ?_
  rw [List.mem_filterMap]
  constructor
  · rintro ⟨field, -, hfind⟩
    exact (Entry.name_of_find? hfind).1
  · intro hentry
    exact ⟨entry.field, (hentries.stored entry hentry).declared, hentries.find?_field hentry⟩

/-- Fields made from the entries in the order of the attributes are those made from them in their
own order. -/
theorem ofList_filterMap {α : Type} (hentries : EntriesStored scope schema entries)
    (f : Entry σ → String × α) (hdistinct : ((entries.map f).map Prod.fst).Nodup) :
    Fields.ofList ((schema.attributes.filterMap (Entry.find? entries)).map f) =
      Fields.ofList (entries.map f) :=
  (Fields.ofList_congr hdistinct (hentries.filterMap_find?_perm.map f).symm).symm

/-- What fields made from the entries hold for an attribute. -/
theorem get?_ofList {α : Type} (hentries : EntriesStored scope schema entries)
    (f : Entry σ → α) {field : Attribute σ} (hfield : field ∈ schema.attributes) :
    (Fields.ofList (entries.map fun entry => (entry.field.name, f entry))).get? field.name =
      (Entry.find? entries field).map f := by
  have hdistinct : ((entries.map fun entry => (entry.field.name, f entry)).map Prod.fst).Nodup := by
    simpa [Function.comp_def] using hentries.nodup_names
  ext value
  rw [Fields.get?_ofList_eq_some_iff hdistinct, List.mem_map, Option.map_eq_some_iff]
  constructor
  · rintro ⟨entry, hentry, heq⟩
    obtain ⟨hname, hvalue⟩ := Prod.mk.inj heq
    have hsame := hentries.wellFormed.eq_of_name_eq (hentries.stored entry hentry).declared hfield
      hname
    exact ⟨entry, hsame ▸ hentries.find?_field hentry, hvalue⟩
  · rintro ⟨entry, hfind, rfl⟩
    obtain ⟨hentry, hname⟩ := Entry.name_of_find? hfind
    exact ⟨entry, hentry, by rw [hname]⟩

/-! ### Scores -/

theorem nativeAttribute? (hentries : EntriesStored scope schema entries) {entry : Entry σ}
    (hentry : entry ∈ entries) : schema.nativeAttribute? entry.field.nativeName = some entry.field :=
  hentries.wellFormed.nativeAttribute?_nativeName hentries.nativeNames
    (hentries.stored entry hentry).declared

theorem attribute? (hentries : EntriesStored scope schema entries) {entry : Entry σ}
    (hentry : entry ∈ entries) : schema.attribute? entry.field.name = some entry.field :=
  hentries.wellFormed.attribute?_name (hentries.stored entry hentry).declared

theorem scores (hentries : EntriesStored scope schema entries) (place : Place) :
    ∀ {rest : List (Entry σ)}, (∀ entry ∈ rest, entry ∈ entries) →
      List.Forall₂ Score.AtLeast (rest.map fun entry => entry.value.size)
        (Value.fieldScores Score.rounded ⟨scope, place, schema⟩ (rest.map Entry.given))
  | [], _ => .nil
  | entry :: rest, hrest => by
      have hentry := hrest entry (by simp)
      have hstored := hentries.stored entry hentry
      obtain ⟨reading, hboth⟩ := hstored.storedAs.both (place.child entry.field.nativeName)
      simp only [List.map_cons, Entry.given, Value.fieldScores, hstored.storedAs.defined,
        hentries.nativeAttribute? hentry, hstored.types]
      exact .cons hboth.best (hentries.scores place fun other hother => hrest other (by simp [hother]))

theorem storedScores (hentries : EntriesStored scope schema entries) (place : Place) :
    ∀ {rest : List (Entry σ)}, (∀ entry ∈ rest, entry ∈ entries) →
      List.Forall₂ Score.AtLeast (rest.map fun entry => entry.value.size)
        (WireValue.fieldScores Score.rounded ⟨scope, place, schema⟩ (rest.map Entry.storedField))
  | [], _ => .nil
  | entry :: rest, hrest => by
      have hentry := hrest entry (by simp)
      have hstored := hentries.stored entry hentry
      obtain ⟨reading, hboth⟩ := hstored.storedAs.both (place.child entry.field.name)
      simp only [List.map_cons, Entry.storedField, WireValue.fieldScores,
        hentries.attribute? hentry, hstored.types]
      exact .cons hboth.bestStored
        (hentries.storedScores place fun other hother => hrest other (by simp [hother]))

/-- The order of stored fields makes no difference to their scores. -/
theorem fieldScores_perm {frame : Frame σ} {first second : List (String × WireValue)}
    (hperm : first.Perm second) :
    (WireValue.fieldScores Score.rounded frame first).Perm
      (WireValue.fieldScores Score.rounded frame second) := by
  induction hperm with
  | nil => exact .nil
  | cons field _ ih => exact ih.cons _
  | swap => exact .swap _ _ _
  | trans _ _ ihfirst ihsecond => exact ihfirst.trans ihsecond

end EntriesStored

/-! ### Writing -/

theorem Value.drafts_eq_map (make : Value → Draft σ) (writing : Writing)
    (fields : List (String × Value)) : Value.drafts make writing fields =
      fields.map fun field => (field.1, ⟨field.2, field.2.writer make writing⟩) := by
  induction fields with
  | nil => rfl
  | cons field rest ih => rw [Value.drafts, ih]; rfl

namespace Drafts

theorem stamp_plain (make : Value → Draft σ) (now : Instant) (depth : Nat) (schema : Schema σ)
    (drafts : Fields (Draft σ)) : stamp make ⟨.plain, now, depth⟩ schema drafts = drafts := by
  unfold stamp
  cases schema.timestamps <;> rfl

/-- The plain options fill in no default and run no modifier. -/
theorem yields_fill_plain (make : Value → Draft σ) (now : Instant) (depth : Nat) (place : Place)
    (drafts : Fields (Draft σ)) (field : Attribute σ) (before : σ) :
    Pipeline.Yields (fill make ⟨.plain, now, depth⟩ place drafts field) before drafts before := by
  have hwants : wantsDefault .plain field (drafts.get? field.name) = false := by
    cases drafts.get? field.name <;> simp [wantsDefault, MarshalOptions.plain]
  have hmodifiers : MarshalOptions.plain.modifiers = false := rfl
  simp [fill, hwants, hmodifiers]

theorem isMissing_plain (given : Option (Draft σ)) :
    isMissing MarshalOptions.plain.required given = false := rfl

theorem checkValue_plain (field : Attribute σ) (value : Value) (path : String) :
    checkValue .plain field value path = pure () := rfl

theorem yields_encodeAttribute_none {frame : Frame σ} {drafts : Fields (Draft σ)}
    {field : Attribute σ} (hnone : drafts.get? field.name = none) (now : Instant) (depth : Nat)
    (before : σ) :
    Pipeline.Yields (encodeAttribute ⟨.plain, now, depth⟩ frame drafts field) before none before := by
  simp [encodeAttribute, isMissing_plain, defined?, hnone]

/-- The plain options check nothing. -/
theorem yields_encodeAttribute_some {frame : Frame σ} {drafts : Fields (Draft σ)}
    {field : Attribute σ} {draft : Draft σ} {stored : WireValue} {now : Instant} {depth : Nat}
    {before : σ} (hdraft : drafts.get? field.name = some draft)
    (hdefined : draft.value.isUndefined = false)
    (hwrite : Pipeline.Yields (draft.write frame.scope (frame.place.child field.name) field.types)
      before (some stored) before) :
    Pipeline.Yields (encodeAttribute ⟨.plain, now, depth⟩ frame drafts field) before
      (some (field.name, stored)) before := by
  simp only [encodeAttribute, isMissing_plain, Bool.and_false, Bool.false_eq_true, if_false,
    defined?, hdraft, Option.filter_some, hdefined, Bool.not_false, if_true, checkValue_plain,
    pure_bind]
  exact hwrite.bind Pipeline.yields_pure_self

end Drafts

namespace EntriesStored

variable {scope : Scope σ} {schema : Schema σ} {entries : List (Entry σ)}

theorem normalize (hentries : EntriesStored scope schema entries) (make : Value → Draft σ)
    (writing : Writing) :
    Drafts.normalize schema (Value.drafts make writing (entries.map Entry.given)) =
      Fields.ofList (entries.map fun entry =>
        (entry.field.name, ⟨entry.value, entry.value.writer make writing⟩)) := by
  rw [Drafts.normalize, Value.drafts_eq_map, List.map_map, List.map_map]
  refine congrArg Fields.ofList (List.map_congr_left fun entry hentry => ?_)
  simp [Entry.given, hentries.nativeAttribute? hentry]

/-- What the entries make is found under the names of attributes only. -/
theorem attribute?_of_mem_ofList {α : Type} (hentries : EntriesStored scope schema entries)
    {f : Entry σ → α} {given : String × α}
    (hgiven : given ∈ Fields.ofList (entries.map fun entry => (entry.field.name, f entry))) :
    (schema.attribute? given.1).isSome = true := by
  have hdistinct : ((entries.map fun entry => (entry.field.name, f entry)).map Prod.fst).Nodup := by
    simpa [Function.comp_def] using hentries.nodup_names
  rw [(Fields.ofList_perm hdistinct).mem_iff] at hgiven
  obtain ⟨entry, hentry, rfl⟩ := List.mem_map.mp hgiven
  rw [hentries.attribute? hentry]
  rfl

theorem encodeUnknown_eq_nil (hentries : EntriesStored scope schema entries) (place : Place)
    (f : Entry σ → Draft σ) :
    Drafts.encodeUnknown ⟨scope, place, schema⟩
      (Fields.ofList (entries.map fun entry => (entry.field.name, f entry))) = [] := by
  have hnone : (Fields.ofList (entries.map fun entry => (entry.field.name, f entry))).filter
      (fun given => (schema.attribute? given.1).isNone) = [] := by
    apply List.filter_eq_nil_iff.mpr
    intro given hgiven
    have hdeclared := hentries.attribute?_of_mem_ofList hgiven
    rw [Option.isSome_iff_ne_none] at hdeclared
    simpa using hdeclared
  simp [Drafts.encodeUnknown, hnone]

/-- Each attribute is written by the entry that it has. -/
theorem encodeAttribute (hentries : EntriesStored scope schema entries) (make : Value → Draft σ)
    (now : Instant) (depth : Nat) (place : Place) (before : σ) {field : Attribute σ}
    (hfield : field ∈ schema.attributes) :
    Pipeline.Yields (Drafts.encodeAttribute ⟨.plain, now, depth⟩ ⟨scope, place, schema⟩
        (Fields.ofList (entries.map fun entry =>
          (entry.field.name, ⟨entry.value, entry.value.writer make ⟨.plain, now, depth⟩⟩))) field)
      before ((Entry.find? entries field).map Entry.storedField) before := by
  have hdraft := hentries.get?_ofList
    (fun entry => (⟨entry.value, entry.value.writer make ⟨.plain, now, depth⟩⟩ : Draft σ)) hfield
  cases hfind : Entry.find? entries field with
  | none =>
      rw [hfind] at hdraft
      exact Drafts.yields_encodeAttribute_none hdraft now depth before
  | some entry =>
      rw [hfind] at hdraft
      obtain ⟨hentry, hname⟩ := Entry.name_of_find? hfind
      have hstored := hentries.stored entry hentry
      obtain rfl := hentries.wellFormed.eq_of_name_eq hstored.declared hfield hname
      refine Drafts.yields_encodeAttribute_some hdraft hstored.storedAs.defined ?_
      rw [hstored.types]
      exact hstored.storedAs.write make now depth _ before

/-- The document is written entry by entry. -/
theorem write (hentries : EntriesStored scope schema entries) (make : Value → Draft σ)
    (now : Instant) (depth : Nat) (place : Place) (before : σ) :
    Pipeline.Yields (Drafts.write make ⟨.plain, now, depth⟩ ⟨scope, place, schema⟩
        (Value.drafts make ⟨.plain, now, depth⟩ (entries.map Entry.given)))
      before (Fields.ofList (entries.map Entry.storedField)) before := by
  have hdeclared := Pipeline.yields_mapM_of_forall fun field hfield =>
    hentries.encodeAttribute make now depth place before hfield
  have hunknown := hentries.encodeUnknown_eq_nil place fun entry =>
    ⟨entry.value, entry.value.writer make ⟨.plain, now, depth⟩⟩
  unfold Drafts.write
  rw [hentries.normalize, Drafts.stamp_plain]
  generalize Fields.ofList (entries.map fun entry => (entry.field.name,
    (⟨entry.value, entry.value.writer make ⟨.plain, now, depth⟩⟩ : Draft σ))) = drafts at *
  have hfill := Pipeline.yields_foldlM_of_forall (f := fun drafts _ => drafts)
    (fun field (_ : field ∈ schema.attributes) drafts =>
      Drafts.yields_fill_plain make now depth place drafts field before) drafts
  rw [List.foldl_fixed] at hfill
  apply hfill.bind
  -- nothing is combined either
  apply Pipeline.yields_pure_self.bind
  apply hdeclared.bind
  refine Pipeline.yields_pure.mpr ⟨?_, rfl⟩
  have hstored : (schema.attributes.map fun field =>
      (Entry.find? entries field).map Entry.storedField).filterMap id =
        (schema.attributes.filterMap (Entry.find? entries)).map Entry.storedField := by
    simp [List.filterMap_map, List.map_filterMap]
  -- the entries come in the order of the attributes, which the item does not show
  rw [hunknown, List.append_nil, hstored]
  refine hentries.ofList_filterMap Entry.storedField ?_
  simpa [Entry.storedField, Function.comp_def] using hentries.nodup_names

end EntriesStored

/-! ### Reading -/

theorem WireValue.sources_eq (options : MarshalOptions) (fields : List (String × WireValue)) :
    WireValue.sources (σ := σ) options fields =
      Fields.mapValues (fun stored => ⟨stored, stored.reader options⟩) fields := by
  induction fields with
  | nil => rfl
  | cons field rest ih => rw [WireValue.sources, ih]; rfl

namespace Sources

/-- The plain options run no modifier. -/
theorem yields_readAttribute_some {frame : Frame σ} {sources : Fields (Source σ)}
    {document : Document} {field : Attribute σ} {source : Source σ} {back : Value} {before : σ}
    (hsource : sources.get? field.name = some source)
    (hread : Pipeline.Yields (source.read frame.scope (frame.place.child field.name) field.types)
      before back before) :
    Pipeline.Yields (readAttribute .plain frame sources document field) before
      (document.insert field.nativeName back) before := by
  unfold readAttribute
  rw [hsource]
  exact hread.bind Pipeline.yields_pure_self

/-- Fields of attributes are no undeclared data. -/
theorem readUnknown_of_declared {frame : Frame σ} {sources : Fields (Source σ)}
    (hdeclared : ∀ field ∈ sources, (frame.schema.attribute? field.1).isSome = true)
    (document : Document) : sources.foldl (readUnknown frame) document = document := by
  induction sources with
  | nil => rfl
  | cons field rest ih =>
      rw [List.foldl_cons, readUnknown, if_pos (hdeclared field (by simp))]
      exact ih fun other hother => hdeclared other (by simp [hother])

end Sources

namespace EntriesStored

variable {scope : Scope σ} {schema : Schema σ} {entries : List (Entry σ)}

/-- Each attribute is read by the entry that it has. -/
theorem readAttribute (hentries : EntriesStored scope schema entries) (place : Place) (before : σ)
    {field : Attribute σ} (hfield : field ∈ schema.attributes) (document : Document) :
    Pipeline.Yields (Sources.readAttribute .plain ⟨scope, place, schema⟩
        (WireValue.sources .plain (Fields.ofList (entries.map Entry.storedField))) document field)
      before (match Entry.find? entries field with
        | some entry => document.insert entry.readField.1 entry.readField.2
        | none => document) before := by
  have hitem : (Fields.ofList (entries.map Entry.storedField)).get? field.name =
      (Entry.find? entries field).map Entry.stored := hentries.get?_ofList Entry.stored hfield
  have hsource := Fields.get?_mapValues
    (fun stored => (⟨stored, stored.reader .plain⟩ : Source σ))
    (Fields.ofList (entries.map Entry.storedField)) field.name
  rw [← WireValue.sources_eq, hitem] at hsource
  cases hfind : Entry.find? entries field with
  | none =>
      rw [hfind] at hsource
      unfold Sources.readAttribute
      rw [hsource]
      exact Pipeline.yields_pure_self
  | some entry =>
      rw [hfind] at hsource
      obtain ⟨hentry, hname⟩ := Entry.name_of_find? hfind
      have hstored := hentries.stored entry hentry
      obtain rfl := hentries.wellFormed.eq_of_name_eq hstored.declared hfield hname
      refine Sources.yields_readAttribute_some hsource ?_
      rw [hstored.types]
      exact hstored.storedAs.read _ before

/-- The document is read entry by entry. -/
theorem read (hentries : EntriesStored scope schema entries) (place : Place) (before : σ) :
    Pipeline.Yields (Sources.read .plain ⟨scope, place, schema⟩
        (WireValue.sources .plain (Fields.ofList (entries.map Entry.storedField))))
      before (entries.map Entry.readField) before := by
  have hsorted : Fields.Sorted (entries.map Entry.readField) := by
    simpa [Fields.Sorted, Entry.given, Entry.readField, List.pairwise_map] using hentries.sorted
  have hdocument : (schema.attributes.filterMap (Entry.find? entries)).foldl
      (fun document entry => Fields.insert entry.readField.1 entry.readField.2 document) [] =
        entries.map Entry.readField := by
    have hordered := hentries.ofList_filterMap Entry.readField (Fields.nodup_of_sorted hsorted)
    rwa [Fields.ofList_of_sorted hsorted, Fields.ofList, List.foldl_map] at hordered
  -- and there is nothing in the item that the schema does not declare
  have hdeclared : ∀ field ∈ WireValue.sources (σ := σ) .plain
      (Fields.ofList (entries.map Entry.storedField)),
      (schema.attribute? field.1).isSome = true := by
    rw [WireValue.sources_eq]
    intro field hfield
    obtain ⟨given, hgiven, rfl⟩ := List.mem_map.mp hfield
    exact hentries.attribute?_of_mem_ofList (f := Entry.stored) hgiven
  have hattributes := Pipeline.yields_foldlM_of_forall
    (fun field hfield document => hentries.readAttribute place before hfield document) []
  apply hattributes.bind
  refine Pipeline.yields_pure.mpr ⟨?_, rfl⟩
  rw [Sources.readUnknown_of_declared hdeclared, ← hdocument, List.foldl_filterMap]
  congr 1
  funext document field
  cases Entry.find? entries field <;> rfl

end EntriesStored

/-! ## The whole document -/

/-- A document that is written as `item` and read from it as `back`. -/
structure DocumentStored (scope : Scope σ) (schema : Schema σ) (fields : List (String × Value))
    (item : Item) (back : Document) : Prop where
  equal : Value.equalFields back fields = true
  score : ∀ place, Score.AtLeast (1 + Value.fieldsSize fields) (Score.average Score.rounded
    (Value.fieldScores Score.rounded ⟨scope, place, schema⟩ fields))
  storedScore : ∀ place, Score.AtLeast (1 + Value.fieldsSize fields) (Score.average Score.rounded
    (WireValue.fieldScores Score.rounded ⟨scope, place, schema⟩ item))
  write : ∀ make now depth place before, Pipeline.Yields
    (Drafts.write make ⟨.plain, now, depth⟩ ⟨scope, place, schema⟩
      (Value.drafts make ⟨.plain, now, depth⟩ fields)) before item before
  read : ∀ place before, Pipeline.Yields
    (Sources.read .plain ⟨scope, place, schema⟩ (WireValue.sources .plain item)) before back before

theorem equalFields_entries {scope : Scope σ} {schema : Schema σ} :
    ∀ {entries : List (Entry σ)}, (∀ entry ∈ entries, entry.Stored scope schema) →
      Value.equalFields (entries.map Entry.readField) (entries.map Entry.given) = true
  | [], _ => rfl
  | entry :: rest, hentries => by
      have hrest : Value.equalFields (rest.map Entry.readField) (rest.map Entry.given) = true :=
        equalFields_entries fun other hother => hentries other (by simp [hother])
      have hequal := (hentries entry (by simp)).storedAs.equal
      simpa [Entry.readField, Entry.given, Value.equalFields, hequal] using hrest

/-- A document is stored if its fields are. -/
theorem EntriesStored.documentStored {scope : Scope σ} {schema : Schema σ}
    {entries : List (Entry σ)} (hentries : EntriesStored scope schema entries)
    (hmemory : Value.fieldsSize (entries.map Entry.given) ≤ 2 ^ 64) :
    DocumentStored scope schema (entries.map Entry.given)
      (Fields.ofList (entries.map Entry.storedField)) (entries.map Entry.readField) := by
  have hsize : Value.fieldsSize (entries.map Entry.given) =
      (entries.map fun entry => entry.value.size).sum := by
    rw [Value.fieldsSize_eq, List.map_map]
    rfl
  have hpos : ∀ size ∈ entries.map fun entry => entry.value.size, 0 < size := by
    intro size hmember
    obtain ⟨entry, -, rfl⟩ := List.mem_map.mp hmember
    exact entry.value.size_pos
  rw [hsize] at hmemory
  refine ⟨equalFields_entries hentries.stored, fun place => ?_, fun place => ?_, hentries.write,
    hentries.read⟩ <;> rw [hsize]
  · exact .average (hentries.scores place fun _ h => h) hpos hmemory
  · have hperm : (Fields.ofList (entries.map Entry.storedField)).Perm
        (entries.map Entry.storedField) :=
      Fields.ofList_perm (by simpa [Entry.storedField, Function.comp_def] using hentries.nodup_names)
    exact .average_perm (hentries.storedScores place fun _ h => h)
      (EntriesStored.fieldScores_perm hperm.symm) hpos hmemory

end ItemMapper
