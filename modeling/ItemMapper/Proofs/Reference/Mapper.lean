import ItemMapper.Proofs.Reference.Documents

/-!
# References are compositional

A document that an attribute refers to is written as the model that it refers to writes it, and read
as this model reads it: self references, further references and the patterns of undeclared data mean
there what they mean in the outermost document (`Mapper.references_compositional`).  The outer model
must only leave the attribute alone, which it does not where it sets the attribute to the time of
writing (`Mapper.latest_is_stamped`).
-/

namespace ItemMapper

variable {σ : Type}

open Pipeline

namespace Mapper

variable {mapper target : Mapper σ} {type : CandidateType σ} {field : Attribute σ}

/-- A type refers to the model of the target: to that of the mapper itself, or to another one of the
registry. -/
inductive Refers (mapper : Mapper σ) : CandidateType σ → Mapper σ → Prop
  | self : Refers mapper .self mapper
  | model {name : String} {model : Model σ} (hmodel : mapper.registry.find? name = some model) :
      Refers mapper (.model name) ⟨mapper.registry, model⟩

theorem Refers.enter? (hrefers : mapper.Refers type target) (place : Place) :
    mapper.scope.enter? place type = some ⟨target.scope, place.enter, target.scope.root⟩ := by
  cases hrefers with
  | self => rfl
  | model hmodel =>
      have hfound : mapper.scope.registry.find? _ = some _ := hmodel
      rw [Scope.enter?, hfound]
      rfl

/-- An attribute refers to the target only, and nothing else has a part in its value. -/
structure RefersBy (mapper : Mapper σ) (field : Attribute σ) (target : Mapper σ) : Prop where
  declared : field ∈ mapper.model.schema.attributes
  type : ∃ type, field.types = [type] ∧ mapper.Refers type target
  untouched : field.Untouched

/-- No other data is shown under the native name of the attribute. -/
structure ShowsOnly (mapper : Mapper σ) (field : Attribute σ) (item : Item) : Prop where
  attributes : ∀ other ∈ mapper.model.schema.attributes, other.nativeName = field.nativeName →
    other = field
  undeclared : ∀ value, (field.nativeName, value) ∉ mapper.scope.frame.shown item

theorem RefersBy.combine?_eq_none (hrefers : mapper.RefersBy field target) :
    field.combine? = none := by
  obtain ⟨type, htypes, htype⟩ := hrefers.type
  rw [AttributeOf.combine?, htypes]
  cases htype <;> rfl

theorem RefersBy.text_ne_empty (hschema : mapper.model.schema.WellFormed)
    (hrefers : mapper.RefersBy field target) : (Place.root.child field.name).text ≠ "" := by
  rw [Place.text_child, Place.extend, if_pos (by rfl)]
  exact SchemaOf.ne_empty_of_usable (hschema.usable field hrefers.declared)

theorem RefersBy.exists_write (hschema : mapper.model.schema.WellFormed)
    (hportable : target.scope.Portable) (hrefers : mapper.RefersBy field target)
    {writing : Writing} {document fields : Document} {before after : σ} {item : Item}
    (hcheck : writing.options.typeCheck = true)
    (hunstamped : mapper.model.schema.Unstamped writing.options field.name)
    (hkeys : ∀ entry ∈ fields, entry.1 ≠ "")
    (hgiven : (mapper.model.schema.normalized document).get? field.name = some (.map fields))
    (hrun : Yields (mapper.write writing document) before item after) :
    ∃ first inner last, Yields (target.write writing fields) first inner last ∧
      item.get? field.name = some (.map inner) := by
  obtain ⟨type, htypes, htype⟩ := hrefers.type
  obtain ⟨first, last, hstored⟩ := (Frame.exists_yields_of_given hschema hrefers.declared
    hrefers.untouched.kept hrefers.combine?_eq_none hunstamped hgiven hrun).resolve_left
      fun hundefined => by cases hundefined.1
  rw [htypes] at hstored
  obtain ⟨inner, between, hitem, hinner⟩ :=
    Value.exists_of_yields_writer_map hcheck (htype.enter? _) hstored
  exact ⟨first, inner, between,
    (Frame.yields_write_iff hportable (hrefers.text_ne_empty hschema) hkeys).mpr hinner, hitem⟩

theorem RefersBy.exists_read (hschema : mapper.model.schema.WellFormed)
    (hportable : target.scope.Portable) (hrefers : mapper.RefersBy field target)
    {options : MarshalOptions} {now : Instant} {item fields : Item} {document : Document}
    {before after : σ} (hcheck : options.typeCheck = true) (hexpiry : options.checkExpiry = false)
    (hkeys : ∀ entry ∈ fields, entry.1 ≠ "")
    (hstored : item.get? field.name = some (.map fields)) (honly : mapper.ShowsOnly field item)
    (hrun : Yields (mapper.read options now item) before (some document) after) :
    ∃ first inner last, Yields (target.read options now fields) first (some inner) last ∧
      document.get? field.nativeName = some (.map inner) := by
  rw [yields_read_of_unchecked hexpiry, Frame.read_eq] at hrun
  obtain ⟨loaded, _, hloaded, hdocument⟩ := yields_bind.mp hrun
  obtain ⟨rfl, -⟩ := yields_pure.mp hdocument
  obtain ⟨_, _, _, value, first, last, -, -, hvalue, hmem⟩ :=
    hloaded.exists_of_mem_mapM hrefers.declared
  obtain ⟨type, htypes, htype⟩ := hrefers.type
  obtain ⟨_, rfl, hreader⟩ :=
    Frame.exists_yields_reader hrefers.untouched.noReadModifiers hstored hvalue
  rw [htypes] at hreader
  obtain ⟨inner, rfl, hinner⟩ :=
    WireValue.exists_of_yields_reader_map hcheck (htype.enter? _) hreader
  refine ⟨first, inner, last, (yields_read_of_unchecked hexpiry).mpr
    ((Frame.yields_read_iff hportable (hrefers.text_ne_empty hschema) hkeys).mpr hinner), ?_⟩
  have hentry := Frame.get?_entries hloaded.length_eq (hschema.distinct.of_map _) hmem
    honly.attributes
  have hshown : (Fields.ofList (mapper.scope.frame.shown item)).get? field.nativeName = none :=
    Option.eq_none_iff_forall_ne_some.mpr fun other hother =>
      honly.undeclared other (Fields.mem_of_get?_ofList hother)
  rw [Fields.get?_ofList_append, hentry, hshown]
  rfl

/-- Let an attribute refer to the model of a target only, and let neither defaults nor functions of
the application have a part in its value.  Where a document has a document there, and the time of
writing does not take its place, the mapper writes what the target writes for the inner document.
Where an item has a map there, and nothing else is shown in its place, the mapper reads what the
target reads from the map.  The functions for other attributes may have changed the state of the
application before. -/
theorem references_compositional (hschema : mapper.model.schema.WellFormed)
    (hportable : target.scope.Portable) (hrefers : mapper.RefersBy field target) :
    (∀ writing document fields before item after, writing.options.typeCheck = true →
      mapper.model.schema.Unstamped writing.options field.name →
      (∀ entry ∈ fields, entry.1 ≠ "") →
      (mapper.model.schema.normalized document).get? field.name = some (.map fields) →
      Yields (mapper.write writing document) before item after →
        ∃ first inner last, Yields (target.write writing fields) first inner last ∧
          item.get? field.name = some (.map inner)) ∧
    ∀ options now item fields before document after, options.typeCheck = true →
      options.checkExpiry = false → (∀ entry ∈ fields, entry.1 ≠ "") →
      item.get? field.name = some (.map fields) → mapper.ShowsOnly field item →
      Yields (mapper.read options now item) before (some document) after →
        ∃ first inner last, Yields (target.read options now fields) first (some inner) last ∧
          document.get? field.nativeName = some (.map inner) := by
  constructor
  · intro writing document fields before item after hcheck hunstamped hkeys hgiven hrun
    exact hrefers.exists_write hschema hportable hcheck hunstamped hkeys hgiven hrun
  · intro options now item fields before document after hcheck hexpiry hkeys hstored honly hrun
    exact hrefers.exists_read hschema hportable hcheck hexpiry hkeys hstored honly hrun

end Mapper

/-! ## Pages and their revisions -/

/-- Revisions of pages, with replies, which are revisions as well, and with notes. -/
def SchemaOf.revision : Schema Unit where
  attributes := [{ AttributeOf.plain "at" [.date .seconds] with key := some .hash },
    .plain "by" [.primitive .string], .plain "page" [.model "Page"],
    .plain "replies" [.array [.self]]]
  keepUnknown := .matching ["notes.*"]
  timestamps := none

/-- The attribute with the latest revision of a page. -/
def AttributeOf.latest : Attribute Unit :=
  .plain "latest" [.model "Revision"]

/-- Pages, of which one attribute is set to the time of writing. -/
def SchemaOf.page (stamped : String) : Schema Unit where
  attributes := [.plain "id" [.primitive .string], .plain "changed" [.date .seconds], .latest]
  keepUnknown := .disabled
  timestamps := some ⟨none, some stamped, .seconds⟩

def Registry.pages (stamped : String) : Registry Unit :=
  ⟨[⟨"Page", .page stamped, none⟩, ⟨"Revision", .revision, none⟩]⟩

def Mapper.pages (stamped : String) : Mapper Unit :=
  ⟨.pages stamped, ⟨"Page", .page stamped, none⟩⟩

def Mapper.revisions (stamped : String) : Mapper Unit :=
  ⟨.pages stamped, ⟨"Revision", .revision, none⟩⟩

theorem Mapper.refersBy_latest (stamped : String) :
    (pages stamped).RefersBy .latest (revisions stamped) where
  declared := by simp [pages, SchemaOf.page]
  type := ⟨_, rfl, .model rfl⟩
  untouched := ⟨rfl, rfl, rfl⟩

/-- The latest revision refers to a model with a date as hash key, and takes the time of writing for
such a key. -/
theorem Mapper.latest_is_stamped :
    (pages "latest").RefersBy .latest (revisions "latest") ∧
    Yields ((pages "latest").write ⟨.save, .epoch, 0⟩
        [("id", .string "1"), ("latest", .map [("at", .number (.ofInt 5000))])]) ()
      [("id", .string "1"), ("latest", .number "0")] () ∧
    Yields ((revisions "latest").write ⟨.save, .epoch, 0⟩ [("at", .number (.ofInt 5000))]) ()
      [("at", .number "5")] () :=
  ⟨refersBy_latest "latest", yields_of_value? (by decide +kernel), yields_of_value? (by decide +kernel)⟩

/-- The types in pages and in revisions. -/
def CandidateType.ofPages : List (CandidateType Unit) :=
  [.primitive .string, .date .seconds, .model "Revision", .model "Page", .array [.self], .self]

theorem Registry.find?_pages {stamped name : String} {model : Model Unit}
    (hmodel : (pages stamped).find? name = some model) :
    model = ⟨"Page", .page stamped, none⟩ ∨ model = ⟨"Revision", .revision, none⟩ := by
  have hmem := List.mem_of_find?_eq_some hmodel
  simpa [pages] using hmem

theorem CandidateType.mem_ofPages {stamped : String} {schema : Schema Unit}
    (hschema : schema = .revision ∨ schema = .page stamped) {field : Attribute Unit}
    (hfield : field ∈ schema.attributes) {type : CandidateType Unit} (htype : type ∈ field.types) :
    type ∈ ofPages := by
  rcases hschema with rfl | rfl <;>
    simp only [SchemaOf.revision, SchemaOf.page, List.mem_cons, List.not_mem_nil, or_false] at hfield
  · rcases hfield with rfl | rfl | rfl | rfl <;> simp_all [AttributeOf.plain, ofPages]
  · rcases hfield with rfl | rfl | rfl <;> simp_all [AttributeOf.plain, AttributeOf.latest, ofPages]

theorem Scope.closed_revisions (stamped : String) : (Mapper.revisions stamped).scope.Closed
    (fun scope schema => scope.registry = .pages stamped ∧ scope.root = schema ∧
      (schema = .revision ∨ schema = .page stamped))
    (fun scope type => scope.registry = .pages stamped ∧
      (scope.root = .revision ∨ scope.root = .page stamped) ∧ type ∈ CandidateType.ofPages) where
  root := ⟨rfl, rfl, .inl rfl⟩
  inside := by
    rintro scope type inner schema ⟨hregistry, hroot, htype⟩ hopens
    cases hopens with
    | object => simp [CandidateType.ofPages] at htype
    | self => exact ⟨hregistry, rfl, hroot⟩
    | model hmodel =>
        rw [hregistry] at hmodel
        rcases Registry.find?_pages hmodel with rfl | rfl
        · exact ⟨hregistry, rfl, .inr rfl⟩
        · exact ⟨hregistry, rfl, .inl rfl⟩
  field := by
    rintro scope schema ⟨hregistry, rfl, hroot⟩ field hfield type htype
    exact ⟨hregistry, hroot, CandidateType.mem_ofPages hroot hfield htype⟩
  element := by
    rintro scope elements ⟨hregistry, hroot, harray⟩ type htype
    exact ⟨hregistry, hroot, by simp_all [CandidateType.ofPages]⟩

/-- Hash keys are dates of revisions and texts of pages. -/
theorem Scope.portable_revisions (stamped : String) : (Mapper.revisions stamped).scope.Portable where
  wellFormed := SchemaOf.wellFormed_of_build (show SchemaOf.build SchemaOf.revision.attributes
    SchemaOf.revision.keepUnknown none = .ok .revision from rfl)
  scalarSets := by
    intro scope element huses
    have hset := ((Scope.closed_revisions stamped).of_uses huses).2.2
    simp [CandidateType.ofPages] at hset
  keys := by
    intro scope name model field elements huses hmodel hkey harray
    rw [((Scope.closed_revisions stamped).of_uses huses).1] at hmodel
    rcases Registry.find?_pages hmodel with rfl | rfl
    · obtain rfl : AttributeOf.plain "id" [.primitive .string] = field := Option.some.inj hkey
      simp [AttributeOf.plain] at harray
    · obtain rfl : { AttributeOf.plain "at" [.date .seconds] with key := some .hash } = field :=
        Option.some.inj hkey
      simp [AttributeOf.plain] at harray

theorem Mapper.showsOnly_latest (stamped : String) (item : Item) :
    (pages stamped).ShowsOnly .latest item where
  attributes := by
    intro other hother hname
    simp only [pages, SchemaOf.page, List.mem_cons, List.not_mem_nil, or_false] at hother
    rcases hother with rfl | rfl | rfl
    · exact absurd hname (by decide)
    · exact absurd hname (by decide)
    · rfl
  undeclared := Frame.not_mem_shown (refersBy_latest stamped).declared rfl

/-- A revision of a page, with a reply, notes on both, and a mark that is not kept. -/
def Document.revision : Document :=
  [("at", .date .epoch), ("by", .string "Ada"), ("draft", .bool true),
    ("notes", .map [("first", .string "new")]), ("page", .map [("id", .string "2")]),
    ("replies", .list [.map [("by", .string "Eve"), ("notes", .map [("first", .string "yes")])]])]

/-- The page in the revision has got the time of writing. -/
def Item.revision : Item :=
  [("at", .number "0"), ("by", .string "Ada"), ("notes", .map [("first", .string "new")]),
    ("page", .map [("changed", .number "0"), ("id", .string "2")]),
    ("replies", .list [.map [("by", .string "Eve"), ("notes", .map [("first", .string "yes")])]])]

/-- A page with this revision. -/
def Item.page : Item :=
  [("changed", .number "0"), ("id", .string "1"), ("latest", .map Item.revision)]

theorem Mapper.references_compositional_pages :
    (SchemaOf.page "changed").WellFormed ∧ (revisions "changed").scope.Portable ∧
      (pages "changed").RefersBy .latest (revisions "changed") ∧
      Yields ((revisions "changed").write ⟨.save, .epoch, 0⟩ Document.revision) ()
        Item.revision () ∧
      ∃ document inner, Yields ((pages "changed").read .plain .epoch Item.page) () (some document) () ∧
        Yields ((revisions "changed").read .plain .epoch Item.revision) () (some inner) () ∧
          document.get? "latest" = some (.map inner) := by
  have hschema : (SchemaOf.page "changed").WellFormed :=
    SchemaOf.wellFormed_of_build (show SchemaOf.build (SchemaOf.page "changed").attributes
      .disabled (SchemaOf.page "changed").timestamps = .ok (.page "changed") from rfl)
  have hportable := Scope.portable_revisions "changed"
  have hrefers := refersBy_latest "changed"
  have hunstamped : (SchemaOf.page "changed").Unstamped .save "latest" := by
    refine .inr fun stamps hstamps => ?_
    obtain rfl := Option.some.inj hstamps
    decide
  have hwrite : Yields ((pages "changed").write ⟨.save, .epoch, 0⟩
      [("id", .string "1"), ("latest", .map Document.revision)]) () .page () :=
    yields_of_value? (by decide +kernel)
  have hread : ((pages "changed").read .plain .epoch Item.page).value?.join.isSome = true := by
    decide +kernel
  obtain ⟨document, hdocument⟩ := Option.isSome_iff_exists.mp hread
  have hpage := yields_of_value? (Option.join_eq_some_iff.mp hdocument)
  obtain ⟨hwritten, hshown⟩ := references_compositional hschema hportable hrefers
  obtain ⟨⟨⟩, item, ⟨⟩, hitem, hstored⟩ := hwritten ⟨.save, .epoch, 0⟩ _ Document.revision () .page
    () rfl hunstamped (by decide) rfl hwrite
  obtain ⟨⟨⟩, inner, ⟨⟩, hinner, hseen⟩ := hshown .plain .epoch .page Item.revision () document ()
    rfl rfl (by decide) rfl (showsOnly_latest "changed" .page) hpage
  obtain rfl : Item.revision = item := WireValue.map.inj (Option.some.inj hstored)
  exact ⟨hschema, hportable, hrefers, hitem, document, inner, hpage, hinner, hseen⟩

end ItemMapper
