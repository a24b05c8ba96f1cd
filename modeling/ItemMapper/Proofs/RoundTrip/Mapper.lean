import ItemMapper.Mapper
import ItemMapper.Proofs.RoundTrip.Documents

/-!
# Documents are read back from their items

`Mapper.read_write_plain`: a document of exactly the declared shape is written with the plain
options, and reading the item gives an equal document.

The induction is on the shape (`exists_storedAs`).  What it carries is not only that a value is
stored, but that its types can be reached from the root: this is what makes the type of every item
and field the only candidate.  The scope changes on the way, where a reference to a model is
entered.
-/

namespace ItemMapper

variable {σ : Type}

/-- A document inside another value is stored as a map. -/
theorem DocumentStored.storedAs {scope inner : Scope σ} {type : CandidateType σ} {schema : Schema σ}
    {fields : List (String × Value)} {item : Item} {back : Document}
    (hdocument : DocumentStored inner schema fields item back)
    (hopens : scope.Opens type inner schema) :
    StoredAs scope type (.map fields) (.map item) (.map back) := by
  have hboth : ∀ place, BothRead scope type (.map fields) (.map item) place
      ⟨scope, place, type⟩ := by
    intro place
    obtain ⟨innerPlace, henter⟩ := hopens.enter? place
    refine ⟨Scope.readings_document scope place type, rfl, ?_, ?_⟩
    · simp only [Value.score, Reading.enter?, henter, Value.size]
      exact hdocument.score innerPlace
    · simp only [WireValue.score, Reading.enter?, henter, Value.size]
      exact hdocument.storedScore innerPlace
  refine ⟨hdocument.equal, rfl, fun place => ⟨_, hboth place⟩, ?_, ?_⟩
  · intro make now depth place before
    obtain ⟨innerPlace, henter⟩ := hopens.enter? place
    rw [Value.writer]
    refine Value.yields_writeChosen (hboth place).resolve (by rw [henter]; rfl) ?_
    exact (hdocument.write make now depth innerPlace before).bind Pipeline.yields_pure_self
  · intro place before
    obtain ⟨innerPlace, henter⟩ := hopens.enter? place
    rw [WireValue.reader]
    refine WireValue.yields_readChosen (hboth place).resolveStored (by rw [henter]; rfl) ?_
    exact (hdocument.read innerPlace before).bind Pipeline.yields_pure_self

section Determined

variable {start : Scope σ} (hdetermined : start.Determined)

include hdetermined

/-- A document is stored if the values of its fields are, by their only types. -/
theorem exists_documentStored {inner : Scope σ} {schema : Schema σ}
    {fields : List (String × Value)} (hreaches : start.Reaches inner schema)
    (hsorted : Fields.Sorted fields)
    (hdeclared : ∀ entry ∈ fields, ∃ field ∈ schema.attributes, field.nativeName = entry.1)
    (hvalues : ∀ entry ∈ fields, ∀ field ∈ schema.attributes, field.nativeName = entry.1 →
      ∀ type ∈ field.types, start.Uses inner type → entry.2.size ≤ 2 ^ 64 →
        ∃ stored back, StoredAs inner type entry.2 stored back)
    (hmemory : Value.fieldsSize fields ≤ 2 ^ 64) :
    ∃ item back, DocumentStored inner schema fields item back := by
  have hfields : ∀ given ∈ fields, ∃ field ∈ schema.attributes, field.nativeName = given.1 ∧
      ∃ type, field.types = [type] ∧ ∃ stored back, StoredAs inner type given.2 stored back := by
    intro given hgiven
    obtain ⟨field, hfield, hname⟩ := hdeclared given hgiven
    obtain ⟨type, htypes⟩ := hdetermined.oneType inner schema hreaches field hfield
    have htype : type ∈ field.types := by simp [htypes]
    exact ⟨field, hfield, hname, type, htypes, hvalues given hgiven field hfield hname type htype
      (.attribute hreaches hfield htype) ((Value.size_le_fieldsSize hgiven).trans hmemory)⟩
  -- from here on each field of the document is an entry
  obtain ⟨entries, rfl, hentries⟩ := exists_entries hfields
  have hstored : EntriesStored inner schema entries :=
    ⟨hdetermined.wellFormed inner schema hreaches, hdetermined.nativeNames inner schema hreaches,
      hentries, hsorted⟩
  exact ⟨_, _, hstored.documentStored hmemory⟩

/-- Every value of a shape that can be reached is stored and read back. -/
theorem exists_storedAs {scope : Scope σ} {type : CandidateType σ} {value : Value}
    (hfits : Value.Fits scope type value) :
    start.Uses scope type → value.size ≤ 2 ^ 64 →
      ∃ stored back, StoredAs scope type value stored back := by
  induction hfits with
  | list hitems ih =>
      rename_i scope elements items
      intro huses hmemory
      obtain ⟨element, rfl⟩ := hdetermined.oneElement scope elements huses
      have hsize : Value.itemsSize items ≤ 2 ^ 64 := by
        rw [Value.size] at hmemory
        omega
      obtain ⟨storeds, backs, hstored⟩ := exists_itemsStored fun item hitem =>
        ih item hitem element (by simp) (.element huses (by simp))
          ((Value.size_le_itemsSize hitem).trans hsize)
      exact ⟨_, _, hstored.storedAs hmemory⟩
  | document hopens hsorted hdeclared hvalues ih =>
      intro huses hmemory
      rw [Value.size] at hmemory
      obtain ⟨item, back, hdocument⟩ := exists_documentStored hdetermined (.inside huses hopens)
        hsorted hdeclared ih (by omega)
      exact ⟨_, _, hdocument.storedAs hopens⟩
  | key hmodel hkey htypes hscalar hvalue =>
      exact fun _ hmemory => exists_storedKey hmodel hkey htypes hscalar hvalue hmemory
  | string => exact fun _ hmemory => exists_storedWhole .string (.inl rfl) hmemory
  | number hnumber => exact fun _ hmemory => exists_storedWhole (.number hnumber) (.inl rfl) hmemory
  | binary => exact fun _ hmemory => exists_storedWhole .binary (.inl rfl) hmemory
  | boolean => exact fun _ hmemory => exists_storedWhole .boolean (.inl rfl) hmemory
  | null => exact fun _ hmemory => exists_storedWhole .null (.inl rfl) hmemory
  | date hdate => exact fun _ hmemory => exists_storedWhole (.date hdate) (.inl rfl) hmemory
  | combine => exact fun _ hmemory => exists_storedWhole .combine (.inl rfl) hmemory
  | constant hequal hnatural =>
      exact fun _ hmemory => exists_storedWhole (.constant hequal hnatural) (.inl rfl) hmemory
  | set hkind hne hdistinct hmembers =>
      exact fun _ hmemory =>
        exists_storedWhole (.set hkind hne hdistinct hmembers) (.inr ⟨_, rfl⟩) hmemory

end Determined

/-! ## Items of a mapper -/

/-- A document of exactly the declared shape is written without an application, and an equal
document is read from its item.

The shape of the document is that of a reference to its own schema.  It does not matter which model
the mapper is for, at what time it is used, or what state the application is in, which is left as
it is.  The document has no more values than a machine has addresses, which keeps the rounded
scores that types are chosen by above zero. -/
theorem Mapper.read_write_plain {mapper : Mapper σ} (hdetermined : mapper.scope.Determined)
    {document : Document} (hfits : Value.Fits mapper.scope .self (.map document))
    (hmemory : (Value.map document).size ≤ 2 ^ 64) :
    ∃ item back, Value.equalFields back document = true ∧
      (∀ now depth before,
        Pipeline.Yields (mapper.write ⟨.plain, now, depth⟩ document) before item before) ∧
      ∀ now before, Pipeline.Yields (mapper.read .plain now item) before (some back) before := by
  cases hfits with
  | document hopens hsorted hdeclared hvalues =>
      cases hopens
      rw [Value.size] at hmemory
      obtain ⟨item, back, hdocument⟩ := exists_documentStored hdetermined .root hsorted hdeclared
        (fun entry hentry field hfield hname type htype =>
          exists_storedAs hdetermined (hvalues entry hentry field hfield hname type htype))
        (by omega)
      refine ⟨item, back, hdocument.equal, ?_, ?_⟩
      · exact fun now depth before => hdocument.write _ now depth .root before
      · intro now before
        exact (hdocument.read .root before).bind Pipeline.yields_pure_self

/-! ## Events that refer to events -/

/-- A remark on an event. -/
def SchemaOf.remark : Schema Unit where
  attributes := [.plain "text" [.primitive .string]]
  keepUnknown := .disabled
  timestamps := none

/-- An event holds its remarks and the event that caused it, and refers to the next one by its
key.  The time is stored under a short name. -/
def SchemaOf.event : Schema Unit where
  attributes := [.plain "id" [.primitive .string],
    { AttributeOf.plain "t" [.date .seconds] with nativeAlias := some "time" },
    .plain "tags" [.set (.primitive .string)], .plain "remarks" [.array [.object .remark]],
    .plain "cause" [.self], .plain "next" [.model "Event"]]
  keepUnknown := .disabled
  timestamps := none

theorem SchemaOf.build_remark : build remark.attributes .disabled none = .ok remark :=
  rfl

theorem SchemaOf.build_event : build event.attributes .disabled none = .ok event :=
  rfl

/-- The mapper of the only model, which has the schema `SchemaOf.event`. -/
def Mapper.events : Mapper Unit :=
  ⟨⟨[⟨"Event", .event, none⟩]⟩, ⟨"Event", .event, none⟩⟩

/-- The schemas and types of events. -/
theorem Scope.closed_events : Mapper.events.scope.Closed
    (fun scope schema => scope = Mapper.events.scope ∧ schema ∈ [.event, .remark])
    (fun scope type => scope = Mapper.events.scope ∧
      type ∈ [.primitive .string, .date .seconds, .set (.primitive .string),
        .array [.object .remark], .object .remark, .self, .model "Event"]) where
  root := ⟨rfl, by simp [Mapper.events, Mapper.scope]⟩
  inside := by
    rintro scope type inner schema ⟨rfl, htype⟩ hopens
    cases hopens with
    | object =>
        obtain rfl : schema = .remark := by simpa using htype
        exact ⟨rfl, by simp⟩
    | self => exact ⟨rfl, by simp [Mapper.events, Mapper.scope]⟩
    | model hmodel =>
        obtain rfl := by simpa using htype
        obtain rfl := Option.some.inj hmodel
        exact ⟨rfl, by simp⟩
  field := by
    rintro scope schema ⟨rfl, hschema⟩ field hfield type htype
    refine ⟨rfl, ?_⟩
    rcases List.mem_pair.mp hschema with rfl | rfl
    · simp only [SchemaOf.event, List.mem_cons, List.not_mem_nil, or_false] at hfield
      rcases hfield with rfl | rfl | rfl | rfl | rfl | rfl <;> simp_all [AttributeOf.plain]
    · simp_all [SchemaOf.remark, AttributeOf.plain]
  element := by
    rintro scope elements ⟨rfl, harray⟩ type htype
    refine ⟨rfl, ?_⟩
    obtain rfl : elements = [.object .remark] := by simpa using harray
    simp_all

theorem Mapper.determined_events : events.scope.Determined where
  wellFormed := by
    intro scope schema hreaches
    rcases List.mem_pair.mp (Scope.closed_events.of_reaches hreaches).2 with rfl | rfl
    · exact SchemaOf.wellFormed_of_build SchemaOf.build_event
    · exact SchemaOf.wellFormed_of_build SchemaOf.build_remark
  oneType := by
    intro scope schema hreaches
    rcases List.mem_pair.mp (Scope.closed_events.of_reaches hreaches).2 with rfl | rfl
    · simp [SchemaOf.event, AttributeOf.plain]
    · simp [SchemaOf.remark, AttributeOf.plain]
  oneElement := by
    intro scope elements huses
    have htype := (Scope.closed_events.of_uses huses).2
    exact ⟨.object .remark, by simpa using htype⟩
  nativeNames := by
    intro scope schema hreaches
    rcases List.mem_pair.mp (Scope.closed_events.of_reaches hreaches).2 with rfl | rfl <;> decide

/-- An event with a cause, a successor, a remark and two tags. -/
def Document.event : Document :=
  [("cause", .map [("id", .string "a")]), ("id", .string "b"), ("next", .string "c"),
    ("remarks", .list [.map [("text", .string "late")]]),
    ("tags", .set [.string "x", .string "y"]), ("time", .date .epoch)]

theorem Document.event_fits :
    Value.Fits Mapper.events.scope .self (.map Document.event) := by
  have hevent : (SchemaOf.event.attributes.map AttributeOf.nativeName).Nodup := by decide
  have hremark : (SchemaOf.remark.attributes.map AttributeOf.nativeName).Nodup := by decide
  have hcause : Value.Fits Mapper.events.scope .self (.map [("id", .string "a")]) := by
    refine .document .self (by decide) ?_ ?_ <;> rw [List.forall_mem_singleton]
    · exact ⟨_, .head _, rfl⟩
    · exact Value.fits_of_attribute hevent (.head _) rfl .string
  have hnext : Value.Fits Mapper.events.scope (.model "Event") (.string "c") :=
    .key rfl rfl rfl (.inl ⟨_, rfl⟩) .string
  have hnote : Value.Fits Mapper.events.scope (.object .remark) (.map [("text", .string "late")]) := by
    refine .document .object (by decide) ?_ ?_ <;> rw [List.forall_mem_singleton]
    · exact ⟨_, .head _, rfl⟩
    · exact Value.fits_of_attribute hremark (.head _) rfl .string
  have hremarks : Value.Fits Mapper.events.scope (.array [.object .remark])
      (.list [.map [("text", .string "late")]]) :=
    .list (by simpa using hnote)
  have htags : Value.Fits Mapper.events.scope (.set (.primitive .string))
      (.set [.string "x", .string "y"]) :=
    .set rfl (by simp) (List.pairwise_pair.mpr rfl) (by simpa using ⟨.string, .string⟩)
  have htime : Value.Fits Mapper.events.scope (.date .seconds) (.date .epoch) :=
    .date rfl
  refine .document .self (by decide) (by decide) ?_
  simp only [Document.event, List.forall_mem_cons]
  refine ⟨?_, ?_, ?_, ?_, ?_, ?_, by simp⟩
  · exact Value.fits_of_attribute hevent (.tail _ (.tail _ (.tail _ (.tail _ (.head _))))) rfl hcause
  · exact Value.fits_of_attribute hevent (.head _) rfl .string
  · exact Value.fits_of_attribute hevent
      (.tail _ (.tail _ (.tail _ (.tail _ (.tail _ (.head _)))))) rfl hnext
  · exact Value.fits_of_attribute hevent (.tail _ (.tail _ (.tail _ (.head _)))) rfl hremarks
  · exact Value.fits_of_attribute hevent (.tail _ (.tail _ (.head _))) rfl htags
  · exact Value.fits_of_attribute hevent (.tail _ (.head _)) rfl htime

theorem Mapper.read_write_plain_event :
    ∃ item back, Value.equalFields back Document.event = true ∧
      (∀ now depth before,
        Pipeline.Yields (events.write ⟨.plain, now, depth⟩ Document.event) before item before) ∧
      ∀ now before, Pipeline.Yields (events.read .plain now item) before (some back) before :=
  read_write_plain determined_events Document.event_fits (by decide)

end ItemMapper
