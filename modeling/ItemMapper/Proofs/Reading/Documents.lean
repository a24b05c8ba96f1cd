import ItemMapper.Proofs.Plain.Paths
import ItemMapper.Proofs.Plain.Reading
import ItemMapper.Proofs.Typing.Apart

/-!
# What a document shows of its item

Reading an item runs through the attributes in the order of the schema and then adds what is shown
of the undeclared data (`Frame.read_eq`).  The first part goes by native names and the second one
by stored names, and both name the same fields of the document.  So undeclared data that is stored
under the alias of an attribute takes the place of the attribute in the document:
`Frame.get?_nativeName_iff` says that an attribute is seen exactly if nothing else is shown under
its native name.  Where an attribute has no alias this can not happen, because then its native name
is declared.

`Frame.Nests` follows the reading into the documents inside of an item, through lists as well.
Whatever has been read from the outermost item, `Mapper.shows_attribute_iff` says what each of
these documents shows, with all options and functions of the application.
-/

namespace ItemMapper

variable {σ α β : Type}

open Pipeline

/-! ## Steps in a run over a list -/

theorem Pipeline.Yields.length_eq {step : α → Pipeline σ β} {items : List α} {values : List β}
    {before after : σ} (hrun : Yields (items.mapM step) before values after) :
    items.length = values.length := by
  have hall : List.Forall₂ (fun _ _ => True) items values :=
    hrun.forall₂_mapM fun _ _ _ _ _ => trivial
  exact hall.length_eq

/-- A run over a list reaches each item after the items before it. -/
theorem Pipeline.Yields.exists_of_mem_mapM {step : α → Pipeline σ β} {items : List α}
    {values : List β} {before after : σ} (hrun : Yields (items.mapM step) before values after)
    {item : α} (hitem : item ∈ items) :
    ∃ earlier later firsts value between next, items = earlier ++ item :: later ∧
      Yields (earlier.mapM step) before firsts between ∧ Yields (step item) between value next ∧
      (item, value) ∈ items.zip values := by
  induction items generalizing values before with
  | nil => simp at hitem
  | cons first rest ih =>
      obtain ⟨value, between, others, hvalue, hothers, rfl⟩ := yields_mapM_cons.mp hrun
      rcases List.mem_cons.mp hitem with rfl | hitem
      · exact ⟨[], rest, [], value, before, between, rfl, yields_mapM_nil.mpr ⟨rfl, rfl⟩, hvalue,
          by simp⟩
      · obtain ⟨earlier, later, firsts, found, middle, next, rfl, hearlier, hfound, hmem⟩ :=
          ih hothers hitem
        exact ⟨first :: earlier, later, value :: firsts, found, middle, next, rfl,
          yields_mapM_cons.mpr ⟨_, _, _, hvalue, hearlier, rfl⟩, hfound, by simp [hmem]⟩

/-! ## Attribute by attribute -/

namespace Frame

variable {frame inner : Frame σ} {options : MarshalOptions} {item nested : Item}
  {document : Document} {field : Attribute σ} {before after : σ}

/-- What is read for an attribute: its stored value, decoded and modified. -/
def readField (frame : Frame σ) (options : MarshalOptions) (item : Item) (field : Attribute σ) :
    Pipeline σ (Option Value) :=
  match item.get? field.name with
  | none => pure none
  | some stored => do
    let place := frame.place.child field.name
    let value ← stored.reader options frame.scope place field.types
    if options.modifiers then some <$> applyModifiers field.readModifiers place.text value
    else pure (some value)

theorem readAttribute_eq (frame : Frame σ) (options : MarshalOptions) (item : Item)
    (document : Document) (field : Attribute σ) :
    Sources.readAttribute options frame (WireValue.sources options item) document field = do
      let value ← frame.readField options item field
      return value.elim document fun value => document.insert field.nativeName value := by
  have hsource := Fields.get?_mapValues
    (fun stored => (⟨stored, stored.reader options⟩ : Source σ)) item field.name
  rw [← WireValue.sources_eq] at hsource
  unfold Sources.readAttribute readField
  rw [hsource]
  cases item.get? field.name with
  | none => simp
  | some stored => cases options.modifiers <;> simp

/-- The attributes are read one after another, and each one that is stored is put under its native
name. -/
theorem foldlM_readAttribute (frame : Frame σ) (options : MarshalOptions) (item : Item)
    (attributes : List (Attribute σ)) :
    ∀ document, attributes.foldlM
        (Sources.readAttribute options frame (WireValue.sources options item)) document = do
      let loaded ← attributes.mapM (frame.readField options item)
      return (entries attributes loaded).foldl
        (fun fields field => Fields.insert field.1 field.2 fields) document := by
  induction attributes with
  | nil => simp [entries]
  | cons field rest ih =>
      intro document
      rw [List.foldlM_cons, readAttribute_eq, List.mapM_cons]
      simp only [ih, bind_assoc, pure_bind]
      refine congrArg _ (funext fun value => congrArg _ (funext fun loaded => ?_))
      cases value <;> simp [entries]

/-- The document lists the attributes and then what is shown of the undeclared data. -/
theorem read_eq (frame : Frame σ) (options : MarshalOptions) (item : Item) :
    frame.read options item = do
      let loaded ← frame.schema.attributes.mapM (frame.readField options item)
      return Fields.ofList (entries frame.schema.attributes loaded ++ frame.shown item) := by
  simp only [read, Sources.read, foldlM_readAttribute, foldl_readUnknown, bind_assoc, pure_bind,
    Fields.ofList, List.foldl_append]

/-- In the reading that starts in this state, this is what is decoded and modified for an
attribute, after the attributes before it. -/
def Decodes (frame : Frame σ) (options : MarshalOptions) (item : Item) (before : σ)
    (field : Attribute σ) (value : Value) : Prop :=
  ∃ earlier later loaded between next, frame.schema.attributes = earlier ++ field :: later ∧
    Yields (earlier.mapM (frame.readField options item)) before loaded between ∧
    Yields (frame.readField options item field) between (some value) next

/-- Every stored attribute is decoded. -/
theorem exists_of_readField {stored : WireValue} {value : Option Value}
    (hstored : item.get? field.name = some stored)
    (hrun : Yields (frame.readField options item field) before value after) :
    ∃ decoded, value = some decoded := by
  simp only [readField, hstored, yields_bind] at hrun
  obtain ⟨_, _, -, hmodified⟩ := hrun
  split at hmodified
  case isTrue =>
    rw [map_eq_pure_bind, yields_bind] at hmodified
    obtain ⟨decoded, _, -, hsame⟩ := hmodified
    exact ⟨decoded, (yields_pure.mp hsame).1.symm⟩
  case isFalse => exact ⟨_, (yields_pure.mp hmodified).1.symm⟩

/-! ## Attributes and undeclared data -/

theorem mem_entries_iff {attributes : List (Attribute σ)} {loaded : List (Option Value)}
    {key : String} {value : Value} : (key, value) ∈ entries attributes loaded ↔
      ∃ field, (field, some value) ∈ attributes.zip loaded ∧ field.nativeName = key := by
  simp only [entries, List.mem_filterMap, Option.map_eq_some_iff, Prod.mk.injEq, Prod.exists]
  constructor
  · rintro ⟨field, _, hmem, _, rfl, rfl, rfl⟩
    exact ⟨field, hmem, rfl⟩
  · rintro ⟨field, hmem, rfl⟩
    exact ⟨field, some value, hmem, value, rfl, rfl, rfl⟩

/-- What is found under the native name of an attribute that no other one has. -/
theorem get?_entries {attributes : List (Attribute σ)} {loaded : List (Option Value)}
    {value : Option Value} (hlength : attributes.length = loaded.length)
    (hdistinct : attributes.Nodup) (hloaded : (field, value) ∈ attributes.zip loaded)
    (honly : ∀ other ∈ attributes, other.nativeName = field.nativeName → other = field) :
    (Fields.ofList (entries attributes loaded)).get? field.nativeName = value := by
  rw [← List.map_fst_zip hlength.le] at hdistinct
  have hunique : ∀ other, (field.nativeName, other) ∈ entries attributes loaded →
      value = some other := by
    intro other hother
    obtain ⟨found, hfound, hname⟩ := mem_entries_iff.mp hother
    obtain rfl := honly found (List.of_mem_zip hfound).1 hname
    exact (Prod.ext_iff.mp (List.inj_on_of_nodup_map hdistinct hloaded hfound rfl)).2
  cases value with
  | none =>
      refine Option.eq_none_iff_forall_ne_some.mpr fun other hother => ?_
      cases hunique other (Fields.mem_of_get?_ofList hother)
  | some value =>
      refine Fields.get?_ofList_of_mem (mem_entries_iff.mpr ⟨field, hloaded, rfl⟩) ?_
      exact fun other hother => (Option.some.inj (hunique other hother)).symm

theorem nodup_shown (hitem : Fields.Sorted item) : ((frame.shown item).map Prod.fst).Nodup := by
  have hstored := ((Fields.nodup_of_sorted hitem).sublist
    ((List.filter_sublist (p := fun field => (frame.schema.attribute? field.1).isNone)).map _))
  refine hstored.sublist (sublist_of_filterMap (fun stored entry hentry => ?_) _)
  obtain ⟨_, -, rfl⟩ := Option.map_eq_some_iff.mp hentry
  rfl

/-- A stored attribute has been decoded, and the document has this value under the native name of
the attribute exactly if nothing else is shown there. -/
theorem get?_nativeName_iff (hnames : (frame.schema.attributes.map AttributeOf.nativeName).Nodup)
    (hitem : Fields.Sorted item) (hrun : Yields (frame.read options item) before document after)
    (hfield : field ∈ frame.schema.attributes) {stored : WireValue}
    (hstored : item.get? field.name = some stored) :
    ∃ value, frame.Decodes options item before field value ∧
      (document.get? field.nativeName = some value ↔
        ∀ other, (field.nativeName, other) ∈ frame.shown item → other = value) := by
  rw [read_eq, yields_bind] at hrun
  obtain ⟨loaded, _, hloaded, hdocument⟩ := hrun
  obtain ⟨rfl, -⟩ := yields_pure.mp hdocument
  obtain ⟨earlier, later, firsts, found, between, next, hsplit, hearlier, hfound, hmem⟩ :=
    hloaded.exists_of_mem_mapM hfield
  obtain ⟨value, rfl⟩ := exists_of_readField hstored hfound
  refine ⟨value, ⟨earlier, later, firsts, between, next, hsplit, hearlier, hfound⟩, ?_⟩
  have hentry := get?_entries hloaded.length_eq (hnames.of_map _) hmem fun other hother hname =>
    List.inj_on_of_nodup_map hnames hother hfield hname
  -- what is shown comes later
  simp only [Fields.get?_ofList_append, hentry,
    ← Fields.get?_ofList_eq_some_iff (nodup_shown hitem)]
  cases (Fields.ofList (frame.shown item)).get? field.nativeName <;> simp

/-- The name of an attribute without alias is declared, so nothing else is shown under it. -/
theorem not_mem_shown (hfield : field ∈ frame.schema.attributes) (hplain : field.nativeAlias = none)
    (value : Value) : (field.nativeName, value) ∉ frame.shown item := by
  intro hshown
  have hundeclared := (mem_shown.mp hshown).1
  rw [SchemaOf.attribute?, List.find?_eq_none] at hundeclared
  exact hundeclared field hfield (by simp [AttributeOf.nativeName, hplain])

end Frame

/-! ## Documents inside of an item -/

/-- Reading a stored value at some place as one of some types leads to a document. -/
inductive WireValue.Enters :
    Scope σ → Place → List (CandidateType σ) → WireValue → Frame σ → Item → Prop
  | document {scope : Scope σ} {place : Place} {types : List (CandidateType σ)} {fields : Item}
      {choice : Choice σ} {frame : Frame σ}
      (hchoice : scope.resolveStored place types (.map fields) = .ok choice)
      (henter : scope.enter? place choice.type = some frame) :
      Enters scope place types (.map fields) frame fields
  | item {scope : Scope σ} {place : Place} {types elements : List (CandidateType σ)}
      {items : List WireValue} {index : Nat} {stored : WireValue} {fields : Item}
      {choice : Choice σ} {frame : Frame σ}
      (hchoice : scope.resolveStored place types (.list items) = .ok choice)
      (harray : choice.type = .array elements) (hitem : items[index]? = some stored)
      (henters : Enters scope (place.item index) elements stored frame fields) :
      Enters scope place types (.list items) frame fields

/-- Reading the outer item leads to the inner one, at any depth. -/
inductive Frame.Nests : Frame σ → Item → Frame σ → Item → Prop
  | here {frame : Frame σ} {item : Item} : Nests frame item frame item
  | inside {frame next inner : Frame σ} {item fields nested : Item} {field : Attribute σ}
      {stored : WireValue} (hfield : field ∈ frame.schema.attributes)
      (hstored : item.get? field.name = some stored)
      (henters : stored.Enters frame.scope (frame.place.child field.name) field.types next fields)
      (hnests : Nests next fields inner nested) : Nests frame item inner nested

namespace WireValue

variable {start scope : Scope σ} {place : Place} {types elements : List (CandidateType σ)}
  {stored : WireValue} {frame : Frame σ} {fields : Item} {options : MarshalOptions}
  {before after : σ}

theorem wellFormed_of_mem {fields : Item} {field : String × WireValue}
    (hformed : FieldsWellFormed fields) (hfield : field ∈ fields) : field.2.WellFormed := by
  induction fields with
  | nil => simp at hfield
  | cons first rest ih =>
      rcases List.mem_cons.mp hfield with rfl | hrest
      · exact hformed.1
      · exact ih hformed.2 hrest

theorem wellFormed_of_mem_items {items : List WireValue} (hformed : AllWellFormed items)
    (hitem : stored ∈ items) : stored.WellFormed := by
  induction items with
  | nil => simp at hitem
  | cons first rest ih =>
      rcases List.mem_cons.mp hitem with rfl | hrest
      · exact hformed.1
      · exact ih hformed.2 hrest

theorem Enters.wellFormed (henters : stored.Enters scope place types frame fields)
    (hformed : stored.WellFormed) : (WireValue.map fields).WellFormed := by
  induction henters with
  | document => exact hformed
  | item _ _ hitem _ ih => exact ih (wellFormed_of_mem_items hformed (List.mem_of_getElem? hitem))

theorem Enters.reaches (henters : stored.Enters scope place types frame fields)
    (huses : ∀ type ∈ types, start.Uses scope type) : start.Reaches frame.scope frame.schema := by
  induction henters with
  | document hchoice henter =>
      exact .inside (huses _ (Scope.mem_of_resolveStored hchoice)) (Scope.opens_of_enter? henter)
  | item hchoice harray _ _ ih =>
      have harrayUsed := huses _ (Scope.mem_of_resolveStored hchoice)
      rw [harray] at harrayUsed
      exact ih fun type htype => .element harrayUsed htype

/-- Where the type is known, the value is read inside. -/
theorem yields_readChosen_inside {choice : Choice σ} {nested : Pipeline σ Value}
    {inside : CandidateType σ → Option (Pipeline σ Value)} {value : Value}
    (hchoice : scope.resolveStored place types stored = .ok choice)
    (hinside : inside choice.type = some nested)
    (hrun : Yields (stored.readChosen options scope place types inside) before value after) :
    Yields nested before value after := by
  simpa only [readChosen, hchoice, hinside] using hrun

/-- Every item of a list is read. -/
theorem exists_yields_of_readItems {items : List WireValue} {earlier index : Nat}
    {values : List Value} (hitem : items[index]? = some stored)
    (hrun : Yields (WireValue.readItems options scope place elements earlier items) before values
      after) :
    ∃ first value last,
      Yields (stored.reader options scope (place.item (earlier + index)) elements) first value
        last := by
  induction items generalizing earlier index values before after with
  | nil => simp at hitem
  | cons item rest ih =>
      simp only [WireValue.readItems, yields_bind] at hrun
      obtain ⟨value, between, hvalue, others, _, hothers, -⟩ := hrun
      cases index with
      | zero =>
          obtain rfl : item = stored := by simpa using hitem
          exact ⟨_, _, _, hvalue⟩
      | succ index =>
          obtain ⟨first, value, last, hfound⟩ := ih (by simpa using hitem) hothers
          exact ⟨first, value, last, by rwa [Nat.add_right_comm, Nat.add_assoc] at hfound⟩

/-- The document is read on the way. -/
theorem Enters.exists_yields (henters : stored.Enters scope place types frame fields) :
    ∀ {value : Value} {before after : σ},
      Yields (stored.reader options scope place types) before value after →
      ∃ first document last, Yields (frame.read options fields) first document last := by
  induction henters with
  | document hchoice henter =>
      intro value before after hrun
      simp only [WireValue.reader] at hrun
      have hnested := yields_readChosen_inside hchoice (by rw [henter, Option.map_some]) hrun
      obtain ⟨document, last, hdocument, -⟩ := yields_bind.mp hnested
      exact ⟨_, document, last, hdocument⟩
  | item hchoice harray hitem _ ih =>
      intro value before after hrun
      simp only [WireValue.reader] at hrun
      have hnested := yields_readChosen_inside hchoice (by rw [harray]) hrun
      obtain ⟨values, last, hvalues, -⟩ := yields_bind.mp hnested
      obtain ⟨_, _, _, hfound⟩ := exists_yields_of_readItems hitem hvalues
      rw [Nat.zero_add] at hfound
      exact ih hfound

end WireValue

namespace Frame.Nests

variable {start : Scope σ} {frame inner : Frame σ} {item nested : Item} {options : MarshalOptions}

theorem wellFormed (hnests : frame.Nests item inner nested)
    (hformed : (WireValue.map item).WellFormed) : (WireValue.map nested).WellFormed := by
  induction hnests with
  | here => exact hformed
  | inside _ hstored henters _ ih =>
      have hpart := WireValue.wellFormed_of_mem hformed.2 (Fields.mem_of_get? hstored)
      exact ih (henters.wellFormed hpart)

theorem reaches (hnests : frame.Nests item inner nested)
    (hreaches : start.Reaches frame.scope frame.schema) :
    start.Reaches inner.scope inner.schema := by
  induction hnests with
  | here => exact hreaches
  | inside hfield _ henters _ ih =>
      exact ih (henters.reaches fun type htype => .attribute hreaches hfield htype)

/-- Every document inside of an item that is read is read itself. -/
theorem exists_yields (hnests : frame.Nests item inner nested) :
    ∀ {document : Document} {before after : σ},
      Yields (frame.read options item) before document after →
      ∃ first document last, Yields (inner.read options nested) first document last := by
  induction hnests with
  | here => exact fun hrun => ⟨_, _, _, hrun⟩
  | inside hfield hstored henters _ ih =>
      intro document before after hrun
      rw [read_eq, yields_bind] at hrun
      obtain ⟨loaded, _, hloaded, -⟩ := hrun
      obtain ⟨_, _, _, _, _, _, -, -, hfound, -⟩ := hloaded.exists_of_mem_mapM hfield
      simp only [readField, hstored, yields_bind] at hfound
      obtain ⟨_, _, hvalue, -⟩ := hfound
      obtain ⟨_, _, _, hinner⟩ := henters.exists_yields hvalue
      exact ih hinner

end Frame.Nests

/-! ## Mappers -/

/-- Let a mapper, with any options, read a document from an item, and let native names differ.
Every item inside of the item is read as well, and whatever document it is read as: a stored
attribute of it has been decoded, and stands in the document under its native name exactly if
nothing else is shown there of the undeclared data.  If the attribute has no alias, it always
does. -/
theorem Mapper.shows_attribute_iff {mapper : Mapper σ} {options : MarshalOptions} {now : Instant}
    {item : Item} {document : Document} {before after : σ}
    (hnames : ∀ scope schema, mapper.scope.Reaches scope schema →
      (schema.attributes.map AttributeOf.nativeName).Nodup)
    (hitem : (WireValue.map item).WellFormed)
    (hread : Yields (mapper.read options now item) before (some document) after) :
    Yields (mapper.scope.frame.read options item) before document after ∧
      ∀ inner nested, mapper.scope.frame.Nests item inner nested →
        (∃ first result last, Yields (inner.read options nested) first result last) ∧
        ∀ first result last, Yields (inner.read options nested) first result last →
          ∀ field ∈ inner.schema.attributes, ∀ stored, nested.get? field.name = some stored →
            ∃ value, inner.Decodes options nested first field value ∧
              (result.get? field.nativeName = some value ↔
                ∀ other, (field.nativeName, other) ∈ inner.shown nested → other = value) ∧
              (field.nativeAlias = none → result.get? field.nativeName = some value) := by
  have hrun : Yields (mapper.scope.frame.read options item) before document after := by
    obtain ⟨found, _, hfound, hsame⟩ := yields_bind.mp hread
    obtain ⟨hsome, rfl⟩ := yields_pure.mp hsame
    split at hsome
    · cases hsome
    · exact Option.some.inj hsome ▸ hfound
  refine ⟨hrun, fun inner nested hnests => ⟨hnests.exists_yields hrun, ?_⟩⟩
  intro first result last hresult field hfield stored hstored
  obtain ⟨value, hvalue, hiff⟩ := Frame.get?_nativeName_iff (hnames _ _ (hnests.reaches .root))
    (hnests.wellFormed hitem).1 hresult hfield hstored
  refine ⟨value, hvalue, hiff, fun hplain => hiff.mpr fun other hother => ?_⟩
  exact absurd hother (Frame.not_mem_shown hfield hplain other)

/-! ## Titles that are called names -/

/-- The title of a book is its name for the application, and all undeclared data is kept. -/
def SchemaOf.book : Schema Unit where
  attributes := [.plain "id" [.primitive .string],
    { AttributeOf.plain "title" [.primitive .string] with nativeAlias := some "name" }]
  keepUnknown := .everything
  timestamps := none

theorem SchemaOf.build_book : build book.attributes .everything none = .ok book :=
  rfl

/-- The mapper of the only model, which has the schema `SchemaOf.book`. -/
def Mapper.book : Mapper Unit :=
  ⟨⟨[⟨"Book", .book, none⟩]⟩, ⟨"Book", .book, none⟩⟩

theorem Scope.closed_book : Mapper.book.scope.Closed
    (fun scope schema => scope = Mapper.book.scope ∧ schema = .book)
    (fun scope type => scope = Mapper.book.scope ∧ type = .primitive .string) :=
  .of_noModel (by simp [Mapper.book, Mapper.scope]) (by simp) (by simp)
    (by simp [SchemaOf.book, AttributeOf.plain]) (by simp)

/-- A book with a title and, undeclared, with a name. -/
def Item.book : Item :=
  [("id", .string "1"), ("name", .string "b"), ("title", .string "a")]

theorem Mapper.yields_read_book :
    Yields (book.read .plain .epoch Item.book) ()
      (some [("id", .string "1"), ("name", .string "b")]) () :=
  yields_of_value? rfl

/-- The title is read, but what is stored as the name takes its place. -/
theorem Mapper.name_hides_title :
    Item.book.get? "title" = some (.string "a") ∧
      Yields ((WireValue.string "a").reader .plain book.scope (Place.root.child "title")
        [.primitive .string]) () (.string "a") () ∧
      Yields (book.read .plain .epoch Item.book) ()
        (some [("id", .string "1"), ("name", .string "b")]) () :=
  ⟨rfl, yields_of_value? rfl, yields_read_book⟩

/-- What a book shows of its title, and what is shown in its place. -/
theorem Mapper.shows_attribute_iff_book :
    (∃ value, book.scope.frame.Decodes .plain Item.book ()
        { AttributeOf.plain "title" [.primitive .string] with nativeAlias := some "name" } value ∧
      (Fields.get? [("id", Value.string "1"), ("name", .string "b")] "name" = some value ↔
        ∀ other, ("name", other) ∈ book.scope.frame.shown Item.book → other = value)) ∧
      ("name", Value.string "b") ∈ book.scope.frame.shown Item.book := by
  have hnames : ∀ scope schema, book.scope.Reaches scope schema →
      (schema.attributes.map AttributeOf.nativeName).Nodup := by
    intro scope schema hreaches
    obtain ⟨-, rfl⟩ := Scope.closed_book.of_reaches hreaches
    decide
  have hitem : (WireValue.map Item.book).WellFormed := by
    simpa [Item.book, WireValue.WellFormed, WireValue.FieldsWellFormed] using by decide
  obtain ⟨hrun, hshows⟩ := shows_attribute_iff hnames hitem yields_read_book
  obtain ⟨value, hvalue, hiff, -⟩ := (hshows _ _ .here).2 _ _ _ hrun
    { AttributeOf.plain "title" [.primitive .string] with nativeAlias := some "name" }
    (.tail _ (.head _)) (.string "a") rfl
  exact ⟨⟨value, hvalue, hiff⟩, List.mem_cons_self ..⟩

end ItemMapper
