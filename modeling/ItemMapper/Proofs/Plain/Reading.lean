import ItemMapper.Mapper
import ItemMapper.Proofs.Plain.Codec

/-!
# Reading alone

With the plain options reading, too, calls no function of the application: what is read once from a
stored value is read from it in every state, which stays as it is (`WireValue.steady_reader`).
`WireValue.ReadsAs` says what is read from a value, and `Frame.ReadsAs` what is read from an item.

A stored list is read item by item and a stored map attribute by attribute
(`WireValue.readsAs_list_iff`, `WireValue.readsAs_map_iff`).  `Frame.readsAs_iff` says which document
this gives: the attributes in the order of the schema, each under its native name, and after them
what is shown of the undeclared data.  Of two fields with one name the later one counts.
-/

namespace ItemMapper

variable {σ α β : Type}

open Pipeline

namespace Steady

theorem foldlM {step : Setting σ → β → α → Pipeline σ β} {items : List α}
    (hstep : ∀ item ∈ items, ∀ given, Steady fun setting => step setting given item) :
    ∀ given, Steady fun setting => items.foldlM (step setting) given := by
  induction items with
  | nil =>
      intro given
      simp only [List.foldlM_nil]
      exact .pure given
  | cons item rest ih =>
      intro given
      simp only [List.foldlM_cons]
      apply (hstep item (by simp) given).bind
      exact fun middle => ih (fun other hother => hstep other (by simp [hother])) middle

end Steady

/-! ## Reading is steady -/

namespace WireValue

theorem steady_readChosen (stored : WireValue) (scope : Scope σ) (place : Place)
    (types : List (CandidateType σ)) {inside : CandidateType σ → Option (Pipeline σ Value)}
    (hinside : ∀ type nested, inside type = some nested → Steady fun _ => nested) :
    Steady fun _ => stored.readChosen .plain scope place types inside := by
  have hcheck : MarshalOptions.plain.typeCheck = true := rfl
  simp only [readChosen, hcheck, if_true]
  cases scope.resolveStored place types stored with
  | error cause => exact .throw cause
  | ok choice =>
      cases hnested : inside choice.type with
      | none =>
          simp only [hnested]
          exact .ofExcept _
      | some nested =>
          simp only [hnested]
          exact hinside choice.type nested hnested

end WireValue

namespace Sources

theorem readAttribute_plain (frame : Frame σ) (item : Item) (document : Document)
    (field : Attribute σ) :
    readAttribute .plain frame (WireValue.sources .plain item) document field =
      match item.get? field.name with
      | none => pure document
      | some stored => do
        let value ← stored.reader .plain frame.scope (frame.place.child field.name) field.types
        return document.insert field.nativeName value := by
  have hmodifiers : MarshalOptions.plain.modifiers = false := rfl
  have hsource := Fields.get?_mapValues
    (fun stored => (⟨stored, stored.reader .plain⟩ : Source σ)) item field.name
  rw [← WireValue.sources_eq] at hsource
  unfold readAttribute
  rw [hsource]
  cases item.get? field.name with
  | none => rfl
  | some stored => simp [hmodifiers]

/-- A document is read in a steady way if its values are. -/
theorem steady_read (frame : Frame σ) (item : Item)
    (hfields : ∀ field ∈ item, ∀ (scope : Scope σ) (place : Place) (types : List (CandidateType σ)),
      Steady fun _ => field.2.reader .plain scope place types) :
    Steady fun _ => Sources.read .plain frame (WireValue.sources .plain item) := by
  unfold Sources.read
  refine .bind (.foldlM (fun field _ document => ?_) _) fun document => .pure _
  simp only [readAttribute_plain]
  cases hstored : item.get? field.name with
  | none => exact .pure document
  | some stored =>
      exact (hfields _ (Fields.mem_of_get? hstored) _ _ _).bind fun value => .pure _

end Sources

namespace WireValue

mutual

theorem steady_reader : ∀ (stored : WireValue) (scope : Scope σ) (place : Place)
    (types : List (CandidateType σ)), Steady fun _ => stored.reader .plain scope place types
  | .list items, scope, place, types => by
      simp only [WireValue.reader]
      apply steady_readChosen
      intro type nested hnested
      cases type with
      | array elements =>
          obtain rfl := Option.some.inj hnested
          exact (steady_readItems items scope place elements 0).bind fun values => .pure _
      | _ => cases hnested
  | .map fields, scope, place, types => by
      simp only [WireValue.reader]
      apply steady_readChosen
      intro type nested hnested
      obtain ⟨frame, -, rfl⟩ := Option.map_eq_some_iff.mp hnested
      exact (Sources.steady_read frame fields (steady_fields fields)).bind fun document => .pure _
  | .string _, _, _, _ | .number _, _, _, _ | .binary _, _, _, _ | .stringSet _, _, _, _
  | .numberSet _, _, _, _ | .binarySet _, _, _, _ | .boolean _, _, _, _ | .null _, _, _, _ => by
      simp only [WireValue.reader]
      exact steady_readChosen _ _ _ _ fun _ _ hnested => by cases hnested

theorem steady_readItems : ∀ (items : List WireValue) (scope : Scope σ) (place : Place)
    (elements : List (CandidateType σ)) (index : Nat),
    Steady fun _ => WireValue.readItems .plain scope place elements index items
  | [], _, _, _, _ => by
      simp only [WireValue.readItems]
      exact .pure []
  | item :: rest, scope, place, elements, index => by
      simp only [WireValue.readItems]
      apply (steady_reader item scope (place.item index) elements).bind
      intro value
      apply (steady_readItems rest scope place elements (index + 1)).bind
      exact fun others => .pure (value :: others)

theorem steady_fields : ∀ (fields : List (String × WireValue)), ∀ field ∈ fields,
    ∀ (scope : Scope σ) (place : Place) (types : List (CandidateType σ)),
      Steady fun _ => field.2.reader .plain scope place types
  | [], _, hfield => by simp at hfield
  | (key, stored) :: rest, field, hfield => by
      rcases List.mem_cons.mp hfield with rfl | hfield
      · exact steady_reader stored
      · exact steady_fields rest field hfield

end

/-! ## What is read from stored values -/

/-- A stored value is read as this value at a place, as one of some types. -/
def ReadsAs (stored : WireValue) (scope : Scope σ) (place : Place)
    (types : List (CandidateType σ)) (value : Value) : Prop :=
  ∀ before, Yields (stored.reader .plain scope place types) before value before

/-- Stored items are read as these, from a position on. -/
def ItemsReadAs (items : List WireValue) (scope : Scope σ) (place : Place)
    (elements : List (CandidateType σ)) (index : Nat) (values : List Value) : Prop :=
  ∀ before, Yields (WireValue.readItems .plain scope place elements index items) before values before

end WireValue

/-- An item is read as this document. -/
def Frame.ReadsAs (frame : Frame σ) (item : Item) (document : Document) : Prop :=
  ∀ before, Yields (frame.read .plain item) before document before

theorem Frame.readsAs_of_yields {frame : Frame σ} {item : Item} {document : Document}
    {before after : σ} (hrun : Yields (frame.read .plain item) before document after) :
    before = after ∧ frame.ReadsAs item document := by
  obtain ⟨rfl, hreads⟩ := Sources.steady_read frame item (WireValue.steady_fields item)
    default _ _ _ hrun
  exact ⟨rfl, hreads default⟩

namespace WireValue

variable {stored : WireValue} {scope : Scope σ} {place : Place} {types : List (CandidateType σ)}
  {value other : Value}

theorem readsAs_of_yields {before after : σ}
    (hrun : Yields (stored.reader .plain scope place types) before value after) :
    before = after ∧ stored.ReadsAs scope place types value := by
  obtain ⟨rfl, hreads⟩ := stored.steady_reader scope place types default _ _ _ hrun
  exact ⟨rfl, hreads default⟩

theorem ReadsAs.unique (before : σ) (hvalue : stored.ReadsAs scope place types value)
    (hother : stored.ReadsAs scope place types other) : value = other := by
  simpa using (hvalue before).symm.trans (hother before)

/-! ### Lists and maps by their parts -/

theorem yields_readChosen_plain {before after : σ}
    {inside : CandidateType σ → Option (Pipeline σ Value)} :
    Yields (stored.readChosen .plain scope place types inside) before value after ↔
      ∃ choice, scope.resolveStored place types stored = .ok choice ∧
        match inside choice.type with
        | some nested => Yields nested before value after
        | none => stored.decodeLeaf choice.reading = .ok value ∧ before = after := by
  have hcheck : MarshalOptions.plain.typeCheck = true := rfl
  unfold readChosen
  cases scope.resolveStored place types stored with
  | error cause => simp [hcheck]
  | ok choice => cases hinside : inside choice.type <;> simp [hinside]

theorem forall_yields_readChosen (before : σ)
    {inside : CandidateType σ → Option (Pipeline σ Value)} :
    (∀ state, Yields (stored.readChosen .plain scope place types inside) state value state) ↔
      ∃ choice, scope.resolveStored place types stored = .ok choice ∧ ∀ state,
        match inside choice.type with
        | some nested => Yields nested state value state
        | none => stored.decodeLeaf choice.reading = .ok value := by
  simp only [yields_readChosen_plain, and_true]
  constructor
  · intro hruns
    obtain ⟨choice, hchoice, -⟩ := hruns before
    refine ⟨choice, hchoice, fun state => ?_⟩
    obtain ⟨other, hother, hinside⟩ := hruns state
    obtain rfl := Except.ok.inj (hother.symm.trans hchoice)
    exact hinside
  · rintro ⟨choice, hchoice, hinside⟩ state
    exact ⟨choice, hchoice, hinside state⟩

/-- A stored map is read attribute by attribute if its type leads into it. -/
theorem readsAs_map_iff (before : σ) {fields : List (String × WireValue)} :
    (WireValue.map fields).ReadsAs scope place types value ↔
      ∃ choice, scope.resolveStored place types (.map fields) = .ok choice ∧
        match scope.enter? place choice.type with
        | some frame => ∃ document, value = .map document ∧ frame.ReadsAs fields document
        | none => (WireValue.map fields).decodeLeaf choice.reading = .ok value := by
  simp only [ReadsAs, WireValue.reader]
  rw [forall_yields_readChosen before]
  refine exists_congr fun choice => and_congr_right fun _ => ?_
  cases scope.enter? place choice.type with
  | none => exact ⟨fun hdecode => hdecode before, fun hdecode _ => hdecode⟩
  | some frame =>
      show (∀ state, Yields _ state value state) ↔ _
      simp only [yields_bind, yields_pure]
      constructor
      · intro hruns
        obtain ⟨document, _, hdocument, rfl, rfl⟩ := hruns before
        exact ⟨document, rfl, (Frame.readsAs_of_yields hdocument).2⟩
      · rintro ⟨document, rfl, hreads⟩ state
        exact ⟨document, state, hreads state, rfl, rfl⟩

/-- A stored list is read item by item if its type says of which items it is. -/
theorem readsAs_list_iff (before : σ) {items : List WireValue} :
    (WireValue.list items).ReadsAs scope place types value ↔
      ∃ choice, scope.resolveStored place types (.list items) = .ok choice ∧
        match choice.type with
        | .array elements => ∃ values, value = .list values ∧
            ItemsReadAs items scope place elements 0 values
        | _ => (WireValue.list items).decodeLeaf choice.reading = .ok value := by
  simp only [ReadsAs, WireValue.reader]
  rw [forall_yields_readChosen before]
  refine exists_congr fun choice => and_congr_right fun _ => ?_
  cases choice.type with
  | array elements =>
      show (∀ state, Yields _ state value state) ↔ _
      simp only [yields_bind, yields_pure]
      constructor
      · intro hruns
        obtain ⟨values, _, hvalues, rfl, rfl⟩ := hruns before
        exact ⟨values, rfl,
          (steady_readItems items scope place elements 0 default _ _ _ hvalues).2 default⟩
      · rintro ⟨values, rfl, hreads⟩ state
        exact ⟨values, state, hreads state, rfl, rfl⟩
  | _ => exact ⟨fun hdecode => hdecode before, fun hdecode _ => hdecode⟩

theorem itemsReadAs_cons_iff (before : σ) {item : WireValue} {rest : List WireValue}
    {elements : List (CandidateType σ)} {index : Nat} {values : List Value} :
    ItemsReadAs (item :: rest) scope place elements index values ↔
      ∃ value others, item.ReadsAs scope (place.item index) elements value ∧
        ItemsReadAs rest scope place elements (index + 1) others ∧ values = value :: others := by
  simp only [ItemsReadAs, WireValue.readItems]
  constructor
  · intro hruns
    obtain ⟨value, _, hitem, hothers⟩ := yields_bind.mp (hruns before)
    obtain ⟨others, _, hrest, hsame⟩ := yields_bind.mp hothers
    obtain ⟨rfl, -⟩ := yields_pure.mp hsame
    exact ⟨value, others, (readsAs_of_yields hitem).2,
      (steady_readItems rest scope place elements (index + 1) default _ _ _ hrest).2 default, rfl⟩
  · rintro ⟨value, others, hitem, hrest, rfl⟩ state
    exact (hitem state).bind ((hrest state).bind yields_pure_self)

theorem itemsReadAs_nil_iff (before : σ) {elements : List (CandidateType σ)} {index : Nat}
    {values : List Value} : ItemsReadAs [] scope place elements index values ↔ values = [] := by
  simp only [ItemsReadAs, WireValue.readItems, yields_pure, and_true]
  exact ⟨fun hsame => (hsame before).symm, fun hsame _ => hsame.symm⟩

/-- Other values are decoded at once. -/
theorem readsAs_leaf_iff (before : σ) (hlist : ∀ items, stored ≠ .list items)
    (hmap : ∀ fields, stored ≠ .map fields) :
    stored.ReadsAs scope place types value ↔
      ∃ choice, scope.resolveStored place types stored = .ok choice ∧
        stored.decodeLeaf choice.reading = .ok value := by
  have hreader : stored.reader .plain scope place types =
      stored.readChosen .plain scope place types fun _ => none := by
    cases stored with
    | list items => exact absurd rfl (hlist items)
    | map fields => exact absurd rfl (hmap fields)
    | _ => rfl
  simp only [ReadsAs, hreader]
  rw [forall_yields_readChosen before]
  refine exists_congr fun choice => and_congr_right fun _ => ?_
  exact ⟨fun hdecode => hdecode before, fun hdecode _ => hdecode⟩

end WireValue

/-! ## What is read from items -/

namespace Frame

variable {frame : Frame σ} {item : Item} {document : Document} {field : Attribute σ}

/-- What is read for an attribute. -/
def Loads (frame : Frame σ) (item : Item) (field : Attribute σ) (value : Option Value) : Prop :=
  match item.get? field.name with
  | none => value = none
  | some stored => ∃ back, value = some back ∧
      stored.ReadsAs frame.scope (frame.place.child field.name) field.types back

/-- What is shown of the undeclared data of an item. -/
def shown (frame : Frame σ) (item : Item) : List (String × Value) :=
  (item.filter fun field => (frame.schema.attribute? field.1).isNone).filterMap fun field =>
    (field.2.keep? frame.scope (frame.place.child field.1)).map fun value => (field.1, value)

/-- The attributes that are read, under their native names. -/
def entries (attributes : List (Attribute σ)) (loaded : List (Option Value)) :
    List (String × Value) :=
  (attributes.zip loaded).filterMap fun pair => pair.2.map fun value => (pair.1.nativeName, value)

theorem foldl_readUnknown (options : MarshalOptions) (frame : Frame σ) (item : Item)
    (document : Document) :
    (WireValue.sources options item).foldl (Sources.readUnknown frame) document =
      (frame.shown item).foldl (fun fields field => Fields.insert field.1 field.2 fields)
        document := by
  rw [WireValue.sources_eq, Fields.mapValues, List.foldl_map, shown]
  induction item generalizing document with
  | nil => rfl
  | cons field rest ih =>
      rw [List.foldl_cons, ih]
      simp only [Sources.readUnknown]
      cases hfield : frame.schema.attribute? field.1 with
      | some declared => simp [hfield]
      | none =>
          cases hkeep : field.2.keep? frame.scope (frame.place.child field.1) <;>
            simp [hfield, hkeep]

/-- The attributes are read one after another. -/
theorem yields_readAttributes {attributes : List (Attribute σ)} {before after : σ} :
    ∀ {document result : Document},
      Yields (attributes.foldlM
          (Sources.readAttribute .plain frame (WireValue.sources .plain item)) document)
        before result after ↔
      before = after ∧ ∃ loaded, List.Forall₂ (frame.Loads item) attributes loaded ∧
        result = (entries attributes loaded).foldl
          (fun fields field => Fields.insert field.1 field.2 fields) document := by
  induction attributes generalizing before with
  | nil =>
      intro document result
      rw [List.foldlM_nil, yields_pure]
      constructor
      · rintro ⟨rfl, rfl⟩
        exact ⟨rfl, [], .nil, rfl⟩
      · rintro ⟨rfl, loaded, hloaded, rfl⟩
        cases hloaded
        exact ⟨rfl, rfl⟩
  | cons field rest ih =>
      intro document result
      rw [List.foldlM_cons, yields_bind]
      simp only [ih, Sources.readAttribute_plain]
      cases hstored : item.get? field.name with
      | none =>
          simp only [yields_pure]
          constructor
          · rintro ⟨_, _, ⟨rfl, rfl⟩, rfl, loaded, hloaded, rfl⟩
            exact ⟨rfl, none :: loaded, .cons (by simp [Loads, hstored]) hloaded, by simp [entries]⟩
          · rintro ⟨rfl, loaded, hloaded, rfl⟩
            cases hloaded with
            | @cons _ value _ others hvalue hothers =>
                obtain rfl : value = none := by simpa [Loads, hstored] using hvalue
                exact ⟨_, _, ⟨rfl, rfl⟩, rfl, others, hothers, by simp [entries]⟩
      | some stored =>
          simp only [yields_bind, yields_pure]
          constructor
          · rintro ⟨_, _, ⟨value, _, hvalue, rfl, rfl⟩, rfl, loaded, hloaded, rfl⟩
            obtain ⟨rfl, hreads⟩ := WireValue.readsAs_of_yields hvalue
            exact ⟨rfl, some value :: loaded, .cons (by simp [Loads, hstored, hreads]) hloaded,
              by simp [entries]⟩
          · rintro ⟨rfl, loaded, hloaded, rfl⟩
            cases hloaded with
            | @cons _ value _ others hvalue hothers =>
                obtain ⟨back, rfl, hreads⟩ : ∃ back, value = some back ∧
                    stored.ReadsAs frame.scope (frame.place.child field.name) field.types back := by
                  simpa [Loads, hstored] using hvalue
                exact ⟨_, _, ⟨back, _, hreads before, rfl, rfl⟩, rfl, others, hothers, by simp [entries]⟩

/-- The document that is read from an item lists the attributes and then what is shown of the
undeclared data. -/
theorem readsAs_iff (before : σ) :
    frame.ReadsAs item document ↔
      ∃ loaded, List.Forall₂ (frame.Loads item) frame.schema.attributes loaded ∧
        document = Fields.ofList (entries frame.schema.attributes loaded ++ frame.shown item) := by
  have hrun : ∀ state, Yields (frame.read .plain item) state document state ↔
      ∃ loaded, List.Forall₂ (frame.Loads item) frame.schema.attributes loaded ∧
        document = Fields.ofList (entries frame.schema.attributes loaded ++ frame.shown item) := by
    intro state
    simp only [Frame.read, Sources.read, yields_bind, yields_pure, foldl_readUnknown,
      yields_readAttributes, Fields.ofList, List.foldl_append]
    constructor
    · rintro ⟨_, _, ⟨rfl, loaded, hloaded, rfl⟩, rfl, -⟩
      exact ⟨loaded, hloaded, rfl⟩
    · rintro ⟨loaded, hloaded, rfl⟩
      exact ⟨_, _, ⟨rfl, loaded, hloaded, rfl⟩, rfl, rfl⟩
  exact ⟨fun hreads => (hrun before).mp (hreads before), fun hloaded state => (hrun state).mpr hloaded⟩

/-! ### The view of the document -/

theorem loads_some_iff {value : Value} :
    frame.Loads item field (some value) ↔ ∃ stored, item.get? field.name = some stored ∧
      stored.ReadsAs frame.scope (frame.place.child field.name) field.types value := by
  unfold Loads
  cases item.get? field.name <;> simp

theorem mem_shown {key : String} {value : Value} : (key, value) ∈ frame.shown item ↔
    frame.schema.attribute? key = none ∧
      ∃ stored, (key, stored) ∈ item ∧
        stored.keep? frame.scope (frame.place.child key) = some value := by
  simp only [shown, List.mem_filterMap, List.mem_filter, Option.isNone_iff_eq_none,
    Option.map_eq_some_iff, Prod.mk.injEq, Prod.exists]
  constructor
  · rintro ⟨_, stored, ⟨hmem, hnone⟩, _, hkeep, rfl, rfl⟩
    exact ⟨hnone, stored, hmem, hkeep⟩
  · rintro ⟨hnone, stored, hmem, hkeep⟩
    exact ⟨key, stored, ⟨hmem, hnone⟩, value, hkeep, rfl, rfl⟩

theorem mem_entries {attributes : List (Attribute σ)} {loaded : List (Option Value)}
    (hloaded : List.Forall₂ (frame.Loads item) attributes loaded) (before : σ) {key : String}
    {value : Value} : (key, value) ∈ entries attributes loaded ↔
      ∃ field ∈ attributes, field.nativeName = key ∧ frame.Loads item field (some value) := by
  have hunique : ∀ {field : Attribute σ} {value other : Option Value},
      frame.Loads item field value → frame.Loads item field other → value = other := by
    intro field value other hvalue hother
    unfold Loads at hvalue hother
    split at hvalue
    case h_1 hnone => rw [hvalue, show other = none by simpa [hnone] using hother]
    case h_2 stored hstored =>
      simp only [hstored] at hother
      obtain ⟨_, rfl, hreads⟩ := hvalue
      obtain ⟨_, rfl, hreadsOther⟩ := hother
      rw [hreads.unique before hreadsOther]
  unfold entries
  induction hloaded with
  | nil => simp
  | @cons field first rest others hfirst _ ih =>
      rw [List.zip_cons_cons, List.filterMap_cons]
      constructor
      · intro hmem
        cases first with
        | none =>
            obtain ⟨other, hother, hname⟩ := ih.mp (by simpa using hmem)
            exact ⟨other, by simp [hother], hname⟩
        | some given =>
            rcases List.mem_cons.mp hmem with heq | hmem
            · obtain ⟨rfl, rfl⟩ := Prod.mk.inj heq
              exact ⟨field, by simp, rfl, hfirst⟩
            · obtain ⟨other, hother, hname⟩ := ih.mp hmem
              exact ⟨other, by simp [hother], hname⟩
      · rintro ⟨other, hother, hname, hvalue⟩
        rcases List.mem_cons.mp hother with rfl | hother
        · obtain rfl := hunique hfirst hvalue
          simp [hname]
        · have hmem := ih.mpr ⟨other, hother, hname, hvalue⟩
          cases first <;> simp [hmem]

/-- What stands in a document that is read is an attribute or is shown of the undeclared data. -/
theorem ReadsAs.cases_get? (hreads : frame.ReadsAs item document) (before : σ) {key : String}
    {value : Value} (hvalue : document.get? key = some value) :
    (∃ field ∈ frame.schema.attributes, field.nativeName = key ∧
        frame.Loads item field (some value)) ∨ (key, value) ∈ frame.shown item := by
  obtain ⟨loaded, hloaded, rfl⟩ := (readsAs_iff before).mp hreads
  rcases List.mem_append.mp (Fields.mem_of_get?_ofList hvalue) with hmem | hmem
  · exact .inl ((mem_entries hloaded before).mp hmem)
  · exact .inr hmem

/-- Every stored attribute is read. -/
theorem ReadsAs.exists_loads (hreads : frame.ReadsAs item document) (before : σ)
    (hfield : field ∈ frame.schema.attributes) {stored : WireValue}
    (hstored : item.get? field.name = some stored) :
    ∃ value, frame.Loads item field (some value) := by
  obtain ⟨loaded, hloaded, -⟩ := (readsAs_iff before).mp hreads
  obtain ⟨value, -, hvalue⟩ := exists_related_left hloaded hfield
  cases value with
  | some value => exact ⟨value, hvalue⟩
  | none => simp [Loads, hstored] at hvalue

/-- An item with a declared attribute is not read as the empty document. -/
theorem ReadsAs.isEmpty_eq_false (hreads : frame.ReadsAs item document) (before : σ)
    (hstored : ∃ field ∈ frame.schema.attributes, (item.get? field.name).isSome = true) :
    document.isEmpty = false := by
  obtain ⟨field, hfield, hstored⟩ := hstored
  obtain ⟨stored, hget⟩ := Option.isSome_iff_exists.mp hstored
  obtain ⟨value, hvalue⟩ := hreads.exists_loads before hfield hget
  obtain ⟨loaded, hloaded, rfl⟩ := (readsAs_iff before).mp hreads
  have hmem := (mem_entries hloaded before).mpr ⟨field, hfield, rfl, hvalue⟩
  rw [Bool.eq_false_iff, Ne, List.isEmpty_iff]
  intro hempty
  have hnone : Fields.get? (entries frame.schema.attributes loaded ++ frame.shown item).reverse
      field.nativeName = none := by
    rw [← Fields.get?_ofList, hempty]
    rfl
  exact Fields.get?_eq_none_iff.mp hnone value (by simp [hmem])

/-- An attribute stands under its native name if nothing else that is stored does. -/
theorem ReadsAs.get?_nativeName (hreads : frame.ReadsAs item document) (before : σ)
    (hfield : field ∈ frame.schema.attributes) {value : Value}
    (hvalue : frame.Loads item field (some value))
    (honly : ∀ other ∈ frame.schema.attributes, (item.get? other.name).isSome = true →
      other.nativeName = field.nativeName → other = field)
    (hfree : ∀ other, (field.nativeName, other) ∉ frame.shown item) :
    document.get? field.nativeName = some value := by
  obtain ⟨loaded, hloaded, rfl⟩ := (readsAs_iff before).mp hreads
  apply Fields.get?_ofList_of_mem
  · exact List.mem_append_left _ ((mem_entries hloaded before).mpr ⟨field, hfield, rfl, hvalue⟩)
  · intro other hother
    rcases List.mem_append.mp hother with hother | hother
    · obtain ⟨found, hfound, hname, hloads⟩ := (mem_entries hloaded before).mp hother
      obtain ⟨stored, hstored, hreadsOther⟩ := loads_some_iff.mp hloads
      obtain rfl := honly found hfound (by rw [hstored, Option.isSome_some]) hname
      obtain ⟨_, hsame, hreadsValue⟩ := loads_some_iff.mp hvalue
      obtain rfl := Option.some.inj (hstored.symm.trans hsame)
      exact hreadsOther.unique before hreadsValue
    · exact absurd hother (hfree other)

/-- What is shown of the undeclared data counts. -/
theorem ReadsAs.get?_shown (hreads : frame.ReadsAs item document) (before : σ)
    (hitem : Fields.Sorted item) {key : String} {value : Value}
    (hshown : (key, value) ∈ frame.shown item) : document.get? key = some value := by
  obtain ⟨loaded, -, rfl⟩ := (readsAs_iff before).mp hreads
  have honly : ∀ other, (key, other) ∈ frame.shown item → other = value := by
    intro other hother
    obtain ⟨-, stored, hstored, hkeep⟩ := mem_shown.mp hshown
    obtain ⟨-, _, hsame, hkeepOther⟩ := mem_shown.mp hother
    have hkeys := Fields.nodup_of_sorted hitem
    rw [← Fields.get?_eq_some_iff hkeys] at hstored hsame
    obtain rfl := Option.some.inj (hstored.symm.trans hsame)
    exact Option.some.inj (hkeepOther.symm.trans hkeep)
  -- the undeclared data comes last
  have hlast := Fields.get?_ofList_of_mem hshown honly
  rw [Fields.get?_ofList] at hlast ⊢
  rw [List.reverse_append]
  generalize (frame.shown item).reverse = shown at hlast
  induction shown with
  | nil => simp at hlast
  | cons first rest ih =>
      rw [List.cons_append, Fields.get?_cons]
      rw [Fields.get?_cons] at hlast
      split
      · next hkey => rwa [if_pos hkey] at hlast
      · next hkey => exact ih (by rwa [if_neg hkey] at hlast)

end Frame

/-- A mapper that does not check for expiry hides no item. -/
theorem Mapper.yields_read_of_unchecked {mapper : Mapper σ} {options : MarshalOptions} {now : Instant}
    {item : Item} {document : Document} {before after : σ} (hexpiry : options.checkExpiry = false) :
    Yields (mapper.read options now item) before (some document) after ↔
      Yields (mapper.scope.frame.read options item) before document after := by
  unfold Mapper.read
  simp only [yields_bind, hexpiry, Bool.false_and, Bool.false_eq_true, if_false, yields_pure,
    Option.some.injEq]
  constructor
  · rintro ⟨_, _, hread, rfl, rfl⟩
    exact hread
  · intro hread
    exact ⟨_, _, hread, rfl, rfl⟩

theorem Mapper.yields_read_plain {mapper : Mapper σ} {now : Instant} {item : Item}
    {document : Document} {before after : σ} :
    Yields (mapper.read .plain now item) before (some document) after ↔
      Yields (mapper.scope.frame.read .plain item) before document after :=
  yields_read_of_unchecked rfl

end ItemMapper
