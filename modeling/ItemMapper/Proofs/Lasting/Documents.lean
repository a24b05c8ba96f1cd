import ItemMapper.Proofs.Lasting.Returns

/-!
# Documents that come back

An item is read field by field and stored field by field, each field under a name of its own on
both sides.  `Frame.FieldReturns` is what holds of one field, and `Frame.returns_of_fields` puts an
item together from its fields.  The scores of the fields of a document are in the order of the
native names, which makes no difference to what is known of their average.

`WireValue.exists_returns` is the recursion on the stored value.
-/

namespace ItemMapper

variable {σ : Type}

open Pipeline

/-! ## One field -/

/-- A stored field is read as a field that is stored as it again. -/
inductive Frame.FieldReturns (start : Scope σ) (frame : Frame σ) :
    String × WireValue → String × Value → Prop
  | declared {field : Attribute σ} {stored : WireValue} {back : Value}
      (hfield : field ∈ frame.schema.attributes)
      (hnative : frame.schema.nativeAttribute? field.nativeName = some field)
      (hreturns : stored.Returns start frame.scope (frame.place.child field.name) field.types
        back) :
      FieldReturns start frame (field.name, stored) (field.nativeName, back)
  | undeclared {key : String} {stored : WireValue} {back : Value}
      (hnone : frame.schema.attribute? key = none)
      (hnative : frame.schema.nativeAttribute? key = none)
      (hread : stored.keep? frame.scope (frame.place.child key) = some back)
      (hkeep : back.keep? frame.scope (frame.place.child key) = some stored) :
      FieldReturns start frame (key, stored) (key, back)

namespace Frame.FieldReturns

variable {start : Scope σ} {frame : Frame σ} {stored : String × WireValue} {given : String × Value}

/-- What is read for an attribute. -/
theorem of_declared (hschema : frame.schema.WellFormed)
    (hreturns : frame.FieldReturns start stored given) {field : Attribute σ}
    (hfield : field ∈ frame.schema.attributes) (hname : field.name = stored.1) :
    given.1 = field.nativeName ∧ frame.schema.nativeAttribute? field.nativeName = some field ∧
      stored.2.Returns start frame.scope (frame.place.child field.name) field.types given.2 := by
  have hattribute := hschema.attribute?_name hfield
  cases hreturns with
  | @declared other _ _ hother hnative hreturns =>
      have hname : field.name = other.name := hname
      rw [hname, hschema.attribute?_name hother] at hattribute
      obtain rfl := Option.some.inj hattribute
      exact ⟨rfl, hnative, hreturns⟩
  | undeclared hnone =>
      have hname : field.name = _ := hname
      rw [hname, hnone] at hattribute
      cases hattribute

/-- What is shown of an undeclared field. -/
theorem of_undeclared (hschema : frame.schema.WellFormed)
    (hreturns : frame.FieldReturns start stored given)
    (hnone : frame.schema.attribute? stored.1 = none) :
    given.1 = stored.1 ∧ frame.schema.nativeAttribute? stored.1 = none ∧
      stored.2.keep? frame.scope (frame.place.child stored.1) = some given.2 := by
  cases hreturns with
  | declared hfield =>
      have hattribute := hschema.attribute?_name hfield
      rw [hnone] at hattribute
      cases hattribute
  | undeclared _ hnative hread => exact ⟨rfl, hnative, hread⟩

theorem storedName_eq (hreturns : frame.FieldReturns start stored given) :
    frame.schema.storedName given.1 = stored.1 := by
  cases hreturns with
  | declared _ hnative => simp [SchemaOf.storedName, hnative]
  | undeclared _ hnative => simp [SchemaOf.storedName, hnative]

theorem isUndefined_eq_false (hreturns : frame.FieldReturns start stored given) (before : σ) :
    given.2.isUndefined = false := by
  cases hreturns with
  | declared _ _ hreturns => exact hreturns.isUndefined_eq_false before
  | @undeclared _ _ back _ _ _ hkeep =>
      cases back with
      | undefined => simp [Value.keep?, Value.natural?] at hkeep
      | _ => rfl

end Frame.FieldReturns

/-! ## All fields -/

namespace Frame

variable {start : Scope σ} {frame : Frame σ} {item : Item} {given : List (String × Value)}

section Fields

variable (hschema : frame.schema.WellFormed) (hitem : Fields.Sorted item)
  (hfields : List.Forall₂ (frame.FieldReturns start) item given)

include hitem hfields

theorem nodup_given : (given.map Prod.fst).Nodup := by
  have hsame : item.map Prod.fst = given.map fun field => frame.schema.storedName field.1 :=
    map_eq_map_of_related (fun _ _ hreturns => hreturns.storedName_eq.symm) hfields
  have hdistinct := Fields.nodup_of_sorted hitem
  rw [hsame] at hdistinct
  exact List.Nodup.of_map frame.schema.storedName (by simpa [Function.comp_def] using hdistinct)

/-- A stored field that is found has come back. -/
theorem exists_given_of_get? {key : String} {stored : WireValue}
    (hstored : item.get? key = some stored) :
    ∃ entry ∈ given, frame.FieldReturns start (key, stored) entry := by
  have hmem := (Fields.get?_eq_some_iff (Fields.nodup_of_sorted hitem)).mp hstored
  exact exists_related_left hfields hmem

include hschema

theorem exists_loaded :
    ∃ loaded, List.Forall₂ (frame.Loads item) frame.schema.attributes loaded := by
  refine exists_forall₂ fun field hfield => ?_
  cases hstored : item.get? field.name with
  | none => exact ⟨none, by simp [Loads, hstored]⟩
  | some stored =>
      obtain ⟨entry, -, hreturns⟩ := exists_given_of_get? hitem hfields hstored
      exact ⟨some entry.2, loads_some_iff.mpr
        ⟨stored, hstored, (hreturns.of_declared hschema hfield rfl).2.2.reads⟩⟩

/-- The stored fields are read as the native ones. -/
theorem readsAs_of_fields (before : σ) : frame.ReadsAs item (Fields.ofList given) := by
  obtain ⟨loaded, hloaded⟩ := exists_loaded hschema hitem hfields
  have hreads : frame.ReadsAs item _ := (readsAs_iff before).mpr ⟨loaded, hloaded, rfl⟩
  have hstored : ∀ {key stored}, (key, stored) ∈ item → item.get? key = some stored :=
    (Fields.get?_eq_some_iff (Fields.nodup_of_sorted hitem)).mpr
  suffices hsame : ∀ key value, Fields.get? (Fields.ofList
      (entries frame.schema.attributes loaded ++ frame.shown item)) key = some value ↔
        (key, value) ∈ given by
    rwa [Fields.ext (Fields.sorted_ofList _) (Fields.sorted_ofList given) fun key =>
      Option.ext fun value => by
        rw [hsame, Fields.get?_ofList_eq_some_iff (nodup_given hitem hfields)]] at hreads
  intro key value
  constructor
  · intro hvalue
    rcases hreads.cases_get? before hvalue with ⟨field, hfield, rfl, hloads⟩ | hshown
    · obtain ⟨stored, hget, hvalue⟩ := loads_some_iff.mp hloads
      obtain ⟨entry, hentry, hreturns⟩ := exists_given_of_get? hitem hfields hget
      obtain ⟨hname, -, hback⟩ := hreturns.of_declared hschema hfield rfl
      rw [← hname, hvalue.unique before hback.reads]
      exact hentry
    · obtain ⟨hnone, stored, hmem, hkeep⟩ := mem_shown.mp hshown
      obtain ⟨entry, hentry, hreturns⟩ := exists_given_of_get? hitem hfields (hstored hmem)
      obtain ⟨hname, -, hback⟩ := hreturns.of_undeclared hschema hnone
      obtain rfl := Option.some.inj (hback.symm.trans hkeep)
      rw [← show entry.1 = key from hname]
      exact hentry
  · intro hgiven
    obtain ⟨field, hmem, hreturns⟩ := exists_related_right hfields hgiven
    cases hreturns with
    | @declared field stored _ hfield hnative hreturns =>
        apply hreads.get?_nativeName before hfield
          (loads_some_iff.mpr ⟨stored, hstored hmem, hreturns.reads⟩)
        · intro other hother hsome hname
          obtain ⟨kept, hkept⟩ := Option.isSome_iff_exists.mp hsome
          obtain ⟨_, -, hotherReturns⟩ := exists_given_of_get? hitem hfields hkept
          obtain ⟨-, hotherNative, -⟩ := hotherReturns.of_declared hschema hother rfl
          rw [hname, hnative] at hotherNative
          exact (Option.some.inj hotherNative).symm
        · intro shown hshown
          obtain ⟨hnone, kept, hkept, -⟩ := mem_shown.mp hshown
          obtain ⟨_, -, hotherReturns⟩ := exists_given_of_get? hitem hfields (hstored hkept)
          rw [(hotherReturns.of_undeclared hschema hnone).2.1] at hnative
          cases hnative
    | undeclared hnone _ hread =>
        exact hreads.get?_shown before hitem (mem_shown.mpr ⟨hnone, _, hmem, hread⟩)

/-- The native fields are stored as they were. -/
theorem convertsTo_of_fields (before : σ) : frame.ConvertsTo (Fields.ofList given) item := by
  have hdistinct := nodup_given hitem hfields
  have hnames : (given.map fun field => (frame.schema.storedName field.1, field.2)).map Prod.fst =
      item.map Prod.fst := by
    rw [List.map_map]
    exact (map_eq_map_of_related (fun _ _ hreturns => hreturns.storedName_eq.symm) hfields).symm
  have hstoredDistinct := Fields.nodup_of_sorted hitem
  rw [← hnames] at hstoredDistinct
  -- under each stored name stands the field that comes from it
  have hview : ∀ name value,
      (frame.schema.normalized (Fields.ofList given)).get? name = some value ↔
        ∃ key, (key, value) ∈ given ∧ frame.schema.storedName key = name := by
    intro name value
    have hperm := (Fields.ofList_perm hdistinct).map fun field =>
      (frame.schema.storedName field.1, field.2)
    have hgivenDistinct := (hperm.map Prod.fst).nodup_iff.mpr hstoredDistinct
    rw [SchemaOf.normalized, Fields.ofList_congr hgivenDistinct hperm,
      Fields.get?_ofList_eq_some_iff hstoredDistinct]
    simp
  refine (convertsTo_iff hschema before).mpr ⟨hitem, fun name => ?_⟩
  cases hstored : item.get? name with
  | none =>
      refine (storesAs_absent ?_).mpr rfl
      rw [Option.eq_none_iff_forall_ne_some]
      intro value hvalue
      obtain ⟨key, hgiven, rfl⟩ := (hview name value).mp hvalue
      obtain ⟨field, hfield, hreturns⟩ := exists_related_right hfields hgiven
      rw [show frame.schema.storedName key = field.1 from hreturns.storedName_eq] at hstored
      exact Fields.get?_eq_none_iff.mp hstored field.2 hfield
  | some stored =>
      obtain ⟨entry, hentry, hreturns⟩ := exists_given_of_get? hitem hfields hstored
      have hvalue := (hview name entry.2).mpr ⟨entry.1, hentry, hreturns.storedName_eq⟩
      cases hreturns with
      | declared hfield _ hreturns =>
          exact (storesAs_declared hvalue (hschema.attribute?_name hfield)).mpr hreturns.writes
      | undeclared hnone _ _ hkeep => exact (storesAs_undeclared hvalue hnone).mpr hkeep

end Fields

end Frame

/-! ### Scores of fields -/

/-- An undeclared field counts enough for the bound. -/
theorem Score.AtLeast.half {size : Nat} (hsize : 0 < size) : AtLeast (2 * size) (1 / 2) where
  fixed := by decide +kernel
  lower := by
    have hlog : 1 ≤ (2 * size).log2 := (Nat.le_log2 (by omega)).mpr (by omega)
    calc (1 / 4 : Rat) ^ (2 * size).log2 ≤ (1 / 4) ^ 1 :=
          pow_le_pow_of_le_one (by norm_num) (by norm_num) hlog
      _ ≤ 1 / 2 := by norm_num
  le_one := by norm_num

theorem WireValue.unknownMatch_ne_outside {stored : WireValue} {scope : Scope σ} {place : Place}
    {back : Value} (hread : stored.keep? scope place = some back) :
    scope.unknownMatch place ≠ .outside := by
  intro houtside
  cases stored <;> simp [keep?, houtside] at hread

namespace Frame

variable {start : Scope σ} {frame : Frame σ} {item : Item} {given : List (String × Value)}

/-- Fields that come back have scores that are kept up by their sizes. -/
theorem scores_of_fields (hstart : start.Repeatable)
    (hreaches : start.Reaches frame.scope frame.schema) (before : σ) {other : Place}
    (halike : start.Alike frame.place other)
    (hfields : List.Forall₂ (frame.FieldReturns start) item given) :
    List.Forall₂ Score.AtLeast (item.map fun field => 2 * field.2.size)
        (Value.fieldScores Score.rounded ⟨frame.scope, other, frame.schema⟩ given) ∧
      List.Forall₂ Score.AtLeast (item.map fun field => 2 * field.2.size)
        (WireValue.fieldScores Score.rounded ⟨frame.scope, other, frame.schema⟩ item) := by
  induction hfields with
  | nil => exact ⟨.nil, .nil⟩
  | cons hfirst _ ih =>
      have hdefined := hfirst.isUndefined_eq_false before
      cases hfirst with
      | @declared field stored back hfield hnative hreturns =>
          have hapart := hstart.attributes _ _ hreaches field hfield
          have hattribute := (hstart.wellFormed _ _ hreaches).attribute?_name hfield
          have hnativePlace := halike.nativeChild hstart hreaches hfield
          simp only [Value.fieldScores, WireValue.fieldScores, hdefined, hnative, hattribute]
          exact ⟨.cons (hreturns.best hapart hnativePlace) ih.1,
            .cons (hreturns.bestStored hapart (halike.child field.name)) ih.2⟩
      | @undeclared key stored back hnone hnative hread hkeep =>
          have hkept := WireValue.unknownMatch_ne_outside hread
          rw [← halike.unknownMatch_eq hreaches key] at hkept
          simp only [Value.fieldScores, WireValue.fieldScores, hdefined, hnative, hnone,
            unknownScore, if_neg hkept]
          exact ⟨.cons (.half stored.size_pos) ih.1, .cons (.half stored.size_pos) ih.2⟩

end Frame

/-- A document comes back if its fields do. -/
theorem WireValue.Returns.of_fields {start scope : Scope σ} (hstart : start.Repeatable)
    {place : Place} {types : List (CandidateType σ)} (htypes : start.Discerns scope types)
    (before : σ) {type : CandidateType σ} (htype : type ∈ types) {frame : Frame σ}
    (henter : scope.enter? place type = some frame) {item : Item} {given : List (String × Value)}
    (hitem : Fields.Sorted item) (hmemory : (WireValue.map item).size ≤ 2 ^ 63)
    (hfields : List.Forall₂ (frame.FieldReturns start) item given) :
    (WireValue.map item).Returns start scope place types (.map (Fields.ofList given)) := by
  have hreaches := htypes.reaches htype henter
  have hschema := hstart.wellFormed _ _ hreaches
  have hmem : ∀ other, (⟨type, ⟨scope, other, type⟩⟩ : Choice σ) ∈
      scope.choices other types true := fun other =>
    Scope.mem_choices.mpr ⟨htype, by simp [Scope.readings_document]⟩
  have hscores : ∀ other, start.Alike place other →
      Score.AtLeast (2 * (WireValue.map item).size)
          ((Value.map (Fields.ofList given)).score Score.rounded ⟨scope, other, type⟩) ∧
        Score.AtLeast (2 * (WireValue.map item).size)
          ((WireValue.map item).score Score.rounded ⟨scope, other, type⟩) := by
    intro other halike
    obtain ⟨entered, hentered, hinside⟩ := halike.enter? henter
    obtain ⟨hvalues, hstoreds⟩ := Frame.scores_of_fields hstart hreaches before hinside hfields
    have hpos : ∀ field ∈ item, 0 < field.2.size := fun field _ => field.2.size_pos
    have hperm := Fields.ofList_perm (Frame.nodup_given hitem hfields)
    rw [size] at hmemory ⊢
    simp only [Value.score, score, Reading.enter?, hentered]
    exact ⟨atLeast_average hvalues hpos (fieldsSize_eq item).symm hmemory
        (Value.fieldScores_perm hperm.symm),
      atLeast_average hstoreds hpos (fieldsSize_eq item).symm hmemory (.refl _)⟩
  obtain ⟨hscore, hstoredScore⟩ := hscores place (.inl rfl)
  refine ⟨rfl, ?_, ?_, fun other halike => ⟨_, hmem other, hscores other halike⟩⟩
  · refine (readsAs_map_iff before).mpr ⟨_, htypes.apart.resolveStored_iff.mpr
      ⟨hmem place, hstoredScore.pos⟩, ?_⟩
    simp only [henter]
    exact ⟨_, rfl, Frame.readsAs_of_fields hschema hitem hfields before⟩
  · refine (Value.convertsTo_map_iff before).mpr ⟨_, htypes.apart.resolve_iff.mpr
      ⟨hmem place, hscore.pos⟩, ?_⟩
    simp only [henter]
    exact ⟨item, rfl, Frame.convertsTo_of_fields hschema hitem hfields before⟩

/-! ## What was stored once -/

/-- A stored value was made as a document, as a list of a list type, or at once.  The parts of it
were stored as some relation says. -/
inductive WireValue.MadeBy (stores : Scope σ → List (CandidateType σ) → WireValue → Prop)
    (scope : Scope σ) (types : List (CandidateType σ)) : WireValue → Prop
  | document {item : Item} {frame : Frame σ} {place : Place} {type : CandidateType σ}
      (htype : type ∈ types) (henter : scope.enter? place type = some frame)
      (hsorted : Fields.Sorted item)
      (hdeclared : ∀ entry ∈ item, ∀ field, frame.schema.attribute? entry.1 = some field →
        stores frame.scope field.types entry.2)
      (hundeclared : ∀ entry ∈ item, frame.schema.attribute? entry.1 = none →
        frame.schema.nativeAttribute? entry.1 = none) : MadeBy stores scope types (.map item)
  | list {storeds : List WireValue} {elements : List (CandidateType σ)}
      (harray : .array elements ∈ types) (hitems : ∀ stored ∈ storeds, stores scope elements stored) :
      MadeBy stores scope types (.list storeds)
  | atOnce {stored : WireValue} {value : Value} {place : Place} {choice : Choice σ}
      (hchoice : choice ∈ scope.choices place types value.isDocument)
      (hpos : 0 < value.score Score.rounded choice.reading)
      (hencode : choice.reading.encodeScalar value = .ok (some stored)) :
      MadeBy stores scope types stored

/-- A relation that says of stored values how they were made says it of their parts as well. -/
def Scope.Explains (start : Scope σ)
    (stores : Scope σ → List (CandidateType σ) → WireValue → Prop) : Prop :=
  ∀ {scope types stored}, start.Discerns scope types → stores scope types stored →
    stored.MadeBy stores scope types

/-- Where a reference does not stand for a list, a list that is encoded as another type than a list
type is stored at once. -/
theorem Reading.encodeScalar_of_encodeAs_list {start scope : Scope σ} (hstart : start.Repeatable)
    {place : Place} {types : List (CandidateType σ)} (htypes : start.Discerns scope types)
    {items : List Value} {choice : Choice σ} (hchoice : choice ∈ scope.choices place types false)
    (hlist : ∀ elements, choice.type ≠ .array elements) :
    (Value.list items).encodeAs choice.reading = choice.reading.encodeScalar (.list items) := by
  obtain ⟨htype, hreading⟩ := Scope.mem_choices.mp hchoice
  rw [Value.encodeAs]
  split
  · next elements harray =>
      by_cases hmodel : ∃ name, choice.type = .model name
      · obtain ⟨name, hname⟩ := hmodel
        rw [hname] at htype hreading
        exact absurd harray
          (hstart.scalarKeys scope name (htypes.uses _ htype) place _ hreading elements)
      · rw [Scope.readings_of_ne_model fun name hname => hmodel ⟨name, hname⟩,
          List.mem_singleton] at hreading
        rw [hreading] at harray
        exact absurd harray (hlist elements)
  · rfl

/-- A value that is neither a list of its type nor a document was stored at once. -/
theorem WireValue.MadeBy.of_encodeAs {start scope : Scope σ} (hstart : start.Repeatable)
    {stores : Scope σ → List (CandidateType σ) → WireValue → Prop} {place : Place}
    {types : List (CandidateType σ)} (htypes : start.Discerns scope types) {value : Value}
    {choice : Choice σ} (hchoice : scope.resolve place types value = .ok choice)
    (hlist : ∀ items, value = .list items → ∀ elements, choice.type ≠ .array elements)
    (hmap : ∀ fields, value = .map fields → scope.enter? place choice.type = none)
    {stored : WireValue} (hencode : value.encodeAs choice.reading = .ok (some stored)) :
    stored.MadeBy stores scope types := by
  obtain ⟨hmem, hpos⟩ := htypes.apart.resolve_iff.mp hchoice
  refine .atOnce hmem hpos ?_
  cases value with
  | list items =>
      rwa [Reading.encodeScalar_of_encodeAs_list hstart htypes hmem (hlist items rfl)] at hencode
  | map fields =>
      have hreading := Scope.reading_of_document hchoice rfl
      rw [Value.encodeAs, hreading, Reading.enter?, hmap fields rfl] at hencode
      rw [hreading]
      exact hencode
  | _ => simpa [Value.encodeAs] using hencode

/-- Every stored item was stored as one of the types of the list. -/
theorem Value.ItemsConvertTo.exists_value {items : List Value} {scope : Scope σ} {place : Place}
    {elements : List (CandidateType σ)} {index : Nat} {storeds : List WireValue} (before : σ)
    (hconverts : ItemsConvertTo items scope place elements index storeds) :
    ∀ stored ∈ storeds, ∃ value origin, ConvertsTo value scope origin elements (some stored) := by
  induction items generalizing index storeds with
  | nil => simp [(itemsConvertTo_nil_iff before).mp hconverts]
  | cons item rest ih =>
      obtain ⟨first, others, hfirst, hothers, rfl⟩ := (itemsConvertTo_cons_iff before).mp hconverts
      intro stored hstored
      rcases List.mem_append.mp hstored with hstored | hstored
      · obtain rfl : first = some stored := by simpa using hstored
        exact ⟨item, _, hfirst⟩
      · exact ih hothers stored hstored

/-- Every field of an item was stored as one of the types of its attribute, or under a name that
is free. -/
theorem Frame.ConvertsTo.exists_origin {frame : Frame σ} {fields : List (String × Value)}
    {item : Item} (hconverts : frame.ConvertsTo fields item) (before : σ)
    (hschema : frame.schema.WellFormed) : ∀ entry ∈ item,
      (∀ field, frame.schema.attribute? entry.1 = some field → ∃ value origin,
        Value.ConvertsTo value frame.scope origin field.types (some entry.2)) ∧
        (frame.schema.attribute? entry.1 = none →
          frame.schema.nativeAttribute? entry.1 = none) := by
  intro entry hentry
  have hsorted := ((convertsTo_iff hschema before).mp hconverts).1
  have hstored := (Fields.get?_eq_some_iff (Fields.nodup_of_sorted hsorted)).mpr hentry
  constructor
  · intro field hfield
    obtain ⟨-, value, -, -, hvalue⟩ := hconverts.exists_value before hschema hfield hstored
    exact ⟨value, _, hvalue⟩
  · intro hnone
    exact (hconverts.exists_kept before hschema hnone hstored).1

/-- What a value is stored as was made by storing the parts of the value. -/
theorem Scope.explains_convertsTo {start : Scope σ} (hstart : start.Repeatable) (before : σ) :
    start.Explains fun scope types stored =>
      ∃ value origin, Value.ConvertsTo value scope origin types (some stored) := by
  rintro scope types stored htypes ⟨value, place, hconverts⟩
  cases value with
  | undefined =>
      have hnone : Value.undefined.ConvertsTo scope place types none :=
        fun _ _ => by simp [Value.writer]
      cases hconverts.unique before hnone
  | list items =>
      obtain ⟨choice, hchoice, hparts⟩ := (Value.convertsTo_list_iff before).mp hconverts
      split at hparts
      · next elements harray =>
          obtain ⟨storeds, hsame, hstoreds⟩ := hparts
          obtain rfl := Option.some.inj hsame
          exact .list (harray ▸ (Scope.of_resolve hchoice).1) (hstoreds.exists_value before)
      · next hlist => exact .of_encodeAs hstart htypes hchoice (fun _ _ => hlist) (by simp) hparts
  | map fields =>
      obtain ⟨choice, hchoice, hparts⟩ := (Value.convertsTo_map_iff before).mp hconverts
      have htype := (Scope.of_resolve hchoice).1
      cases henter : scope.enter? place choice.type with
      | some frame =>
          simp only [henter] at hparts
          obtain ⟨item, hsame, hitem⟩ := hparts
          obtain rfl := Option.some.inj hsame
          have hschema := hstart.wellFormed _ _ (htypes.reaches htype henter)
          have horigin := hitem.exists_origin before hschema
          exact .document htype henter ((Frame.convertsTo_iff hschema before).mp hitem).1
            (fun entry hentry => (horigin entry hentry).1)
            fun entry hentry => (horigin entry hentry).2
      | none =>
          simp only [henter] at hparts
          exact .of_encodeAs hstart htypes hchoice (by simp) (fun _ _ => henter) hparts
  | _ =>
      obtain ⟨choice, hchoice, hencode⟩ :=
        (Value.convertsTo_leaf_iff before rfl (by simp) (by simp)).mp hconverts
      exact .of_encodeAs hstart htypes hchoice (by simp) (by simp) hencode

/-- A value that was stored at once comes back if its dates are legible. -/
theorem WireValue.exists_returns_of_encodeScalar {start scope : Scope σ} {origin place : Place}
    {types : List (CandidateType σ)} (hapart : scope.ToldApart types) (before : σ) {value : Value}
    {stored : WireValue} {choice : Choice σ}
    (hchoice : choice ∈ scope.choices origin types value.isDocument)
    (hpos : 0 < value.score Score.rounded choice.reading)
    (hencode : choice.reading.encodeScalar value = .ok (some stored))
    (hlasts : ∀ reading ∈ types.flatMap (scope.readings place stored.isDocument),
      stored.wireType ∈ reading.type.holds → stored.LeafLasts reading.type)
    (hmemory : stored.size ≤ 2 ^ 63) :
    ∃ back, stored.Returns start scope place types back := by
  rw [← Reading.isDocument_of_encodeScalar hencode] at hchoice
  obtain ⟨found, hfound, hsame⟩ := Scope.exists_choice_at hchoice place
  have hleaf : found.reading.type.AtOnce := hsame ▸ Reading.atOnce_of_encodeScalar hencode
  have hlegible := Reading.leafLasts_of_encodeScalar hencode fun hholds => by
    rw [← hsame] at hholds ⊢
    refine hlasts found.reading ?_ hholds
    rw [Scope.readings_eq_map]
    exact List.mem_map_of_mem hfound
  obtain ⟨back, hrecoded⟩ := exists_recoded hpos hencode hlegible hmemory
  exact ⟨back, .of_recoded hapart before hleaf hfound (hsame ▸ hrecoded)⟩

/-- Lists and maps hold no dates of their own. -/
theorem WireValue.leafLasts_of_list_or_map {stored : WireValue} {type : CandidateType σ}
    (hstored : (∃ items, stored = .list items) ∨ ∃ fields, stored = .map fields)
    (hholds : stored.wireType ∈ type.holds) : stored.LeafLasts type := by
  cases type with
  | date storage =>
      rcases hstored with ⟨items, rfl⟩ | ⟨fields, rfl⟩ <;> cases storage <;>
        simp [CandidateType.holds, wireType] at hholds
  | set element =>
      cases element with
      | date storage =>
          rcases hstored with ⟨items, rfl⟩ | ⟨fields, rfl⟩ <;> simp [LeafLasts, members]
      | _ => trivial
  | _ => trivial

/-! ## By recursion on the stored value -/

namespace WireValue

variable {start : Scope σ}

mutual

/-- What was stored once and lasts comes back. -/
theorem exists_returns (hstart : start.Repeatable) (before : σ)
    {stores : Scope σ → List (CandidateType σ) → WireValue → Prop} (hstores : start.Explains stores) :
    ∀ (stored : WireValue) {scope : Scope σ} {types : List (CandidateType σ)},
      stored.size ≤ 2 ^ 63 → start.Discerns scope types → stores scope types stored →
        ∀ {place : Place}, stored.Lasts scope place types →
          ∃ back, stored.Returns start scope place types back
  | .list items, scope, types, hmemory, htypes, hmade, place, hlasts => by
      cases hstores htypes hmade with
      | list harray hitems =>
          unfold Lasts at hlasts
          obtain ⟨backs, hbacks⟩ := exists_itemsReturn hstart before hstores items
            (by rw [size] at hmemory; omega) (hstart.elements_discerns htypes harray) hitems
            (hlasts _ harray)
          exact ⟨_, .of_items htypes.apart before harray hmemory hbacks⟩
      | atOnce hchoice hpos hencode =>
          exact exists_returns_of_encodeScalar htypes.apart before hchoice hpos hencode
            (fun _ _ hholds => leafLasts_of_list_or_map (.inl ⟨items, rfl⟩) hholds) hmemory
  | .map item, scope, types, hmemory, htypes, hmade, place, hlasts => by
      cases hstores htypes hmade with
      | @document _ frame _ type htype henter hsorted hdeclared hundeclared =>
          obtain ⟨entered, hentered⟩ := (Scope.opens_of_enter? henter).enter? place
          have hreaches := htypes.reaches htype henter
          unfold Lasts at hlasts
          obtain ⟨given, hgiven⟩ : ∃ given, List.Forall₂
              (Frame.FieldReturns start ⟨frame.scope, entered, frame.schema⟩) item given :=
            exists_fieldsReturn hstart before hstores item (by rw [size] at hmemory; omega)
              hreaches hdeclared hundeclared (hlasts type htype _ hentered)
          exact ⟨_, .of_fields hstart htypes before htype hentered hsorted hmemory hgiven⟩
      | atOnce hchoice hpos hencode =>
          exact exists_returns_of_encodeScalar htypes.apart before hchoice hpos hencode
            (fun _ _ hholds => leafLasts_of_list_or_map (.inr ⟨item, rfl⟩) hholds) hmemory
  | .string _, _, _, hmemory, htypes, hmade, _, hlasts
  | .number _, _, _, hmemory, htypes, hmade, _, hlasts
  | .binary _, _, _, hmemory, htypes, hmade, _, hlasts
  | .stringSet _, _, _, hmemory, htypes, hmade, _, hlasts
  | .numberSet _, _, _, hmemory, htypes, hmade, _, hlasts
  | .binarySet _, _, _, hmemory, htypes, hmade, _, hlasts
  | .boolean _, _, _, hmemory, htypes, hmade, _, hlasts
  | .null _, _, _, hmemory, htypes, hmade, _, hlasts => by
      cases hstores htypes hmade with
      | atOnce hchoice hpos hencode =>
          unfold Lasts at hlasts
          exact exists_returns_of_encodeScalar htypes.apart before hchoice hpos hencode hlasts
            hmemory

theorem exists_itemsReturn (hstart : start.Repeatable) (before : σ)
    {stores : Scope σ → List (CandidateType σ) → WireValue → Prop} (hstores : start.Explains stores) :
    ∀ (items : List WireValue) {scope : Scope σ} {elements : List (CandidateType σ)},
      itemsSize items ≤ 2 ^ 63 → start.Discerns scope elements →
        (∀ item ∈ items, stores scope elements item) →
        ∀ {place : Place} {index : Nat}, WireValue.ItemsLast scope place elements index items →
          ∃ values, ItemsReturn start items scope place elements index values
  | [], _, _, _, _, _, _, index, _ => ⟨[], .nil before index⟩
  | item :: rest, scope, elements, hmemory, helements, hmade, place, index, hlasts => by
      rw [itemsSize] at hmemory
      obtain ⟨back, hback⟩ := exists_returns hstart before hstores item (by omega) helements
        (hmade item (by simp)) hlasts.1
      obtain ⟨backs, hbacks⟩ := exists_itemsReturn hstart before hstores rest (by omega) helements
        (fun other hother => hmade other (by simp [hother])) hlasts.2
      exact ⟨back :: backs, hbacks.cons before helements.apart hback⟩

theorem exists_fieldsReturn (hstart : start.Repeatable) (before : σ)
    {stores : Scope σ → List (CandidateType σ) → WireValue → Prop} (hstores : start.Explains stores) :
    ∀ (fields : List (String × WireValue)) {frame : Frame σ}, fieldsSize fields ≤ 2 ^ 63 →
      start.Reaches frame.scope frame.schema →
      (∀ entry ∈ fields, ∀ field, frame.schema.attribute? entry.1 = some field →
        stores frame.scope field.types entry.2) →
      (∀ entry ∈ fields, frame.schema.attribute? entry.1 = none →
        frame.schema.nativeAttribute? entry.1 = none) →
      WireValue.FieldsLast frame fields →
        ∃ given, List.Forall₂ (frame.FieldReturns start) fields given
  | [], _, _, _, _, _, _ => ⟨[], .nil⟩
  | (key, stored) :: rest, frame, hmemory, hreaches, hdeclared, hundeclared, hlasts => by
      rw [fieldsSize] at hmemory
      obtain ⟨hfirst, hrest⟩ := hlasts
      obtain ⟨others, hothers⟩ := exists_fieldsReturn hstart before hstores rest (by omega) hreaches
        (fun entry hentry => hdeclared entry (by simp [hentry]))
        (fun entry hentry => hundeclared entry (by simp [hentry])) hrest
      cases hattribute : frame.schema.attribute? key with
      | none =>
          rw [hattribute] at hfirst
          have hnative := hundeclared (key, stored) (by simp) hattribute
          have hkept := (keptWhole_iff stored _).mpr hfirst
          obtain ⟨back, hread, hkeep⟩ := Option.bind_eq_some_iff.mp hkept
          exact ⟨(key, back) :: others, .cons (.undeclared hattribute hnative hread hkeep) hothers⟩
      | some field =>
          rw [hattribute] at hfirst
          have hmade := hdeclared (key, stored) (by simp) field hattribute
          obtain ⟨hfield, rfl⟩ := SchemaOf.mem_of_attribute? hattribute
          obtain ⟨back, hback⟩ := exists_returns hstart before hstores stored (by omega)
            (hstart.attribute_discerns hreaches hfield) hmade hfirst.2
          exact ⟨(field.nativeName, back) :: others,
            .cons (.declared hfield hfirst.1 hback) hothers⟩

end

end WireValue

end ItemMapper
