import ItemMapper.Expression.Update.Action
import ItemMapper.Proofs.AttributePath
import ItemMapper.Proofs.Plain.Settled

/-!
# What stands at a declared path

A path of declared attributes leads from a document into its fields, and on through nested objects
and references (`Frame.Leads`).  At its end it knows the scope and the place at which writing looks
at the value there.

Without aliases and numeric names such a path is followed to the stored names that are its own
parts (`Frame.Leads.lookup`), and what stands at it in the item is what the value that stands at it
in the document is encoded as, in that scope and at that place (`Frame.Leads.encode`).
-/

namespace ItemMapper

variable {σ : Type}

open Pipeline

/-- The stored value under some keys of nested maps. -/
def WireValue.descend? : WireValue → List String → Option WireValue
  | stored, [] => some stored
  | .map fields, part :: rest => (Fields.get? fields part).bind (WireValue.descend? · rest)
  | _, _ :: _ => none

theorem Value.descend?_map_cons (fields : Document) (part : String) (rest : List String) :
    (Value.map fields).descend? (part :: rest) =
      (Fields.get? fields part).bind (Value.descend? · rest) := by
  rw [Value.descend?]

theorem WireValue.descend?_map_cons (item : Item) (part : String) (rest : List String) :
    (WireValue.map item).descend? (part :: rest) =
      (Fields.get? item part).bind (WireValue.descend? · rest) := by
  rw [WireValue.descend?]

/-- Only a map has something under a part that is no position. -/
theorem Value.exists_map_of_descend? {value inner : Value} {part : String} {rest : List String}
    (hpart : Decimal.parseIndex? part = none)
    (hinner : value.descend? (part :: rest) = some inner) : ∃ fields, value = .map fields := by
  cases value with
  | map fields => exact ⟨fields, rfl⟩
  | list items => simp [Value.descend?, hpart] at hinner
  | _ => simp [Value.descend?] at hinner

theorem WireValue.exists_map_of_descend? {stored inner : WireValue} {part : String}
    {rest : List String} (hinner : stored.descend? (part :: rest) = some inner) :
    ∃ fields, stored = .map fields := by
  cases stored with
  | map fields => exact ⟨fields, rfl⟩
  | _ => simp [WireValue.descend?] at hinner

theorem Value.wellFormed_of_mem {fields : List (String × Value)} {field : String × Value}
    (hformed : Value.FieldsWellFormed fields) (hfield : field ∈ fields) :
    field.2.WellFormed := by
  induction fields with
  | nil => simp at hfield
  | cons first rest ih =>
      rcases List.mem_cons.mp hfield with rfl | hrest
      · exact hformed.1
      · exact ih hformed.2 hrest

/-- The path leads through declared attributes to a value, which is looked at in a scope and at a
place as one of some types. -/
inductive Frame.Leads : Frame σ → List String → Scope σ → Place → List (CandidateType σ) → Prop
  | last {frame : Frame σ} {key : String} {field : Attribute σ}
      (hfield : frame.schema.attribute? key = some field) :
      Leads frame [key] frame.scope (frame.place.child key) field.types
  | inside {frame inner : Frame σ} {key : String} {field : Attribute σ} {type : CandidateType σ}
      {rest : List String} {scope : Scope σ} {place : Place} {types : List (CandidateType σ)}
      (hfield : frame.schema.attribute? key = some field) (htype : type ∈ field.types)
      (henter : frame.scope.enter? (frame.place.child key) type = some inner)
      (hrest : Leads inner rest scope place types) : Leads frame (key :: rest) scope place types

/-- What can be reached uses no aliases, no names that read as positions, and one candidate type
for each attribute. -/
structure Scope.Navigable (start : Scope σ) : Prop extends start.Unaliased where
  oneType : ∀ scope schema, start.Reaches scope schema →
    ∀ field ∈ schema.attributes, ∃ type, field.types = [type]
  noPosition : ∀ scope schema, start.Reaches scope schema →
    ∀ field ∈ schema.attributes, Decimal.parseIndex? field.name = none

/-- What is stored under a declared name is what the field of this name is converted to. -/
theorem Scope.Navigable.field {start : Scope σ} (hnavigable : start.Navigable) {frame : Frame σ}
    (hreaches : start.Reaches frame.scope frame.schema) (before : σ) {fields : Document}
    {item : Item} (hformed : (Value.map fields).WellFormed)
    (hconverts : frame.ConvertsTo fields item) {key : String} {field : Attribute σ}
    (hfield : frame.schema.attribute? key = some field) {value : Value} {stored : WireValue}
    (hgiven : Fields.get? fields key = some value)
    (hkept : Fields.get? item key = some stored) :
    value.WellFormed ∧
      value.ConvertsTo frame.scope (frame.place.child key) field.types (some stored) := by
  have hstores := ((Frame.convertsTo_iff (hnavigable.wellFormed _ _ hreaches) before).mp
    hconverts).2 key
  rw [SchemaOf.normalized_of_noAlias (hnavigable.noAlias _ _ hreaches) hformed.1, hkept,
    Frame.storesAs_declared hgiven hfield] at hstores
  exact ⟨Value.wellFormed_of_mem hformed.2 (Fields.mem_of_get? hgiven), hstores⟩

/-- Entering a document keeps the keys, and either stays in the scope and at the place, or begins
to count the keys anew. -/
theorem Scope.place_of_enter? {scope : Scope σ} {place : Place} {type : CandidateType σ}
    {frame : Frame σ} (henter : scope.enter? place type = some frame) :
    frame.place.keys = place.keys ∧
      (frame.scope = scope ∧ frame.place = place ∨ frame.place.outer = place.keys) := by
  cases type with
  | object schema =>
      obtain rfl := Option.some.inj henter
      exact ⟨rfl, .inl ⟨rfl, rfl⟩⟩
  | self =>
      obtain rfl := Option.some.inj henter
      exact ⟨List.append_nil _, .inr rfl⟩
  | model name =>
      obtain ⟨model, -, rfl⟩ := Option.map_eq_some_iff.mp henter
      exact ⟨List.append_nil _, .inr rfl⟩
  | _ => simp [Scope.enter?] at henter

namespace PathPosition

variable {path part : String} {rest : List String} {scope : Scope σ} {place : Place}
  {frame : Frame σ} {segments : List Segment} {last : Option (Attribute σ)}

/-- A part that is no position leads on into the document that declares it. -/
theorem follow_enter {type : CandidateType σ} {field : Attribute σ}
    (hpart : Decimal.parseIndex? part = none) (henter : scope.enter? place type = some frame)
    (hfield : frame.schema.nativeAttribute? part = some field) :
    follow path (part :: rest) (.value scope place [type]) segments last =
      follow path (part :: rest) (.document frame) segments last := by
  have hdescend : descend? scope place [type] part = some frame := by
    simp [descend?, henter, hfield]
  simp only [follow, hpart, hdescend]

theorem follow_attribute {field : Attribute σ} (hpart : part ≠ "")
    (hfield : frame.schema.nativeAttribute? part = some field) :
    follow path (part :: rest) (.document frame) segments last =
      follow path rest (.value frame.scope (frame.place.child part) field.types)
        (segments ++ [.name field.name]) (some field) := by
  simp only [follow, hpart, if_false, hfield]

end PathPosition

namespace Frame.Leads

variable {start : Scope σ} {frame : Frame σ} {keys : List String} {scope : Scope σ} {place : Place}
  {types : List (CandidateType σ)}

/-! ## Where the path leads -/

/-- The path begins with a declared attribute. -/
theorem exists_cons (hleads : frame.Leads keys scope place types) :
    ∃ key rest field, keys = key :: rest ∧ frame.schema.attribute? key = some field := by
  cases hleads with
  | last hfield => exact ⟨_, _, _, rfl, hfield⟩
  | inside hfield => exact ⟨_, _, _, rfl, hfield⟩

/-- The keys of the place are those of the path. -/
theorem keys_eq (hleads : frame.Leads keys scope place types) :
    place.keys = frame.place.keys ++ keys := by
  induction hleads with
  | last => exact Place.keys_child _ _
  | inside _ _ henter _ ih =>
      rw [ih, (Scope.place_of_enter? henter).1, Place.keys_child, List.append_assoc]
      rfl

/-- Where the keys of the end are counted from the beginning, no reference has been entered. -/
theorem scope_eq (hleads : frame.Leads keys scope place types) (houter : place.outer = []) :
    scope = frame.scope ∧ frame.place.outer = [] := by
  induction hleads with
  | last => exact ⟨rfl, houter⟩
  | inside _ _ henter _ ih =>
      obtain ⟨hscope, hinner⟩ := ih houter
      rcases (Scope.place_of_enter? henter).2 with ⟨hsame, hplace⟩ | houters
      · rw [hplace] at hinner
        exact ⟨hscope.trans hsame, hinner⟩
      · rw [hinner] at houters
        simp [Place.keys_child] at houters

theorem reaches_inside {inner : Frame σ} {field : Attribute σ} {type : CandidateType σ}
    {key : String} {entered : Place} (hreaches : start.Reaches frame.scope frame.schema)
    (hfield : frame.schema.attribute? key = some field) (htype : type ∈ field.types)
    (henter : frame.scope.enter? entered type = some inner) :
    start.Reaches inner.scope inner.schema :=
  .inside (.attribute hreaches (SchemaOf.mem_of_attribute? hfield).1 htype)
    (Scope.opens_of_enter? henter)

/-- What stands at the end can be reached as well. -/
theorem covers (hleads : frame.Leads keys scope place types)
    (hreaches : start.Reaches frame.scope frame.schema) :
    start.Covers scope ∧ start.MentionsTypes types := by
  induction hleads with
  | last hfield =>
      exact ⟨((Scope.closed_covers start).of_reaches hreaches).2,
        Scope.mentionsTypes_of_field ⟨_, hreaches⟩ (SchemaOf.mem_of_attribute? hfield).1⟩
  | inside hfield htype henter _ ih => exact ih (reaches_inside hreaches hfield htype henter)

/-! ## Following the path -/

theorem follow (hnavigable : start.Navigable) (hleads : frame.Leads keys scope place types)
    (hreaches : start.Reaches frame.scope frame.schema) (path : String) :
    ∀ segments last, ∃ field, PathPosition.follow path keys (.document frame) segments last =
      .ok ⟨segments ++ keys.map .name, some types, some field⟩ := by
  induction hleads with
  | @last frame key field hfield =>
      intro segments last
      obtain ⟨hmem, rfl⟩ := SchemaOf.mem_of_attribute? hfield
      have hschema := hnavigable.wellFormed _ _ hreaches
      refine ⟨field, ?_⟩
      rw [PathPosition.follow_attribute (SchemaOf.ne_empty_of_usable (hschema.usable field hmem))
        (hschema.nativeAttribute?_name hmem)]
      rfl
  | @inside frame inner key field type rest _ _ _ hfield htype henter hrest ih =>
      intro segments last
      obtain ⟨hmem, rfl⟩ := SchemaOf.mem_of_attribute? hfield
      have hschema := hnavigable.wellFormed _ _ hreaches
      have hinside := reaches_inside hreaches hfield htype henter
      obtain ⟨part, more, next, rfl, hnext⟩ := hrest.exists_cons
      obtain ⟨hnextMem, rfl⟩ := SchemaOf.mem_of_attribute? hnext
      obtain ⟨only, honly⟩ := hnavigable.oneType _ _ hreaches field hmem
      obtain rfl : type = only := by simpa [honly] using htype
      obtain ⟨found, hfound⟩ := ih hinside (segments ++ [.name field.name]) (some field)
      refine ⟨found, ?_⟩
      -- the attribute is found, its only type is entered, and the next attribute is found there
      rw [PathPosition.follow_attribute (SchemaOf.ne_empty_of_usable (hschema.usable field hmem))
        (hschema.nativeAttribute?_name hmem), honly,
        PathPosition.follow_enter (hnavigable.noPosition _ _ hinside next hnextMem) henter
          ((hnavigable.wellFormed _ _ hinside).nativeAttribute?_name hnextMem), hfound]
      simp

/-- The path is followed to the stored names that are its own parts. -/
theorem lookup (hnavigable : start.Navigable) {path : String}
    (hleads : start.frame.Leads (Dotted.split path) scope place types) :
    ∃ field, start.lookup path =
      .ok ⟨(Dotted.split path).map .name, some types, some field⟩ :=
  hleads.follow hnavigable .root path [] none

/-! ## The value at the end -/

/-- What stands at the path in the item is what the value there is converted to. -/
theorem convertsTo (hnavigable : start.Navigable) (before : σ)
    (hleads : frame.Leads keys scope place types)
    (hreaches : start.Reaches frame.scope frame.schema) :
    ∀ {fields : Document} {item : Item} {value : Value} {stored : WireValue},
      (Value.map fields).WellFormed → frame.ConvertsTo fields item →
      (Value.map fields).descend? keys = some value →
      (WireValue.map item).descend? keys = some stored →
      value.WellFormed ∧ value.ConvertsTo scope place types (some stored) := by
  induction hleads with
  | @last frame key field hfield =>
      intro fields item value stored hformed hconverts hvalue hstored
      have hgiven : Fields.get? fields key = some value := by
        simpa [Value.descend?] using hvalue
      have hkept : Fields.get? item key = some stored := by
        simpa [WireValue.descend?] using hstored
      exact hnavigable.field hreaches before hformed hconverts hfield hgiven hkept
  | @inside frame inner key field type rest _ _ _ hfield htype henter hrest ih =>
      intro fields item value stored hformed hconverts hvalue hstored
      have hinside := reaches_inside hreaches hfield htype henter
      obtain ⟨part, more, next, rfl, hnext⟩ := hrest.exists_cons
      obtain ⟨hnextMem, rfl⟩ := SchemaOf.mem_of_attribute? hnext
      have hpart := hnavigable.noPosition _ _ hinside next hnextMem
      obtain ⟨child, hgiven, hchild⟩ := Option.bind_eq_some_iff.mp
        ((Value.descend?_map_cons _ _ _).symm.trans hvalue)
      obtain ⟨kept, hkept, hinner⟩ := Option.bind_eq_some_iff.mp
        ((WireValue.descend?_map_cons _ _ _).symm.trans hstored)
      -- neither value has a list here, whose items only a position names
      obtain ⟨innerFields, rfl⟩ := Value.exists_map_of_descend? hpart hchild
      obtain ⟨innerItem, rfl⟩ := WireValue.exists_map_of_descend? hinner
      obtain ⟨hformedChild, hchildConverts⟩ :=
        hnavigable.field hreaches before hformed hconverts hfield hgiven hkept
      obtain ⟨only, honly⟩ :=
        hnavigable.oneType _ _ hreaches field (SchemaOf.mem_of_attribute? hfield).1
      obtain ⟨choice, hchoice, hstores⟩ := (Value.convertsTo_map_iff before).mp hchildConverts
      have hchosen : choice.type = type := by
        have hmem := (Scope.of_resolve hchoice).1
        rw [honly] at hmem htype
        rw [List.mem_singleton.mp hmem, List.mem_singleton.mp htype]
      rw [hchosen, henter] at hstores
      obtain ⟨other, hsame, hinnerConverts⟩ := hstores
      obtain rfl := WireValue.map.inj (Option.some.inj hsame)
      exact ih hinside hformedChild hinnerConverts hchild hinner

/-- What stands at the path in the item is the value there, encoded where the path leads. -/
theorem encode (hnavigable : start.Navigable) (before : σ)
    (hleads : frame.Leads keys scope place types)
    (hreaches : start.Reaches frame.scope frame.schema) {fields : Document} {item : Item}
    {value : Value} {stored : WireValue} (hformed : (Value.map fields).WellFormed)
    (hconverts : frame.ConvertsTo fields item)
    (hvalue : (Value.map fields).descend? keys = some value)
    (hstored : (WireValue.map item).descend? keys = some stored) :
    scope.encode place types value = .ok (some stored) := by
  obtain ⟨hformedValue, hconvertsValue⟩ :=
    hleads.convertsTo hnavigable before hreaches hformed hconverts hvalue hstored
  obtain ⟨hcovers, htypes⟩ := hleads.covers hreaches
  exact (Value.convertsTo_iff_encode hnavigable.toUnaliased before value hformedValue hcovers
    htypes).mp hconvertsValue

end Frame.Leads

end ItemMapper
