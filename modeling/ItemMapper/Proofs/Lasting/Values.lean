import ItemMapper.Proofs.Lasting.Leaf
import ItemMapper.Proofs.Lasting.Undeclared
import ItemMapper.Proofs.Plain.Paths
import ItemMapper.Proofs.Plain.Reading

/-!
# Stored values that last

`WireValue.Lasts` says of a stored value, part by part, that nothing in it is lost when it is read:
its dates are legible, its attributes are found again under their native names, and its undeclared
parts are kept whole.  Where types are told apart, every value that is read and then written as it
was lasts (`WireValue.lasts_of_reads`).
-/

namespace ItemMapper

variable {σ : Type}

open Pipeline

/-! ## What lasts -/

namespace WireValue

mutual

/-- Nothing of a stored value is lost when it is read at a place, as one of some types. -/
def Lasts : WireValue → Scope σ → Place → List (CandidateType σ) → Prop
  | .list items, scope, place, types =>
    ∀ elements, .array elements ∈ types → WireValue.ItemsLast scope place elements 0 items
  | .map fields, scope, place, types =>
    ∀ type ∈ types, ∀ frame, scope.enter? place type = some frame →
      WireValue.FieldsLast frame fields
  | stored, scope, place, types =>
    ∀ reading ∈ types.flatMap (scope.readings place false),
      stored.wireType ∈ reading.type.holds → stored.LeafLasts reading.type

/-- Every stored item lasts, from a position on. -/
def ItemsLast (scope : Scope σ) (place : Place) (elements : List (CandidateType σ)) :
    Nat → List WireValue → Prop
  | _, [] => True
  | index, item :: rest =>
    item.Lasts scope (place.item index) elements ∧
      WireValue.ItemsLast scope place elements (index + 1) rest

/-- Every stored field lasts: the attribute that it belongs to has its native name for itself, and
an undeclared field is kept whole. -/
def FieldsLast (frame : Frame σ) : List (String × WireValue) → Prop
  | [] => True
  | (key, stored) :: rest =>
    (match frame.schema.attribute? key with
      | some field =>
        frame.schema.nativeAttribute? field.nativeName = some field ∧
          stored.Lasts frame.scope (frame.place.child key) field.types
      | none => stored.KeptWhole frame.scope (frame.place.child key)) ∧
      WireValue.FieldsLast frame rest

end

end WireValue

/-! ## Types that are told apart -/

namespace Scope

/-- Types that are told apart and can be reached. -/
structure Discerns (start scope : Scope σ) (types : List (CandidateType σ)) : Prop where
  apart : scope.ToldApart types
  uses : ∀ type ∈ types, start.Uses scope type

namespace Discerning

variable {start scope : Scope σ} (hstart : start.Discerning)

include hstart

theorem attribute_discerns {schema : Schema σ} (hreaches : start.Reaches scope schema)
    {field : Attribute σ} (hfield : field ∈ schema.attributes) :
    start.Discerns scope field.types where
  apart := hstart.attributes scope schema hreaches field hfield
  uses _ htype := .attribute hreaches hfield htype

theorem elements_discerns {types elements : List (CandidateType σ)}
    (htypes : start.Discerns scope types) (harray : .array elements ∈ types) :
    start.Discerns scope elements where
  apart := hstart.elements scope elements (htypes.uses _ harray)
  uses _ htype := .element (htypes.uses _ harray) htype

end Discerning

/-- The document that a value is belongs to a schema that can be reached. -/
theorem Discerns.reaches {start scope : Scope σ} {types : List (CandidateType σ)}
    (htypes : start.Discerns scope types) {type : CandidateType σ} (htype : type ∈ types)
    {place : Place} {frame : Frame σ} (henter : scope.enter? place type = some frame) :
    start.Reaches frame.scope frame.schema :=
  .inside (htypes.uses type htype) (opens_of_enter? henter)

end Scope

/-! ## Native and stored names -/

namespace SchemaOf

variable {schema : Schema σ} {field other : Attribute σ}

/-- What is found under the native name of an attribute has this name as well. -/
theorem WellFormed.nativeName_eq (hschema : schema.WellFormed) (hfield : field ∈ schema.attributes)
    (hfind : schema.nativeAttribute? field.nativeName = some other) :
    other.nativeName = field.nativeName := by
  cases halias : field.nativeAlias with
  | none =>
      have hname : field.nativeName = field.name := by simp [AttributeOf.nativeName, halias]
      rw [hname, hschema.nativeAttribute?_name hfield] at hfind
      rw [← Option.some.inj hfind]
  | some nativeAlias =>
      have hname : field.nativeName = nativeAlias := by simp [AttributeOf.nativeName, halias]
      rw [hname, nativeAttribute?, Option.or_eq_some_iff] at hfind
      rcases hfind with hfound | ⟨hnone, -⟩
      · have hother : other.nativeAlias = some nativeAlias := by simpa using List.find?_some hfound
        rw [hname, AttributeOf.nativeName, hother, Option.getD_some]
      · rw [List.find?_eq_none] at hnone
        exact absurd (by simp [halias]) (hnone field hfield)

/-- Under the stored name of an attribute stands what was given for the attribute. -/
theorem WellFormed.nativeAttribute?_of_storedName (hschema : schema.WellFormed) {key : String}
    (hfield : field ∈ schema.attributes) (hname : schema.storedName key = field.name) :
    schema.nativeAttribute? key = some field := by
  cases hfind : schema.nativeAttribute? key with
  | some found =>
      rw [storedName, hfind, Option.map_some, Option.getD_some] at hname
      have hfound := hschema.attribute?_name (mem_of_nativeAttribute? hfind)
      rw [hname, hschema.attribute?_name hfield] at hfound
      exact hfound.symm
  | none =>
      obtain rfl : key = field.name := by simpa [storedName, hfind] using hname
      rw [hschema.nativeAttribute?_name hfield] at hfind
      cases hfind

/-- Under a name that is not declared stands what was given under the same name. -/
theorem WellFormed.of_storedName_undeclared (hschema : schema.WellFormed) {key name : String}
    (hnone : schema.attribute? name = none) (hname : schema.storedName key = name) :
    key = name ∧ schema.nativeAttribute? key = none := by
  cases hfind : schema.nativeAttribute? key with
  | some found =>
      rw [storedName, hfind, Option.map_some, Option.getD_some] at hname
      rw [← hname, hschema.attribute?_name (mem_of_nativeAttribute? hfind)] at hnone
      cases hnone
  | none => exact ⟨by simpa [storedName, hfind] using hname, rfl⟩

theorem exists_nativeAttribute?_nativeName (hfield : field ∈ schema.attributes) :
    ∃ found, schema.nativeAttribute? field.nativeName = some found := by
  cases hfind : schema.nativeAttribute? field.nativeName with
  | some found => exact ⟨found, rfl⟩
  | none =>
      rw [nativeAttribute?, Option.or_eq_none_iff, List.find?_eq_none, attribute?,
        List.find?_eq_none] at hfind
      cases halias : field.nativeAlias with
      | none => exact absurd (by simp [AttributeOf.nativeName, halias]) (hfind.2 field hfield)
      | some nativeAlias =>
          exact absurd (by simp [AttributeOf.nativeName, halias]) (hfind.1 field hfield)

theorem exists_of_normalized {fields : List (String × Value)} {name : String} {value : Value}
    (hvalue : (schema.normalized fields).get? name = some value) :
    ∃ key, (key, value) ∈ fields ∧ schema.storedName key = name := by
  obtain ⟨given, hgiven, heq⟩ := List.mem_map.mp (Fields.mem_of_get?_ofList hvalue)
  obtain ⟨rfl, rfl⟩ := Prod.mk.inj heq
  exact ⟨given.1, hgiven, rfl⟩

end SchemaOf

/-! ## Where stored fields come from -/

namespace Frame.ConvertsTo

variable {frame : Frame σ} {fields : List (String × Value)} {item : Item} {key : String}
  {stored : WireValue}

/-- A stored field comes from a value. -/
theorem exists_given (hconverts : frame.ConvertsTo fields item) (before : σ)
    (hschema : frame.schema.WellFormed) (hstored : item.get? key = some stored) :
    ∃ name value, (name, value) ∈ fields ∧ frame.schema.storedName name = key ∧
      frame.StoresAs [(key, value)] key (some stored) := by
  have hstores := ((Frame.convertsTo_iff hschema before).mp hconverts).2 key
  rw [hstored] at hstores
  cases hvalue : (frame.schema.normalized fields).get? key with
  | none => cases (Frame.storesAs_absent hvalue).mp hstores
  | some value =>
      obtain ⟨name, hname, hsame⟩ := SchemaOf.exists_of_normalized hvalue
      refine ⟨name, value, hname, hsame, (Frame.storesAs_congr ?_).mp hstores⟩
      rw [hvalue, Fields.get?_cons, if_pos rfl]

/-- That of an attribute comes from a value of the attribute. -/
theorem exists_value (hconverts : frame.ConvertsTo fields item) (before : σ)
    (hschema : frame.schema.WellFormed) {field : Attribute σ}
    (hfield : frame.schema.attribute? key = some field) (hstored : item.get? key = some stored) :
    ∃ name value, (name, value) ∈ fields ∧ frame.schema.nativeAttribute? name = some field ∧
      value.ConvertsTo frame.scope (frame.place.child key) field.types (some stored) := by
  obtain ⟨name, value, hvalue, hname, hstores⟩ := hconverts.exists_given before hschema hstored
  obtain ⟨hmem, rfl⟩ := SchemaOf.mem_of_attribute? hfield
  exact ⟨name, value, hvalue, hschema.nativeAttribute?_of_storedName hmem hname,
    (Frame.storesAs_declared (by simp [Fields.get?_cons]) hfield).mp hstores⟩

/-- An undeclared one is kept of a value under the same name. -/
theorem exists_kept (hconverts : frame.ConvertsTo fields item) (before : σ)
    (hschema : frame.schema.WellFormed) (hnone : frame.schema.attribute? key = none)
    (hstored : item.get? key = some stored) :
    frame.schema.nativeAttribute? key = none ∧ ∃ value, (key, value) ∈ fields ∧
      value.keep? frame.scope (frame.place.child key) = some stored := by
  obtain ⟨name, value, hvalue, hname, hstores⟩ := hconverts.exists_given before hschema hstored
  obtain ⟨rfl, hnative⟩ := hschema.of_storedName_undeclared hnone hname
  exact ⟨hnative, value, hvalue,
    (Frame.storesAs_undeclared (by simp [Fields.get?_cons]) hnone).mp hstores⟩

end Frame.ConvertsTo

/-! ## What is read and written as it was -/

namespace Frame

variable {frame : Frame σ} {item : Item} {document : Document} {key name : String}
  {stored : WireValue} {value : Value} {field : Attribute σ}

theorem ReadsAs.get?_of_mem (hreads : frame.ReadsAs item document) (before : σ)
    (hvalue : (name, value) ∈ document) : document.get? name = some value := by
  obtain ⟨loaded, -, rfl⟩ := (readsAs_iff before).mp hreads
  exact (Fields.get?_eq_some_iff (Fields.nodup_of_sorted (Fields.sorted_ofList _))).mpr hvalue

section Again

variable (hschema : frame.schema.WellFormed) (before : σ) (hreads : frame.ReadsAs item document)
  (hconverts : frame.ConvertsTo document item)

include hschema before hreads hconverts

/-- What is read for an attribute was stored for one with the same native name. -/
theorem exists_loads_of_convertsTo (hvalue : (name, value) ∈ document)
    (hnative : frame.schema.nativeAttribute? name = some field) :
    field.nativeName = name ∧ ∃ other ∈ frame.schema.attributes, other.nativeName = name ∧
      frame.Loads item other (some value) := by
  rcases hreads.cases_get? before (hreads.get?_of_mem before hvalue) with
    ⟨other, hother, rfl, hloads⟩ | hshown
  · exact ⟨hschema.nativeName_eq hother hnative, other, hother, rfl, hloads⟩
  · -- undeclared data is not stored under such a name
    obtain ⟨hnone, kept, hkept, -⟩ := mem_shown.mp hshown
    have hsorted := ((convertsTo_iff hschema before).mp hconverts).1
    have hget := (Fields.get?_eq_some_iff (Fields.nodup_of_sorted hsorted)).mpr hkept
    rw [(hconverts.exists_kept before hschema hnone hget).1] at hnative
    cases hnative

/-- A stored attribute has its native name for itself, and what is read for it is written as it
was. -/
theorem declared_of_convertsTo (hfield : frame.schema.attribute? key = some field)
    (hstored : item.get? key = some stored) :
    frame.schema.nativeAttribute? field.nativeName = some field ∧ ∃ value,
      stored.ReadsAs frame.scope (frame.place.child key) field.types value ∧
        value.ConvertsTo frame.scope (frame.place.child key) field.types (some stored) := by
  obtain ⟨name, value, hvalue, hnative, hagain⟩ :=
    hconverts.exists_value before hschema hfield hstored
  obtain ⟨rfl, other, hother, hname, hloads⟩ :=
    exists_loads_of_convertsTo hschema before hreads hconverts hvalue hnative
  obtain ⟨kept, hkept, hreadsKept⟩ := loads_some_iff.mp hloads
  -- what is stored for the other attribute is found under the same name
  obtain ⟨otherName, _, hotherValue, hotherNative, -⟩ :=
    hconverts.exists_value before hschema (hschema.attribute?_name hother) hkept
  obtain ⟨rfl, -⟩ :=
    exists_loads_of_convertsTo hschema before hreads hconverts hotherValue hotherNative
  rw [hname, hnative] at hotherNative
  obtain rfl := Option.some.inj hotherNative
  obtain ⟨-, rfl⟩ := SchemaOf.mem_of_attribute? hfield
  obtain rfl := Option.some.inj (hstored.symm.trans hkept)
  exact ⟨hnative, value, hreadsKept, hagain⟩

/-- An undeclared stored field is kept whole. -/
theorem keptWhole_of_convertsTo (hnone : frame.schema.attribute? key = none)
    (hstored : item.get? key = some stored) :
    stored.KeptWhole frame.scope (frame.place.child key) := by
  obtain ⟨hnative, value, hvalue, hkeep⟩ := hconverts.exists_kept before hschema hnone hstored
  have hshown : (key, value) ∈ frame.shown item := by
    rcases hreads.cases_get? before (hreads.get?_of_mem before hvalue) with
      ⟨other, hother, rfl, -⟩ | hshown
    · obtain ⟨found, hfound⟩ := SchemaOf.exists_nativeAttribute?_nativeName hother
      rw [hfound] at hnative
      cases hnative
    · exact hshown
  obtain ⟨-, kept, hkept, hread⟩ := mem_shown.mp hshown
  have hsorted := ((convertsTo_iff hschema before).mp hconverts).1
  rw [(Fields.get?_eq_some_iff (Fields.nodup_of_sorted hsorted)).mpr hkept] at hstored
  obtain rfl := Option.some.inj hstored
  rw [← WireValue.keptWhole_iff, hread]
  exact hkeep

/-- What holds of every field of an item that is read and written as it was. -/
theorem fields_of_convertsTo : ∀ entry ∈ item,
    (∀ field, frame.schema.attribute? entry.1 = some field →
      frame.schema.nativeAttribute? field.nativeName = some field ∧ ∃ value,
        entry.2.ReadsAs frame.scope (frame.place.child entry.1) field.types value ∧
          value.ConvertsTo frame.scope (frame.place.child entry.1) field.types (some entry.2)) ∧
      (frame.schema.attribute? entry.1 = none →
        entry.2.KeptWhole frame.scope (frame.place.child entry.1)) := by
  intro entry hentry
  have hsorted := ((convertsTo_iff hschema before).mp hconverts).1
  have hstored := (Fields.get?_eq_some_iff (Fields.nodup_of_sorted hsorted)).mpr hentry
  exact ⟨fun _ hfield => declared_of_convertsTo hschema before hreads hconverts hfield hstored,
    fun hnone => keptWhole_of_convertsTo hschema before hreads hconverts hnone hstored⟩

end Again

end Frame

/-! ### Items of lists -/

theorem WireValue.ItemsReadAs.length_eq {items : List WireValue} {scope : Scope σ} {place : Place}
    {elements : List (CandidateType σ)} {index : Nat} {values : List Value}
    (hreads : ItemsReadAs items scope place elements index values) (before : σ) :
    values.length = items.length := by
  induction items generalizing index values with
  | nil => simp [(itemsReadAs_nil_iff before).mp hreads]
  | cons item rest ih =>
      obtain ⟨value, others, -, hothers, rfl⟩ := (itemsReadAs_cons_iff before).mp hreads
      rw [List.length_cons, List.length_cons, ih hothers]

theorem Value.itemsConvertTo_nil_iff (before : σ) {scope : Scope σ} {place : Place}
    {elements : List (CandidateType σ)} {index : Nat} {storeds : List WireValue} :
    ItemsConvertTo [] scope place elements index storeds ↔ storeds = [] := by
  simp only [ItemsConvertTo, Value.writeItems, yields_pure, and_true]
  exact ⟨fun hsame => (hsame default before).symm, fun hsame _ _ => hsame.symm⟩

theorem Value.ItemsConvertTo.length_le {values : List Value} {scope : Scope σ} {place : Place}
    {elements : List (CandidateType σ)} {index : Nat} {storeds : List WireValue}
    (hconverts : ItemsConvertTo values scope place elements index storeds) (before : σ) :
    storeds.length ≤ values.length := by
  induction values generalizing index storeds with
  | nil => simp [(itemsConvertTo_nil_iff before).mp hconverts]
  | cons value rest ih =>
      obtain ⟨stored, others, -, hothers, rfl⟩ := (itemsConvertTo_cons_iff before).mp hconverts
      have hrest := ih hothers
      cases stored <;> simp <;> omega

/-- Every item of a list that is written as it was is written itself. -/
theorem WireValue.items_of_convertTo {item : WireValue} {rest : List WireValue} {scope : Scope σ}
    {place : Place} {elements : List (CandidateType σ)} {index : Nat} {values : List Value}
    (before : σ) (hreads : ItemsReadAs (item :: rest) scope place elements index values)
    (hconverts : Value.ItemsConvertTo values scope place elements index (item :: rest)) :
    ∃ value others, values = value :: others ∧
      item.ReadsAs scope (place.item index) elements value ∧
        value.ConvertsTo scope (place.item index) elements (some item) ∧
          ItemsReadAs rest scope place elements (index + 1) others ∧
            Value.ItemsConvertTo others scope place elements (index + 1) rest := by
  obtain ⟨value, others, hitem, hothers, rfl⟩ := (itemsReadAs_cons_iff before).mp hreads
  obtain ⟨stored, storeds, hstored, hstoreds, hsame⟩ :=
    (Value.itemsConvertTo_cons_iff before).mp hconverts
  cases stored with
  | some stored =>
      obtain ⟨rfl, rfl⟩ := List.cons.inj hsame
      exact ⟨value, others, rfl, hitem, hstored, hothers, hstoreds⟩
  | none =>
      -- the others can not make up for an item that is left out
      obtain rfl : item :: rest = storeds := hsame
      have hlength := hstoreds.length_le before
      rw [hothers.length_eq before] at hlength
      simp at hlength

/-! ### By recursion on the value -/

namespace WireValue

theorem exists_set_of_setOf? {stored : WireValue} {kind : SetElement} {value : Value}
    (hset : stored.setOf? kind = some value) : ∃ members, value = .set members := by
  unfold setOf? at hset
  split at hset
  case h_1 | h_2 =>
    obtain ⟨dates, -, rfl⟩ := Option.map_eq_some_iff.mp hset
    exact ⟨_, rfl⟩
  case h_3 | h_4 | h_5 => exact ⟨_, (Option.some.inj hset).symm⟩
  case h_6 => cases hset

/-- What is decoded as a date or set is one. -/
theorem date_or_set_of_decodeLeaf {stored : WireValue} {reading : Reading σ} {back : Value}
    (htype : (∃ storage, reading.type = .date storage) ∨ ∃ element, reading.type = .set element)
    (hdecode : stored.decodeLeaf reading = .ok back) :
    back.typeName ∈ reading.type.takes ∧
      ((∃ t, back = .date t) ∨ ∃ members, back = .set members) := by
  unfold decodeLeaf at hdecode
  rcases htype with ⟨storage, htype⟩ | ⟨element, htype⟩
  · simp only [htype] at hdecode
    split at hdecode
    · obtain rfl := Except.ok.inj hdecode
      exact ⟨by simp [htype, CandidateType.takes, Value.typeName], .inl ⟨_, rfl⟩⟩
    · cases hdecode
  · simp only [htype] at hdecode
    split at hdecode
    · next set hset =>
        obtain rfl := Except.ok.inj hdecode
        obtain ⟨members, rfl⟩ := exists_set_of_setOf? hset
        exact ⟨by simp [htype, CandidateType.takes, Value.typeName], .inr ⟨_, rfl⟩⟩
    · cases hdecode

/-- A stored scalar or set that is read and written as it was has legible dates. -/
theorem leafLasts_of_reads {stored : WireValue} {scope : Scope σ} {place : Place}
    {types : List (CandidateType σ)} {back : Value} (hapart : scope.ToldApart types) (before : σ)
    (hlist : ∀ items, stored ≠ .list items) (hmap : ∀ fields, stored ≠ .map fields)
    (hreads : stored.ReadsAs scope place types back)
    (hconverts : back.ConvertsTo scope place types (some stored)) {reading : Reading σ}
    (hreading : reading ∈ types.flatMap (scope.readings place false))
    (hfits : stored.wireType ∈ reading.type.holds) : stored.LeafLasts reading.type := by
  have hkind : stored.isDocument = false := by
    cases stored with
    | map fields => exact absurd rfl (hmap fields)
    | _ => rfl
  obtain ⟨choice, hchoice, hdecode⟩ := (readsAs_leaf_iff before hlist hmap).mp hreads
  obtain ⟨hmem, hpos⟩ := hapart.resolveStored_iff.mp hchoice
  rw [Scope.readings_eq_map] at hreading
  obtain ⟨other, hother, rfl⟩ := List.mem_map.mp hreading
  rw [hkind] at hmem
  obtain rfl := hapart.eq_of_holds hmem hother (mem_holds_of_score hpos) hfits
  by_cases htype : (∃ storage, choice.reading.type = .date storage) ∨
      ∃ element, choice.reading.type = .set element
  · obtain ⟨htakes, hback⟩ := date_or_set_of_decodeLeaf htype hdecode
    have hleaf : back.isUndefined = false ∧ (∀ items, back ≠ .list items) ∧
        (∀ fields, back ≠ .map fields) ∧ back.isDocument = false := by
      rcases hback with ⟨t, rfl⟩ | ⟨members, rfl⟩ <;> simp [Value.isUndefined, Value.isDocument]
    obtain ⟨again, hagain, hencode⟩ :=
      (Value.convertsTo_leaf_iff before hleaf.1 hleaf.2.1 hleaf.2.2.1).mp hconverts
    obtain ⟨hagainMem, hagainPos⟩ := hapart.resolve_iff.mp hagain
    rw [hleaf.2.2.2] at hagainMem
    obtain rfl := hapart.eq_of_takes hagainMem hmem (Value.mem_takes_of_score hagainPos) htakes
    exact leafLasts_of_encodeAs rfl hfits hdecode hencode
  · cases hleaf : choice.reading.type with
    | date storage => exact absurd (.inl ⟨storage, hleaf⟩) htype
    | set element => exact absurd (.inr ⟨element, hleaf⟩) htype
    | _ => trivial

mutual

/-- Where types are told apart, what is read and written as it was lasts. -/
theorem lasts_of_reads {start : Scope σ} (hstart : start.Discerning) (before : σ) :
    ∀ (stored : WireValue) {scope : Scope σ} {place : Place} {types : List (CandidateType σ)}
      {back : Value}, start.Discerns scope types → stored.ReadsAs scope place types back →
        back.ConvertsTo scope place types (some stored) → stored.Lasts scope place types
  | .list items, scope, place, types, back, htypes, hreads, hconverts => by
      unfold Lasts
      intro elements harray
      obtain ⟨choice, hchoice, hparts⟩ := (readsAs_list_iff before).mp hreads
      obtain rfl := htypes.apart.eq_of_resolveStored_list harray hchoice
      obtain ⟨values, rfl, hvalues⟩ := hparts
      obtain ⟨choice, hchoice, hparts⟩ := (Value.convertsTo_list_iff before).mp hconverts
      obtain rfl := htypes.apart.eq_of_resolve_list harray hchoice
      obtain ⟨storeds, hsame, hstoreds⟩ := hparts
      obtain rfl : items = storeds := by simpa using hsame
      exact itemsLast_of_reads hstart before items (hstart.elements_discerns htypes harray) hvalues
        hstoreds
  | .map item, scope, place, types, back, htypes, hreads, hconverts => by
      unfold Lasts
      intro type htype frame henter
      obtain ⟨choice, hchoice, hparts⟩ := (readsAs_map_iff before).mp hreads
      obtain rfl := htypes.apart.eq_of_resolveStored_map htype henter hchoice
      simp only [henter] at hparts
      obtain ⟨document, rfl, hdocument⟩ := hparts
      obtain ⟨choice, hchoice, hparts⟩ := (Value.convertsTo_map_iff before).mp hconverts
      obtain rfl := htypes.apart.eq_of_resolve_map htype henter hchoice
      simp only [henter] at hparts
      obtain ⟨others, hsame, hagain⟩ := hparts
      obtain rfl : item = others := by simpa using hsame
      have hreaches := htypes.reaches htype henter
      exact fieldsLast_of_reads hstart before item hreaches
        (Frame.fields_of_convertsTo (hstart.wellFormed _ _ hreaches) before hdocument hagain)
  | .string _, _, _, _, _, htypes, hreads, hconverts
  | .number _, _, _, _, _, htypes, hreads, hconverts
  | .binary _, _, _, _, _, htypes, hreads, hconverts
  | .stringSet _, _, _, _, _, htypes, hreads, hconverts
  | .numberSet _, _, _, _, _, htypes, hreads, hconverts
  | .binarySet _, _, _, _, _, htypes, hreads, hconverts
  | .boolean _, _, _, _, _, htypes, hreads, hconverts
  | .null _, _, _, _, _, htypes, hreads, hconverts => by
      unfold Lasts
      exact fun reading hreading hfits => leafLasts_of_reads htypes.apart before (by simp) (by simp)
        hreads hconverts hreading hfits

theorem itemsLast_of_reads {start : Scope σ} (hstart : start.Discerning) (before : σ) :
    ∀ (items : List WireValue) {scope : Scope σ} {place : Place}
      {elements : List (CandidateType σ)} {index : Nat} {values : List Value},
      start.Discerns scope elements → ItemsReadAs items scope place elements index values →
        Value.ItemsConvertTo values scope place elements index items →
          WireValue.ItemsLast scope place elements index items
  | [], _, _, _, _, _, _, _, _ => trivial
  | item :: rest, scope, place, elements, index, values, helements, hreads, hconverts => by
      obtain ⟨value, others, rfl, hitem, hagain, hrest, hrestAgain⟩ :=
        items_of_convertTo before hreads hconverts
      exact ⟨lasts_of_reads hstart before item helements hitem hagain,
        itemsLast_of_reads hstart before rest helements hrest hrestAgain⟩

theorem fieldsLast_of_reads {start : Scope σ} (hstart : start.Discerning) (before : σ) :
    ∀ (fields : List (String × WireValue)) {frame : Frame σ},
      start.Reaches frame.scope frame.schema →
      (∀ entry ∈ fields,
        (∀ field, frame.schema.attribute? entry.1 = some field →
          frame.schema.nativeAttribute? field.nativeName = some field ∧ ∃ value,
            entry.2.ReadsAs frame.scope (frame.place.child entry.1) field.types value ∧
              value.ConvertsTo frame.scope (frame.place.child entry.1) field.types
                (some entry.2)) ∧
          (frame.schema.attribute? entry.1 = none →
            entry.2.KeptWhole frame.scope (frame.place.child entry.1))) →
      WireValue.FieldsLast frame fields
  | [], _, _, _ => trivial
  | (key, stored) :: rest, frame, hreaches, hfields => by
      obtain ⟨hdeclared, hundeclared⟩ := hfields (key, stored) (by simp)
      refine ⟨?_, fieldsLast_of_reads hstart before rest hreaches
        fun entry hentry => hfields entry (by simp [hentry])⟩
      cases hfield : frame.schema.attribute? key with
      | none => exact hundeclared hfield
      | some field =>
          obtain ⟨hnative, value, hvalue, hagain⟩ := hdeclared field hfield
          have htypes := hstart.attribute_discerns hreaches (SchemaOf.mem_of_attribute? hfield).1
          exact ⟨hnative, lasts_of_reads hstart before stored htypes hvalue hagain⟩

end

end WireValue

end ItemMapper
