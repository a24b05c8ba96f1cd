import ItemMapper.Proofs.Lasting.Values
import ItemMapper.Proofs.Omission.Typed

/-!
# Documents without undefined parts

What the codec does alike, writing under the plain options does alike: a value that keeps its types
is converted to the same without its undefined parts (`Value.convertsTo_stripped_iff`), and so is a
document (`Frame.convertsTo_stripped_iff`).  Conversely what is converted has types throughout
(`Value.typed_of_convertsTo`, `Frame.typed_of_convertsTo`).

An attribute that is given twice, under its alias and under its stored name, has the value that
comes later.  If that is undefined the attribute is left out, and without it the other value would
be stored.  Documents are therefore asked to give each attribute once (`Value.GivesOnce`).
-/

namespace ItemMapper

variable {σ : Type}

/-! ## Attributes that are given once -/

namespace Value

mutual

/-- No map in the value gives an attribute of a schema that can be reached twice. -/
def GivesOnce (start : Scope σ) : Value → Prop
  | .list items => ItemsGiveOnce start items
  | .map fields =>
    (∀ scope schema, start.Reaches scope schema → (schema.storedNames fields).Nodup) ∧
      FieldsGiveOnce start fields
  | _ => True

def ItemsGiveOnce (start : Scope σ) : List Value → Prop
  | [] => True
  | item :: rest => GivesOnce start item ∧ ItemsGiveOnce start rest

def FieldsGiveOnce (start : Scope σ) : List (String × Value) → Prop
  | [] => True
  | (_, value) :: rest => GivesOnce start value ∧ FieldsGiveOnce start rest

end

/-- Undefined values are stored as nothing. -/
theorem convertsTo_undefined_iff (before : σ) {scope : Scope σ} {place : Place}
    {types : List (CandidateType σ)} {stored : Option WireValue} :
    Value.undefined.ConvertsTo scope place types stored ↔ stored = none := by
  have hnone : Value.undefined.ConvertsTo scope place types none :=
    fun _ _ => by simp [Value.writer]
  constructor
  · exact fun hstored => hstored.unique before hnone
  · rintro rfl
    exact hnone

end Value

/-! ## Documents by their fields -/

namespace Frame

open Value

variable {scope : Scope σ} {schema : Schema σ} {near far : Place} {fields : List (String × Value)}

/-- Under each stored name the same is stored, if that is so for the values of the attributes. -/
theorem storesAs_stripped_iff (hschema : schema.WellFormed)
    (hplaces : ∀ near far, scope.unknownMatch near = scope.unknownMatch far)
    (hdistinct : (schema.storedNames fields).Nodup) (before : σ)
    (hvalues : ∀ entry ∈ fields, ∀ field, schema.nativeAttribute? entry.1 = some field →
      ∀ near far stored, entry.2.ConvertsTo scope near field.types stored ↔
        entry.2.stripped.ConvertsTo scope far field.types stored)
    (name : String) (stored : Option WireValue) :
    Frame.StoresAs ⟨scope, near, schema⟩ (schema.normalized fields) name stored ↔
      Frame.StoresAs ⟨scope, far, schema⟩ (schema.normalized (strippedFields fields)) name
        stored := by
  have hstripped := SchemaOf.get?_normalized_stripped hdistinct name
  cases hgiven : (schema.normalized fields).get? name with
  | none =>
      rw [hgiven] at hstripped
      rw [storesAs_absent hgiven, storesAs_absent hstripped]
  | some value =>
      rw [hgiven] at hstripped
      by_cases hundefined : value.isUndefined = true
      · obtain rfl := eq_undefined hundefined
        rw [storesAs_absent hstripped]
        cases hattribute : schema.attribute? name with
        | none =>
            rw [storesAs_undeclared hgiven hattribute, keep?_undefined]
            exact eq_comm
        | some field => rw [storesAs_declared hgiven hattribute, convertsTo_undefined_iff before]
      · rw [Option.filter_some_pos (by simpa using hundefined), Option.map_some] at hstripped
        cases hattribute : schema.attribute? name with
        | none =>
            rw [storesAs_undeclared hgiven hattribute, storesAs_undeclared hstripped hattribute,
              keep?_stripped hplaces value]
        | some field =>
            obtain ⟨key, hmem, hname⟩ := (SchemaOf.get?_normalized_eq_some_iff hdistinct).mp hgiven
            obtain ⟨hfield, rfl⟩ := SchemaOf.mem_of_attribute? hattribute
            rw [storesAs_declared hgiven hattribute, storesAs_declared hstripped hattribute]
            exact hvalues (key, value) hmem field
              (hschema.nativeAttribute?_of_storedName hfield hname) _ _ stored

theorem convertsTo_stripped_iff_of_values (hschema : schema.WellFormed)
    (hplaces : ∀ near far, scope.unknownMatch near = scope.unknownMatch far)
    (hdistinct : (schema.storedNames fields).Nodup) (before : σ)
    (hvalues : ∀ entry ∈ fields, ∀ field, schema.nativeAttribute? entry.1 = some field →
      ∀ near far stored, entry.2.ConvertsTo scope near field.types stored ↔
        entry.2.stripped.ConvertsTo scope far field.types stored) (item : Item) :
    Frame.ConvertsTo ⟨scope, near, schema⟩ fields item ↔
      Frame.ConvertsTo ⟨scope, far, schema⟩ (strippedFields fields) item := by
  rw [convertsTo_iff hschema before, convertsTo_iff hschema before]
  refine and_congr_right fun _ => forall_congr' fun name => ?_
  exact storesAs_stripped_iff hschema hplaces hdistinct before hvalues name _

/-- The value of each attribute that is given is converted. -/
theorem exists_converted (hschema : schema.WellFormed)
    (hdistinct : (schema.storedNames fields).Nodup) (before : σ) {place : Place} {item : Item}
    (hconverts : Frame.ConvertsTo ⟨scope, place, schema⟩ fields item) {entry : String × Value}
    (hentry : entry ∈ fields) {field : Attribute σ}
    (hfield : schema.nativeAttribute? entry.1 = some field) :
    ∃ child stored, entry.2.ConvertsTo scope child field.types stored := by
  have hname : schema.storedName entry.1 = field.name := by simp [SchemaOf.storedName, hfield]
  have hgiven := (SchemaOf.get?_normalized_eq_some_iff hdistinct).mpr ⟨entry.1, hentry, hname⟩
  have hattribute := hschema.attribute?_name (SchemaOf.mem_of_nativeAttribute? hfield)
  have hstores := ((convertsTo_iff hschema before).mp hconverts).2 field.name
  exact ⟨_, _, (storesAs_declared hgiven hattribute).mp hstores⟩

end Frame

/-! ## Writing alike -/

namespace Value

/-- What is no list or map is written as it is encoded. -/
theorem convertsTo_leaf_iff_encode (before : σ) {value : Value}
    (hdefined : value.isUndefined = false) (hlist : ∀ items, value ≠ .list items)
    (hmap : ∀ fields, value ≠ .map fields) {scope : Scope σ} {place : Place}
    {types : List (CandidateType σ)} {stored : Option WireValue} :
    value.ConvertsTo scope place types stored ↔ scope.encode place types value = .ok stored := by
  rw [convertsTo_leaf_iff before hdefined hlist hmap, Scope.encode_eq_ok hdefined]

mutual

/-- A value that keeps its types is converted to the same without its undefined parts. -/
theorem convertsTo_stripped_iff {start : Scope σ} (hstart : start.AllOrNothing) (before : σ) :
    ∀ (value : Value) {scope : Scope σ} {types : List (CandidateType σ)},
      (∀ type ∈ types, start.Uses scope type) → value.GivesOnce start →
        value.KeepsTypes start scope types → ∀ near far stored,
          value.ConvertsTo scope near types stored ↔
            value.stripped.ConvertsTo scope far types stored
  | .list items, scope, types, huses, honce, hkeeps, near, far, stored => by
      have hagree := hkeeps.agree_resolve hstart huses near far
      have hencode := agree_encode_stripped hstart (.list items) huses hkeeps near far
      rw [stripped] at hagree hencode ⊢
      rw [convertsTo_list_iff before, convertsTo_list_iff before]
      obtain ⟨choice, other, hchoice, hother, hsame⟩ | ⟨cause, last, hcause, hlast⟩ := hagree.cases
      · rw [Scope.encode_of_resolve rfl hchoice, Scope.encode_of_resolve rfl hother] at hencode
        simp only [hchoice, hother, Except.ok.injEq, exists_eq_left', hsame.type]
        split
        · next elements harray =>
            have hreading := Scope.reading_of_array hchoice harray
            have helements : ∀ type ∈ elements, start.Uses scope type := fun _ htype =>
              .element (huses _ (harray ▸ (Scope.of_resolve hchoice).1)) htype
            have hitems := hkeeps.of_list hstart huses hchoice (by rw [hreading])
            rw [hreading] at hitems
            refine exists_congr fun storeds => and_congr_right fun _ => ?_
            exact itemsConvertTo_stripped_iff hstart before items helements honce hitems near far
              0 0 storeds
        · exact hencode.eq_ok_iff
      · simp [hcause, hlast]
  | .map fields, scope, types, huses, honce, hkeeps, near, far, stored => by
      have hagree := hkeeps.agree_resolve hstart huses near far
      have hencode := agree_encode_stripped hstart (.map fields) huses hkeeps near far
      rw [stripped] at hagree hencode ⊢
      rw [convertsTo_map_iff before, convertsTo_map_iff before]
      obtain ⟨choice, other, hchoice, hother, hsame⟩ | ⟨cause, last, hcause, hlast⟩ := hagree.cases
      · rw [Scope.encode_of_resolve rfl hchoice, Scope.encode_of_resolve rfl hother] at hencode
        simp only [hchoice, hother, Except.ok.injEq, exists_eq_left', hsame.type]
        obtain ⟨inner, schema, nearer, farther, hopens, hnear, hfar⟩ | ⟨hnear, hfar⟩ :=
          scope.enter?_anywhere choice.type near far
        · have hreaches : start.Reaches inner schema :=
            .inside (huses _ (Scope.of_resolve hchoice).1) hopens
          have hinside : choice.reading.scope.Opens choice.reading.type inner schema := by
            rwa [Scope.reading_of_document hchoice rfl]
          have hfields := hkeeps.of_map hstart huses hchoice hinside
          rw [hnear, hfar]
          refine exists_congr fun item => and_congr_right fun _ => ?_
          exact Frame.convertsTo_stripped_iff_of_values (hstart.wellFormed _ _ hreaches)
            (fun _ _ => hstart.unknownMatch_eq hreaches _ _) (honce.1 _ _ hreaches) before
            (fieldsConvertTo_stripped_iff hstart before fields hreaches honce.2 hfields) item
        · rw [hnear, hfar]
          exact hencode.eq_ok_iff
      · simp [hcause, hlast]
  | .undefined, _, _, _, _, _, _, _, _ => by
      rw [stripped, convertsTo_undefined_iff before, convertsTo_undefined_iff before]
      all_goals simp
  | .null, _, _, huses, _, hkeeps, near, far, stored
  | .bool _, _, _, huses, _, hkeeps, near, far, stored
  | .number _, _, _, huses, _, hkeeps, near, far, stored
  | .string _, _, _, huses, _, hkeeps, near, far, stored
  | .binary _, _, _, huses, _, hkeeps, near, far, stored
  | .date _, _, _, huses, _, hkeeps, near, far, stored
  | .set _, _, _, huses, _, hkeeps, near, far, stored => by
      rw [convertsTo_leaf_iff_encode before rfl (by simp) (by simp),
        convertsTo_leaf_iff_encode before rfl (by simp [stripped]) (by simp [stripped])]
      exact (agree_encode_stripped hstart _ huses hkeeps near far).eq_ok_iff

theorem itemsConvertTo_stripped_iff {start : Scope σ} (hstart : start.AllOrNothing) (before : σ) :
    ∀ (items : List Value) {scope : Scope σ} {elements : List (CandidateType σ)},
      (∀ type ∈ elements, start.Uses scope type) → ItemsGiveOnce start items →
        (∀ item ∈ items, item.KeepsTypes start scope elements) →
          ∀ (near far : Place) (first second : Nat) storeds,
            ItemsConvertTo items scope near elements first storeds ↔
              ItemsConvertTo (strippedItems items) scope far elements second storeds
  | [], _, _, _, _, _, _, _, _, _, _ => .rfl
  | item :: rest, scope, elements, huses, honce, hkeeps, near, far, first, second, storeds => by
      rw [List.forall_mem_cons] at hkeeps
      by_cases hundefined : item.isUndefined = true
      · obtain rfl := eq_undefined hundefined
        have hrest := itemsConvertTo_stripped_iff hstart before rest huses honce.2 hkeeps.2 near far
          (first + 1) second
        rw [strippedItems_cons_of_undefined rfl, itemsConvertTo_cons_iff before, ← hrest]
        constructor
        · rintro ⟨stored, others, hstored, hothers, rfl⟩
          obtain rfl := (convertsTo_undefined_iff before).mp hstored
          exact hothers
        · intro hothers
          exact ⟨none, storeds, (convertsTo_undefined_iff before).mpr rfl, hothers, rfl⟩
      · rw [strippedItems_cons_of_defined (by simpa using hundefined),
          itemsConvertTo_cons_iff before, itemsConvertTo_cons_iff before]
        refine exists_congr fun stored => exists_congr fun others => ?_
        rw [convertsTo_stripped_iff hstart before item huses honce.1 hkeeps.1 (near.item first)
            (far.item second),
          itemsConvertTo_stripped_iff hstart before rest huses honce.2 hkeeps.2 near far (first + 1)
            (second + 1)]

theorem fieldsConvertTo_stripped_iff {start : Scope σ} (hstart : start.AllOrNothing) (before : σ) :
    ∀ (fields : List (String × Value)) {scope : Scope σ} {schema : Schema σ},
      start.Reaches scope schema → FieldsGiveOnce start fields →
        FieldsKeepTypes start fields scope schema → ∀ entry ∈ fields, ∀ field,
          schema.nativeAttribute? entry.1 = some field → ∀ near far stored,
            entry.2.ConvertsTo scope near field.types stored ↔
              entry.2.stripped.ConvertsTo scope far field.types stored
  | [], _, _, _, _, _, _, hentry => by simp at hentry
  | (key, value) :: rest, scope, schema, hreaches, honce, hkeeps, entry, hentry => by
      obtain ⟨hvalue, hrest⟩ := List.forall_mem_cons.mp hkeeps
      rcases List.mem_cons.mp hentry with rfl | hentry
      · intro field hfield
        exact convertsTo_stripped_iff hstart before value (hreaches.uses_of_nativeAttribute? hfield)
          honce.1 (hvalue field hfield)
      · exact fieldsConvertTo_stripped_iff hstart before rest hreaches honce.2 hrest entry hentry

end

/-! ## What is written has types -/

mutual

/-- Whatever is converted has types throughout. -/
theorem typed_of_convertsTo {start : Scope σ} (hstart : start.AllOrNothing) (before : σ) :
    ∀ (value : Value) {scope : Scope σ} {types : List (CandidateType σ)},
      (∀ type ∈ types, start.Uses scope type) → value.GivesOnce start →
        ∀ {place : Place} {stored : Option WireValue},
          value.ConvertsTo scope place types stored → value.Typed scope types
  | .list items, scope, types, huses, honce, place, stored, hconverts => by
      obtain ⟨choice, hchoice, hinside⟩ := (convertsTo_list_iff before).mp hconverts
      split at hinside
      · next elements harray =>
          obtain ⟨storeds, -, hitems⟩ := hinside
          have hreading := Scope.reading_of_array hchoice harray
          have helements : ∀ type ∈ elements, start.Uses scope type := fun _ htype =>
            .element (huses _ (harray ▸ (Scope.of_resolve hchoice).1)) htype
          have htyped := itemsTyped_of_convertsTo hstart before items helements honce hitems
          refine ⟨place, choice, hchoice, fun others hothers => ?_, fun element hset => ?_⟩
          · rw [hreading] at hothers ⊢
            obtain rfl := CandidateType.array.inj hothers
            exact htyped
          · rw [hreading] at hset
            contradiction
      · exact typed_of_encode _ ((Scope.encode_eq_ok rfl).mpr ⟨choice, hchoice, hinside⟩)
  | .map fields, scope, types, huses, honce, place, stored, hconverts => by
      obtain ⟨choice, hchoice, hinside⟩ := (convertsTo_map_iff before).mp hconverts
      cases henter : scope.enter? place choice.type with
      | none =>
          rw [henter] at hinside
          exact typed_of_encode _ ((Scope.encode_eq_ok rfl).mpr ⟨choice, hchoice, hinside⟩)
      | some frame =>
          rw [henter] at hinside
          obtain ⟨item, -, hitem⟩ := hinside
          have hopens := Scope.opens_of_enter? henter
          have hreaches : start.Reaches frame.scope frame.schema :=
            .inside (huses _ (Scope.of_resolve hchoice).1) hopens
          have htyped := fieldsTyped_of_convertsTo hstart before fields hreaches honce.2
            fun _ hentry _ => Frame.exists_converted (hstart.wellFormed _ _ hreaches)
              (honce.1 _ _ hreaches) before hitem hentry
          refine ⟨place, choice, hchoice, fun inner schema hother => ?_⟩
          rw [Scope.reading_of_document hchoice rfl] at hother
          obtain ⟨entered, hentered⟩ := hother.enter? place
          obtain rfl := Option.some.inj (henter.symm.trans hentered)
          exact htyped
  | .undefined, _, _, _, _, _, _, _ | .null, _, _, _, _, _, _, _ | .bool _, _, _, _, _, _, _, _
  | .number _, _, _, _, _, _, _, _ | .string _, _, _, _, _, _, _, _
  | .binary _, _, _, _, _, _, _, _ | .date _, _, _, _, _, _, _, _
  | .set _, _, _, _, _, _, _, _ => trivial

theorem itemsTyped_of_convertsTo {start : Scope σ} (hstart : start.AllOrNothing) (before : σ) :
    ∀ (items : List Value) {scope : Scope σ} {elements : List (CandidateType σ)},
      (∀ type ∈ elements, start.Uses scope type) → ItemsGiveOnce start items →
        ∀ {place : Place} {index : Nat} {storeds : List WireValue},
          ItemsConvertTo items scope place elements index storeds → ItemsTyped items scope elements
  | [], _, _, _, _, _, _, _, _ => trivial
  | item :: rest, scope, elements, huses, honce, place, index, storeds, hitems => by
      obtain ⟨stored, others, hstored, hothers, -⟩ := (itemsConvertTo_cons_iff before).mp hitems
      exact ⟨typed_of_convertsTo hstart before item huses honce.1 hstored,
        itemsTyped_of_convertsTo hstart before rest huses honce.2 hothers⟩

theorem fieldsTyped_of_convertsTo {start : Scope σ} (hstart : start.AllOrNothing) (before : σ) :
    ∀ (fields : List (String × Value)) {scope : Scope σ} {schema : Schema σ},
      start.Reaches scope schema → FieldsGiveOnce start fields →
        (∀ entry ∈ fields, ∀ field, schema.nativeAttribute? entry.1 = some field →
          ∃ child stored, entry.2.ConvertsTo scope child field.types stored) →
            FieldsTyped fields scope schema
  | [], _, _, _, _, _ => trivial
  | (key, value) :: rest, scope, schema, hreaches, honce, hconverted => by
      obtain ⟨hvalue, hrest⟩ := List.forall_mem_cons.mp hconverted
      refine ⟨fun field hfield => ?_,
        fieldsTyped_of_convertsTo hstart before rest hreaches honce.2 hrest⟩
      obtain ⟨place, stored, hstored⟩ := hvalue field hfield
      exact typed_of_convertsTo hstart before value (hreaches.uses_of_nativeAttribute? hfield)
        honce.1 hstored

end

end Value

/-! ## Whole documents -/

namespace Frame

open Value

variable {start scope : Scope σ} {schema : Schema σ} {fields : List (String × Value)}
  {item : Item} (hstart : start.AllOrNothing) (hreaches : start.Reaches scope schema)
  (honce : (Value.map fields).GivesOnce start) (before : σ)

include hstart hreaches honce before

/-- A document whose attributes keep their types is converted to the same without its undefined
parts. -/
theorem convertsTo_stripped_iff (hkeeps : FieldsKeepTypes start fields scope schema)
    (near far : Place) (item : Item) :
    Frame.ConvertsTo ⟨scope, near, schema⟩ fields item ↔
      Frame.ConvertsTo ⟨scope, far, schema⟩ (strippedFields fields) item :=
  convertsTo_stripped_iff_of_values (hstart.wellFormed _ _ hreaches)
    (fun _ _ => hstart.unknownMatch_eq hreaches _ _) (honce.1 _ _ hreaches) before
    (fieldsConvertTo_stripped_iff hstart before fields hreaches honce.2 hkeeps) item

/-- A document that is converted has types throughout. -/
theorem typed_of_convertsTo {place : Place}
    (hconverts : Frame.ConvertsTo ⟨scope, place, schema⟩ fields item) :
    FieldsTyped fields scope schema :=
  fieldsTyped_of_convertsTo hstart before fields hreaches honce.2
    fun _ hentry _ => exists_converted (hstart.wellFormed _ _ hreaches) (honce.1 _ _ hreaches)
      before hconverts hentry

end Frame

end ItemMapper
