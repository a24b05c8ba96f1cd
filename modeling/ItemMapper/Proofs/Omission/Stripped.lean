import ItemMapper.Proofs.Plain.Agreement
import ItemMapper.Proofs.Typing.Elsewhere

/-!
# Values without undefined parts

`Value.stripped` leaves out the undefined fields of maps and the undefined items of lists, at every
depth.  Whatever is stored without looking for a type is stored alike: a value by itself
(`Value.natural?_stripped`), the members of a set (`SetElement.encode_stripped`), and undeclared
data, of which the same is kept (`Value.keep?_stripped`).  Only a list that is to be a set is not
stored alike if an item is undefined (`Reading.encodeScalar_stripped`).

Where each attribute is given once, no two fields fall together: a stripped document holds under
each stored name what the document holds there, if that is defined
(`SchemaOf.get?_normalized_stripped`).
-/

namespace ItemMapper

variable {σ : Type}

namespace Value

mutual

/-- The value without undefined fields and without undefined items of lists. -/
def stripped : Value → Value
  | .list items => .list (strippedItems items)
  | .set members => .set (strippedMembers members)
  | .map fields => .map (strippedFields fields)
  | value => value

def strippedItems : List Value → List Value
  | [] => []
  | item :: rest =>
    if item.isUndefined then strippedItems rest else stripped item :: strippedItems rest

def strippedMembers : List Value → List Value
  | [] => []
  | member :: rest => stripped member :: strippedMembers rest

def strippedFields : List (String × Value) → List (String × Value)
  | [] => []
  | (key, value) :: rest =>
    if value.isUndefined then strippedFields rest
    else (key, stripped value) :: strippedFields rest

end

mutual

/-- No list in it has an undefined item.  Sets do not count, as they hold scalars. -/
def ListsDefined : Value → Prop
  | .list items => ItemsDefined items
  | .map fields => FieldsDefined fields
  | _ => True

def ItemsDefined : List Value → Prop
  | [] => True
  | item :: rest => item.isUndefined = false ∧ ListsDefined item ∧ ItemsDefined rest

def FieldsDefined : List (String × Value) → Prop
  | [] => True
  | (_, value) :: rest => ListsDefined value ∧ FieldsDefined rest

end

variable {value : Value}

@[simp] theorem isUndefined_stripped (value : Value) :
    value.stripped.isUndefined = value.isUndefined := by
  cases value <;> rfl

@[simp] theorem isDocument_stripped (value : Value) :
    value.stripped.isDocument = value.isDocument := by
  cases value <;> rfl

@[simp] theorem date?_stripped (value : Value) : value.stripped.date? = value.date? := by
  cases value <;> rfl

theorem strippedItems_cons_of_undefined {item : Value} (hundefined : item.isUndefined = true)
    (rest : List Value) : strippedItems (item :: rest) = strippedItems rest := by
  rw [strippedItems, if_pos hundefined]

theorem strippedItems_cons_of_defined {item : Value} (hdefined : item.isUndefined = false)
    (rest : List Value) : strippedItems (item :: rest) = item.stripped :: strippedItems rest := by
  rw [strippedItems, hdefined, if_neg Bool.false_ne_true]

theorem strippedFields_cons_of_undefined {field : String × Value}
    (hundefined : field.2.isUndefined = true) (rest : List (String × Value)) :
    strippedFields (field :: rest) = strippedFields rest := by
  rw [strippedFields, if_pos hundefined]

theorem strippedFields_cons_of_defined {field : String × Value}
    (hdefined : field.2.isUndefined = false) (rest : List (String × Value)) :
    strippedFields (field :: rest) = (field.1, field.2.stripped) :: strippedFields rest := by
  rw [strippedFields, hdefined, if_neg Bool.false_ne_true]

/-- Where no item is undefined, none is left out. -/
theorem strippedItems_eq {items : List Value} (hitems : ∀ item ∈ items, item.isUndefined = false) :
    strippedItems items = strippedMembers items := by
  induction items with
  | nil => rfl
  | cons item rest ih =>
      rw [List.forall_mem_cons] at hitems
      rw [strippedItems_cons_of_defined hitems.1, strippedMembers, ih hitems.2]

theorem ItemsDefined.forall_mem {items : List Value} (hitems : ItemsDefined items) :
    ∀ item ∈ items, item.isUndefined = false ∧ item.ListsDefined := by
  induction items with
  | nil => simp
  | cons item rest ih =>
      rw [ItemsDefined] at hitems
      exact List.forall_mem_cons.mpr ⟨⟨hitems.1, hitems.2.1⟩, ih hitems.2.2⟩

theorem FieldsDefined.forall_mem {fields : List (String × Value)} (hfields : FieldsDefined fields) :
    ∀ field ∈ fields, field.2.ListsDefined := by
  induction fields with
  | nil => simp
  | cons field rest ih =>
      rw [FieldsDefined] at hfields
      exact List.forall_mem_cons.mpr ⟨hfields.1, ih hfields.2⟩

end Value

/-! ## Members of sets -/

namespace SetElement

open Value

variable (element : SetElement)

theorem member?_stripped (value : Value) :
    element.member? value.stripped = element.member? value := by
  cases element <;> cases value <;> rfl

/-- Undefined values are no members. -/
theorem member?_of_undefined {value : Value} (hundefined : value.isUndefined = true) :
    element.member? value = none := by
  obtain rfl := eq_undefined hundefined
  cases element <;> rfl

theorem toOption_members_stripped (values : List Value) :
    (element.members (strippedMembers values)).toOption = (element.members values).toOption := by
  induction values with
  | nil => rfl
  | cons value rest ih =>
      rw [strippedMembers, members, members, member?_stripped]
      cases element.member? value with
      | none => rfl
      | some member =>
          simp only [Except.map]
          cases hfirst : element.members (strippedMembers rest) <;>
            cases hsecond : element.members rest <;> simp_all [Except.toOption]

/-- Members are stored alike, or some of them can not be stored. -/
theorem encode_stripped (values : List Value) :
    (element.encode (strippedMembers values)).toOption = (element.encode values).toOption := by
  have hmembers := toOption_members_stripped element values
  unfold encode
  cases hfirst : element.members (strippedMembers values) <;>
    cases hsecond : element.members values <;> simp_all [Except.map, Except.toOption]

theorem ofFirst_stripped (value : Value) : ofFirst value.stripped = ofFirst value := by
  cases value <;> rfl

end SetElement

/-! ## Natural forms and undeclared data -/

namespace Value

mutual

theorem natural?_stripped : ∀ value : Value, value.stripped.natural? = value.natural?
  | .list items => by rw [stripped, natural?, natural?, naturalItems_stripped items]
  | .map fields => by rw [stripped, natural?, natural?, naturalFields_stripped fields]
  | .set [] => rfl
  | .set (first :: rest) => by
      have hencode := SetElement.encode_stripped (SetElement.ofFirst first) (first :: rest)
      rw [stripped, strippedMembers, natural?, natural?, SetElement.ofFirst_stripped]
      rw [strippedMembers] at hencode
      cases hleft : (SetElement.ofFirst first).encode (first.stripped :: strippedMembers rest) <;>
        cases hright : (SetElement.ofFirst first).encode (first :: rest) <;>
          simp_all [Except.toOption]
  | .undefined | .null | .bool _ | .number _ | .string _ | .binary _ | .date _ => rfl

theorem naturalItems_stripped : ∀ items : List Value,
    naturalItems (strippedItems items) = naturalItems items
  | [] => rfl
  | item :: rest => by
      by_cases hundefined : item.isUndefined = true
      · obtain rfl := eq_undefined hundefined
        exact naturalItems_stripped rest
      · rw [strippedItems_cons_of_defined (by simpa using hundefined), naturalItems, naturalItems,
          natural?_stripped item, naturalItems_stripped rest]

theorem naturalFields_stripped : ∀ fields : List (String × Value),
    naturalFields (strippedFields fields) = naturalFields fields
  | [] => rfl
  | (key, value) :: rest => by
      by_cases hundefined : value.isUndefined = true
      · obtain rfl := eq_undefined hundefined
        exact naturalFields_stripped rest
      · rw [strippedFields_cons_of_defined (by simpa using hundefined), naturalFields,
          naturalFields, natural?_stripped value, naturalFields_stripped rest]

end

theorem keep?_undefined (scope : Scope σ) (place : Place) :
    Value.undefined.keep? scope place = none := by
  simp [keep?, natural?]

mutual

/-- The same is kept of a stripped value, wherever it stands. -/
theorem keep?_stripped {scope : Scope σ}
    (hplaces : ∀ near far, scope.unknownMatch near = scope.unknownMatch far) :
    ∀ (value : Value) (near far : Place),
      value.keep? scope near = value.stripped.keep? scope far
  | .list items, near, far => by
      rw [stripped, keep?, keep?, hplaces near far, keepItems_stripped hplaces items near far 0 0]
  | .map fields, near, far => by
      rw [stripped, keep?, keep?, hplaces near far, keepFields_stripped hplaces fields near far]
  | .set members, near, far => by
      have hnatural := natural?_stripped (.set members)
      rw [stripped] at hnatural ⊢
      rw [keep?, keep?, hplaces near far, hnatural] <;> simp
  | .undefined, near, far | .null, near, far | .bool _, near, far | .number _, near, far
  | .string _, near, far | .binary _, near, far | .date _, near, far => by
      simp only [stripped, keep?, hplaces near far]

theorem keepItems_stripped {scope : Scope σ}
    (hplaces : ∀ near far, scope.unknownMatch near = scope.unknownMatch far) :
    ∀ (items : List Value) (near far : Place) (first second : Nat),
      keepItems scope near first items = keepItems scope far second (strippedItems items)
  | [], _, _, _, _ => rfl
  | item :: rest, near, far, first, second => by
      by_cases hundefined : item.isUndefined = true
      · obtain rfl := eq_undefined hundefined
        rw [strippedItems_cons_of_undefined rfl, keepItems, keep?_undefined]
        exact keepItems_stripped hplaces rest near far (first + 1) second
      · rw [strippedItems_cons_of_defined (by simpa using hundefined), keepItems, keepItems,
          ← keep?_stripped hplaces item (near.item first) (far.item second),
          keepItems_stripped hplaces rest near far (first + 1) (second + 1)]

theorem keepFields_stripped {scope : Scope σ}
    (hplaces : ∀ near far, scope.unknownMatch near = scope.unknownMatch far) :
    ∀ (fields : List (String × Value)) (near far : Place),
      keepFields scope near fields = keepFields scope far (strippedFields fields)
  | [], _, _ => rfl
  | (key, value) :: rest, near, far => by
      by_cases hundefined : value.isUndefined = true
      · obtain rfl := eq_undefined hundefined
        rw [strippedFields_cons_of_undefined rfl, keepFields, keep?_undefined]
        exact keepFields_stripped hplaces rest near far
      · rw [strippedFields_cons_of_defined (by simpa using hundefined), keepFields, keepFields,
          ← keep?_stripped hplaces value (near.child key) (far.child key),
          keepFields_stripped hplaces rest near far]

end

end Value

/-! ## What is stored without looking inside -/

namespace Reading

open Value

theorem encodeSet_stripped (reading other : Reading σ) (element : CandidateType σ)
    (members : List Value) :
    Except.Agree Eq (reading.encodeSet element members)
      (other.encodeSet element (strippedMembers members)) := by
  unfold encodeSet
  cases element.setElement? with
  | none =>
      cases members with
      | nil => exact .ok rfl
      | cons member rest => exact .error _ _
  | some kind =>
      have hencode := SetElement.encode_stripped kind members
      dsimp only
      cases hfirst : kind.encode members <;>
        cases hsecond : kind.encode (strippedMembers members) <;>
          simp_all [Except.toOption, Except.mapError]
      · exact .error _ _
      · exact .ok rfl

/-- A list that is to be a set must not have undefined members. -/
theorem encodeScalar_stripped {reading other : Reading σ} (htype : other.type = reading.type)
    {value : Value} (hset : ∀ items element, value = .list items → reading.type = .set element →
      ∀ item ∈ items, item.isUndefined = false) :
    Except.Agree Eq (reading.encodeScalar value) (other.encodeScalar value.stripped) := by
  obtain ⟨scope, place, type⟩ := reading
  obtain ⟨inner, far, type⟩ := other
  obtain rfl : type = _ := htype
  cases type with
  | primitive | combine | constant =>
      simp only [encodeScalar, natural?_stripped]
      exact .ok rfl
  | date storage =>
      simp only [encodeScalar, date?_stripped]
      cases value.date? with
      | none => exact .error _ _
      | some t => exact .ok rfl
  | set element =>
      cases value with
      | set members => exact encodeSet_stripped _ _ element members
      | list items =>
          rw [stripped, strippedItems_eq (hset items element rfl rfl)]
          exact encodeSet_stripped _ _ element items
      | _ => exact .error _ _
  | _ => exact .error _ _

end Reading

/-! ## Documents -/

theorem Value.mem_strippedFields {fields : List (String × Value)} {key : String} {value : Value} :
    (key, value) ∈ strippedFields fields ↔
      ∃ given, (key, given) ∈ fields ∧ given.isUndefined = false ∧ given.stripped = value := by
  induction fields with
  | nil => simp [strippedFields]
  | cons field rest ih =>
      by_cases hundefined : field.2.isUndefined = true
      · rw [strippedFields_cons_of_undefined hundefined, ih]
        refine exists_congr fun given => ⟨fun ⟨hmem, hgiven⟩ => ⟨.tail _ hmem, hgiven⟩, ?_⟩
        rintro ⟨hmem, hdefined, hvalue⟩
        rcases List.mem_cons.mp hmem with rfl | hmem
        · rw [hdefined] at hundefined
          cases hundefined
        · exact ⟨hmem, hdefined, hvalue⟩
      · have hdefined : field.2.isUndefined = false := by simpa using hundefined
        rw [strippedFields_cons_of_defined hdefined, List.mem_cons, ih]
        constructor
        · rintro (heq | ⟨given, hmem, hgiven⟩)
          · obtain ⟨rfl, rfl⟩ := Prod.mk.inj heq
            exact ⟨field.2, List.mem_cons_self, hdefined, rfl⟩
          · exact ⟨given, .tail _ hmem, hgiven⟩
        · rintro ⟨given, hmem, hgiven, rfl⟩
          rcases List.mem_cons.mp hmem with rfl | hmem
          · exact .inl rfl
          · exact .inr ⟨given, hmem, hgiven, rfl⟩

namespace SchemaOf

open Value

variable {schema : Schema σ} {fields : List (String × Value)}

theorem storedNames_strippedFields (schema : Schema σ) (fields : List (String × Value)) :
    (schema.storedNames (strippedFields fields)).Sublist (schema.storedNames fields) := by
  induction fields with
  | nil => exact .slnil
  | cons field rest ih =>
      by_cases hundefined : field.2.isUndefined = true
      · rw [strippedFields_cons_of_undefined hundefined]
        exact ih.cons _
      · rw [strippedFields_cons_of_defined (by simpa using hundefined)]
        exact ih.cons_cons _

/-- Of attributes that are given once, each has the value of its field. -/
theorem get?_normalized_eq_some_iff (hdistinct : (schema.storedNames fields).Nodup) {name : String}
    {value : Value} : (schema.normalized fields).get? name = some value ↔
      ∃ key, (key, value) ∈ fields ∧ schema.storedName key = name := by
  have hkeys : ((fields.map fun field => (schema.storedName field.1, field.2)).map
      Prod.fst).Nodup := by
    rwa [List.map_map]
  rw [normalized, Fields.get?_ofList_eq_some_iff hkeys, List.mem_map]
  constructor
  · rintro ⟨field, hfield, heq⟩
    obtain ⟨rfl, rfl⟩ := Prod.mk.inj heq
    exact ⟨field.1, hfield, rfl⟩
  · rintro ⟨key, hmem, rfl⟩
    exact ⟨(key, value), hmem, rfl⟩

/-- A stripped document holds under each stored name what the document holds there, if that is
defined. -/
theorem get?_normalized_stripped (hdistinct : (schema.storedNames fields).Nodup) (name : String) :
    (schema.normalized (strippedFields fields)).get? name =
      (((schema.normalized fields).get? name).filter fun value => !value.isUndefined).map
        stripped := by
  have hstripped := hdistinct.sublist (storedNames_strippedFields schema fields)
  ext value
  simp only [get?_normalized_eq_some_iff hstripped, Option.map_eq_some_iff,
    Option.filter_eq_some_iff, get?_normalized_eq_some_iff hdistinct, mem_strippedFields,
    Bool.not_eq_true']
  constructor
  · rintro ⟨key, ⟨given, hmem, hdefined, rfl⟩, hname⟩
    exact ⟨given, ⟨⟨key, hmem, hname⟩, hdefined⟩, rfl⟩
  · rintro ⟨given, ⟨⟨key, hmem, hname⟩, hdefined⟩, rfl⟩
    exact ⟨key, ⟨given, hmem, hdefined, rfl⟩, hname⟩

end SchemaOf

end ItemMapper
