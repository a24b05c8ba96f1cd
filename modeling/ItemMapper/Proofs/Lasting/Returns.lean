import ItemMapper.Proofs.Lasting.Values

/-!
# Reading and writing what lasts

A stored value that lasts is read as a value that is stored as it again (`WireValue.Returns`,
`WireValue.exists_returns`).  That it was stored once says of what kind its parts are.  It does not
say at which place each part was looked at: a list may have lost items before it was stored.

A type is chosen by its score, and the score of an undeclared field depends on the place.  What is
read under a native name is scored under this name when it is written, and was scored under the
stored name when it was read.  Scores are therefore followed at all places where patterns say the
same (`Scope.Alike`); `Scope.Repeatable` asks that the two names lead to such places.
-/

namespace ItemMapper

variable {σ : Type}

open Pipeline

/-! ## Places that are alike -/

namespace Scope

/-- The patterns of every schema that can be reached say the same of all places. -/
def Placeless (start : Scope σ) : Prop :=
  ∀ scope schema, start.Reaches scope schema →
    ∀ near far, scope.unknownMatch near = scope.unknownMatch far

/-- Patterns say the same below both places. -/
def Alike (start : Scope σ) (near far : Place) : Prop :=
  near = far ∨ start.Placeless

/-- Types are told apart, a reference does not stand for a list, and no pattern tells a native
name from a stored one. -/
structure Repeatable (start : Scope σ) : Prop extends start.Discerning where
  scalarKeys : ∀ scope name, start.Uses scope (.model name) → ∀ place,
    ∀ reading ∈ scope.readings place false (.model name), ∀ elements,
      reading.type ≠ .array elements
  spelling : (∀ scope schema, start.Reaches scope schema →
    ∀ field ∈ schema.attributes, field.nativeAlias = none) ∨ start.Placeless

namespace Alike

variable {start : Scope σ} {near far : Place}

theorem child (halike : start.Alike near far) (key : String) :
    start.Alike (near.child key) (far.child key) := by
  rcases halike with rfl | hplaceless
  · exact .inl rfl
  · exact .inr hplaceless

theorem item (halike : start.Alike near far) (index : Nat) :
    start.Alike (near.item index) (far.item index) :=
  halike.child _

/-- A native name leads to the same as the stored one. -/
theorem nativeChild (hstart : start.Repeatable) (halike : start.Alike near far) {scope : Scope σ}
    {schema : Schema σ} (hreaches : start.Reaches scope schema) {field : Attribute σ}
    (hfield : field ∈ schema.attributes) :
    start.Alike (near.child field.name) (far.child field.nativeName) := by
  rcases hstart.spelling with hnoAlias | hplaceless
  · have hname : field.nativeName = field.name := by
      simp [AttributeOf.nativeName, hnoAlias scope schema hreaches field hfield]
    rw [hname]
    exact halike.child _
  · exact .inr hplaceless

theorem unknownMatch_eq (halike : start.Alike near far) {scope : Scope σ} {schema : Schema σ}
    (hreaches : start.Reaches scope schema) (key : String) :
    scope.unknownMatch (far.child key) = scope.unknownMatch (near.child key) := by
  rcases halike with rfl | hplaceless
  · rfl
  · exact hplaceless scope schema hreaches _ _

/-- A document is entered at places that are alike. -/
theorem enter? (halike : start.Alike near far) {scope : Scope σ} {type : CandidateType σ}
    {frame : Frame σ} (henter : scope.enter? near type = some frame) :
    ∃ entered, scope.enter? far type = some ⟨frame.scope, entered, frame.schema⟩ ∧
      start.Alike frame.place entered := by
  rcases halike with rfl | hplaceless
  · exact ⟨frame.place, henter, .inl rfl⟩
  · obtain ⟨entered, hentered⟩ := (opens_of_enter? henter).enter? far
    exact ⟨entered, hentered, .inr hplaceless⟩

end Alike

end Scope

/-! ## Values that come back -/

/-- A stored value is read as a value that is stored as it again.  Wherever patterns say the same,
one type fits both, by scores that are kept up by the number of values. -/
structure WireValue.Returns (start : Scope σ) (stored : WireValue) (scope : Scope σ)
    (place : Place) (types : List (CandidateType σ)) (back : Value) : Prop where
  sameKind : back.isDocument = stored.isDocument
  reads : stored.ReadsAs scope place types back
  writes : back.ConvertsTo scope place types (some stored)
  scores : ∀ other, start.Alike place other →
    ∃ choice ∈ scope.choices other types stored.isDocument,
      Score.AtLeast (2 * stored.size) (back.score Score.rounded choice.reading) ∧
        Score.AtLeast (2 * stored.size) (stored.score Score.rounded choice.reading)

namespace WireValue.Returns

variable {start scope : Scope σ} {stored : WireValue} {place other : Place}
  {types : List (CandidateType σ)} {back : Value}

theorem isUndefined_eq_false (hreturns : stored.Returns start scope place types back)
    (before : σ) : back.isUndefined = false := by
  rw [Bool.eq_false_iff]
  intro hundefined
  obtain rfl := Value.eq_undefined hundefined
  have hnone : Value.undefined.ConvertsTo scope place types none :=
    fun _ _ => by simp [Value.writer]
  cases hreturns.writes.unique before hnone

theorem best (hreturns : stored.Returns start scope place types back)
    (hapart : scope.ToldApart types) (halike : start.Alike place other) :
    Score.AtLeast (2 * stored.size) (Score.best ((types.flatMap
      (scope.readings other back.isDocument)).map (back.score Score.rounded))) := by
  obtain ⟨choice, hchoice, hscore, -⟩ := hreturns.scores other halike
  rw [hapart.best_eq (hreturns.sameKind ▸ hchoice) hscore.pos]
  exact hscore

theorem bestStored (hreturns : stored.Returns start scope place types back)
    (hapart : scope.ToldApart types) (halike : start.Alike place other) :
    Score.AtLeast (2 * stored.size) (Score.best ((types.flatMap
      (scope.readings other stored.isDocument)).map (stored.score Score.rounded))) := by
  obtain ⟨choice, hchoice, -, hscore⟩ := hreturns.scores other halike
  rw [hapart.bestStored_eq hchoice hscore.pos]
  exact hscore

end WireValue.Returns

/-! ## Values that are stored at once -/

/-- A value of these types is stored at once. -/
def CandidateType.AtOnce (type : CandidateType σ) : Prop :=
  type.isWhole = true ∨ ∃ element, type = .set element

/-- Such a type leads neither into a list nor into a document. -/
theorem CandidateType.AtOnce.not_inside {type : CandidateType σ} (hleaf : type.AtOnce) :
    (∀ elements, type ≠ .array elements) ∧
      ∀ (scope : Scope σ) place, scope.enter? place type = none := by
  rcases hleaf with hwhole | ⟨element, rfl⟩
  · cases type <;> simp_all [isWhole, Scope.enter?]
  · simp [Scope.enter?]

theorem SetElement.wireType_of_store? {element : SetElement} {members : List SetMember}
    {stored : WireValue} (hstore : element.store? members = some stored) :
    stored.wireType = element.wireType := by
  unfold store? at hstore
  split at hstore
  · cases hstore
  · cases element with
    | date storage => cases storage <;> (obtain rfl := Option.some.inj hstore; rfl)
    | _ => obtain rfl := Option.some.inj hstore; rfl

namespace Reading

variable {reading : Reading σ} {value : Value} {stored : WireValue}

theorem atOnce_of_encodeScalar {given : Option WireValue}
    (hencode : reading.encodeScalar value = .ok given) : reading.type.AtOnce := by
  obtain ⟨scope, place, type⟩ := reading
  cases type with
  | primitive | date | combine | constant => exact .inl rfl
  | set element => exact .inr ⟨element, rfl⟩
  | _ => cases value <;> simp [encodeScalar] at hencode

theorem exists_date_of_encodeScalar {storage : DateStorage} (htype : reading.type = .date storage)
    (hencode : reading.encodeScalar value = .ok (some stored)) :
    ∃ t, value.date? = some t ∧ stored = .ofDate t storage := by
  unfold encodeScalar at hencode
  simp only [htype] at hencode
  cases hdate : value.date? with
  | none => simp [hdate] at hencode
  | some t => exact ⟨t, rfl, by simpa [hdate, eq_comm] using hencode⟩

/-- What is stored at once is a document only if the value is. -/
theorem isDocument_of_encodeScalar (hencode : reading.encodeScalar value = .ok (some stored)) :
    stored.isDocument = value.isDocument := by
  obtain ⟨scope, place, type⟩ := reading
  cases type with
  | primitive | combine | constant =>
      exact Value.isDocument_of_natural? (by simpa [encodeScalar] using hencode)
  | date storage =>
      obtain ⟨t, hdate, rfl⟩ := exists_date_of_encodeScalar rfl hencode
      have hstored : (WireValue.ofDate t storage).isDocument = false := by cases storage <;> rfl
      cases value with
      | map fields => cases hdate
      | _ => exact hstored
  | set element =>
      obtain ⟨kind, members, -, hvalue, hencoded⟩ :=
        WireValue.exists_kind_of_encodeScalar rfl hencode
      obtain ⟨_, -, -, hstore, -⟩ := SetElement.exists_distinct_of_encode hencoded
      rw [SetElement.isDocument_of_store? hstore]
      rcases hvalue with rfl | rfl <;> rfl
  | _ => cases value <;> simp [encodeScalar] at hencode

/-- Dates of a stored scalar or set are legible if they are so in what its type holds. -/
theorem leafLasts_of_encodeScalar (hencode : reading.encodeScalar value = .ok (some stored))
    (hlasts : stored.wireType ∈ reading.type.holds → stored.LeafLasts reading.type) :
    stored.LeafLasts reading.type := by
  cases htype : reading.type with
  | date storage =>
      rw [htype] at hlasts
      apply hlasts
      obtain ⟨t, -, rfl⟩ := exists_date_of_encodeScalar htype hencode
      cases storage <;> exact List.mem_singleton_self _
  | set element =>
      rw [htype] at hlasts
      apply hlasts
      obtain ⟨kind, members, hkind, -, hencoded⟩ :=
        WireValue.exists_kind_of_encodeScalar htype hencode
      obtain ⟨_, -, -, hstore, -⟩ := SetElement.exists_distinct_of_encode hencoded
      simp [CandidateType.holds, hkind, SetElement.wireType_of_store? hstore]
  | _ => trivial

end Reading

/-! ### The same type at another place -/

theorem Registry.keyReadings_types (registry : Registry σ) (near far : Place) (budget : Nat)
    (way : List String) (name : String) :
    (registry.keyReadings near budget way name).map Reading.type =
      (registry.keyReadings far budget way name).map Reading.type := by
  induction budget generalizing way name with
  | zero => rfl
  | succ budget ih =>
      rw [keyReadings, keyReadings]
      split
      · rfl
      cases hmodel : registry.find? name with
      | none => rfl
      | some model =>
          dsimp only
          cases hkey : model.schema.hashKey? with
          | none => rfl
          | some field =>
              simp only [List.map_flatMap]
              refine List.flatMap_congr fun type _ => ?_
              cases type with
              | model next => exact ih _ next
              | _ => rfl

namespace Scope

variable {scope : Scope σ} {near : Place} {types : List (CandidateType σ)} {isDocument : Bool}
  {choice : Choice σ}

theorem readings_types (near far : Place) (type : CandidateType σ) :
    (scope.readings near isDocument type).map Reading.type =
      (scope.readings far isDocument type).map Reading.type := by
  cases type with
  | model name =>
      cases isDocument with
      | true => rfl
      | false => exact scope.registry.keyReadings_types near far _ [] name
  | _ => cases isDocument <;> rfl

/-- A choice at a place is one at every place. -/
theorem exists_choice_at (hchoice : choice ∈ scope.choices near types isDocument) (far : Place) :
    ∃ found ∈ scope.choices far types isDocument, found.reading.type = choice.reading.type := by
  obtain ⟨htype, hreading⟩ := mem_choices.mp hchoice
  have htypes : choice.reading.type ∈
      (scope.readings far isDocument choice.type).map Reading.type := by
    rw [readings_types far near]
    exact List.mem_map_of_mem hreading
  obtain ⟨reading, hfound, hsame⟩ := List.mem_map.mp htypes
  exact ⟨⟨choice.type, reading⟩, mem_choices.mpr ⟨htype, hfound⟩, hsame⟩

/-- What is read as a type of values that are stored at once is not looked into. -/
theorem not_inside_of_mem_choices (hchoice : choice ∈ scope.choices near types isDocument)
    (hleaf : choice.reading.type.AtOnce) :
    (∀ elements, choice.type ≠ .array elements) ∧
      (isDocument = true → scope.enter? near choice.type = none) := by
  obtain ⟨-, hreading⟩ := mem_choices.mp hchoice
  constructor
  · intro elements harray
    rw [harray, readings_of_ne_model (by simp), List.mem_singleton] at hreading
    exact hleaf.not_inside.1 elements (by rw [hreading])
  · rintro rfl
    rw [readings_document, List.mem_singleton] at hreading
    rw [hreading] at hleaf
    exact hleaf.not_inside.2 scope near

end Scope

/-! ### At once in both directions -/

section AtOnce

variable {scope : Scope σ} {place : Place} {types : List (CandidateType σ)} {choice : Choice σ}
  (before : σ) (hleaf : choice.reading.type.AtOnce)

include before hleaf

theorem Value.convertsTo_of_encodeAs {value : Value} {stored : Option WireValue}
    (hdefined : value.isUndefined = false) (hchoice : scope.resolve place types value = .ok choice)
    (hencode : value.encodeAs choice.reading = .ok stored) :
    value.ConvertsTo scope place types stored := by
  obtain ⟨htype, hreading⟩ := Scope.of_resolve hchoice
  obtain ⟨hlist, hdocument⟩ :=
    Scope.not_inside_of_mem_choices (Scope.mem_choices.mpr ⟨htype, hreading⟩) hleaf
  cases value with
  | list items =>
      refine (convertsTo_list_iff before).mpr ⟨choice, hchoice, ?_⟩
      split
      · next elements harray => exact absurd harray (hlist elements)
      · exact hencode
  | map fields =>
      refine (convertsTo_map_iff before).mpr ⟨choice, hchoice, ?_⟩
      rw [hdocument rfl]
      exact hencode
  | _ =>
      exact (convertsTo_leaf_iff before hdefined (by simp) (by simp)).mpr ⟨choice, hchoice, hencode⟩

theorem WireValue.readsAs_of_decodeLeaf {stored : WireValue} {value : Value}
    (hmem : choice ∈ scope.choices place types stored.isDocument)
    (hchoice : scope.resolveStored place types stored = .ok choice)
    (hdecode : stored.decodeLeaf choice.reading = .ok value) :
    stored.ReadsAs scope place types value := by
  obtain ⟨hlist, hdocument⟩ := Scope.not_inside_of_mem_choices hmem hleaf
  cases stored with
  | list items =>
      refine (readsAs_list_iff before).mpr ⟨choice, hchoice, ?_⟩
      split
      · next elements harray => exact absurd harray (hlist elements)
      · exact hdecode
  | map fields =>
      refine (readsAs_map_iff before).mpr ⟨choice, hchoice, ?_⟩
      rw [hdocument rfl]
      exact hdecode
  | _ => exact (readsAs_leaf_iff before (by simp) (by simp)).mpr ⟨choice, hchoice, hdecode⟩

end AtOnce

/-- What is decoded and stored again at once comes back. -/
theorem WireValue.Returns.of_recoded {start scope : Scope σ} {stored : WireValue} {place : Place}
    {types : List (CandidateType σ)} {back : Value} (hapart : scope.ToldApart types) (before : σ)
    {choice : Choice σ} (hleaf : choice.reading.type.AtOnce)
    (hchoice : choice ∈ scope.choices place types stored.isDocument)
    (hrecoded : Recoded choice.reading.type stored back) :
    stored.Returns start scope place types back := by
  have hscore := hrecoded.score choice.reading rfl
  have hstoredScore := hrecoded.storedScore choice.reading rfl
  refine ⟨hrecoded.sameKind, ?_, ?_, ?_⟩
  · apply readsAs_of_decodeLeaf before hleaf hchoice _ (hrecoded.decode choice.reading rfl)
    exact hapart.resolveStored_iff.mpr ⟨hchoice, by rw [hstoredScore]; norm_num⟩
  · apply Value.convertsTo_of_encodeAs before hleaf hrecoded.defined _
      (hrecoded.encode choice.reading rfl)
    exact hapart.resolve_iff.mpr ⟨hrecoded.sameKind ▸ hchoice, hscore.pos⟩
  · intro other _
    obtain ⟨found, hfound, hsame⟩ := Scope.exists_choice_at hchoice other
    refine ⟨found, hfound, hrecoded.score _ hsame, ?_⟩
    rw [hrecoded.storedScore _ hsame]
    exact .one _

/-! ## Lists -/

namespace WireValue

theorem itemsSize_eq (items : List WireValue) : itemsSize items = (items.map size).sum := by
  induction items with
  | nil => rfl
  | cons item rest ih => rw [itemsSize, ih, List.map_cons, List.sum_cons]

theorem fieldsSize_eq (fields : List (String × WireValue)) :
    fieldsSize fields = (fields.map fun field => field.2.size).sum := by
  induction fields with
  | nil => rfl
  | cons field rest ih => rw [fieldsSize, ih, List.map_cons, List.sum_cons]

/-- Stored items are read as values that are stored as them again. -/
structure ItemsReturn (start : Scope σ) (items : List WireValue) (scope : Scope σ) (place : Place)
    (elements : List (CandidateType σ)) (index : Nat) (values : List Value) : Prop where
  reads : ItemsReadAs items scope place elements index values
  writes : Value.ItemsConvertTo values scope place elements index items
  scores : ∀ other, start.Alike place other →
    List.Forall₂ Score.AtLeast (items.map fun item => 2 * item.size)
        (Value.itemScores Score.rounded scope other elements index values) ∧
      List.Forall₂ Score.AtLeast (items.map fun item => 2 * item.size)
        (WireValue.itemScores Score.rounded scope other elements index items)

namespace ItemsReturn

variable {start scope : Scope σ} {place : Place} {elements : List (CandidateType σ)}

theorem nil (before : σ) (index : Nat) : ItemsReturn start [] scope place elements index [] where
  reads := (itemsReadAs_nil_iff before).mpr rfl
  writes := (Value.itemsConvertTo_nil_iff before).mpr rfl
  scores _ _ := ⟨.nil, .nil⟩

theorem cons {item : WireValue} {rest : List WireValue} {value : Value} {others : List Value}
    {index : Nat} (before : σ) (hapart : scope.ToldApart elements)
    (hitem : item.Returns start scope (place.item index) elements value)
    (hrest : ItemsReturn start rest scope place elements (index + 1) others) :
    ItemsReturn start (item :: rest) scope place elements index (value :: others) where
  reads := (itemsReadAs_cons_iff before).mpr ⟨value, others, hitem.reads, hrest.reads, rfl⟩
  writes := (Value.itemsConvertTo_cons_iff before).mpr
    ⟨some item, rest, hitem.writes, hrest.writes, rfl⟩
  scores other halike :=
    ⟨.cons (hitem.best hapart (halike.item index)) (hrest.scores other halike).1,
      .cons (hitem.bestStored hapart (halike.item index)) (hrest.scores other halike).2⟩

end ItemsReturn

theorem sum_map_double {α : Type} (size : α → Nat) (parts : List α) :
    (parts.map fun part => 2 * size part).sum = 2 * (parts.map size).sum := by
  induction parts with
  | nil => rfl
  | cons part rest ih => rw [List.map_cons, List.map_cons, List.sum_cons, List.sum_cons, ih]; omega

/-- The average of scores that are kept up by the sizes of the parts. -/
theorem atLeast_average {α : Type} {parts : List α} {size : α → Nat} {scores : List Rat}
    (hscores : List.Forall₂ Score.AtLeast (parts.map fun part => 2 * size part) scores)
    (hpos : ∀ part ∈ parts, 0 < size part) {total : Nat} (htotal : (parts.map size).sum = total)
    (hmemory : 1 + total ≤ 2 ^ 63) {others : List Rat} (hperm : scores.Perm others) :
    Score.AtLeast (2 * (1 + total)) (Score.average Score.rounded others) := by
  have hsum : (parts.map fun part => 2 * size part).sum = 2 * total := by
    rw [sum_map_double, htotal]
  have hsizes : ∀ size' ∈ parts.map fun part => 2 * size part, 0 < size' := by
    intro size' hsize
    obtain ⟨part, hpart, rfl⟩ := List.mem_map.mp hsize
    exact Nat.mul_pos (by decide) (hpos part hpart)
  refine (Score.AtLeast.average_perm hscores hperm hsizes (by omega)).mono ?_
  omega

/-- A list comes back if its items do. -/
theorem Returns.of_items {start scope : Scope σ} {place : Place}
    {types elements : List (CandidateType σ)} {items : List WireValue} {values : List Value}
    (hapart : scope.ToldApart types) (before : σ)
    (harray : .array elements ∈ types) (hmemory : (WireValue.list items).size ≤ 2 ^ 63)
    (hitems : ItemsReturn start items scope place elements 0 values) :
    (WireValue.list items).Returns start scope place types (.list values) := by
  have hmem : ∀ other isDocument, (⟨.array elements, ⟨scope, other, .array elements⟩⟩ : Choice σ) ∈
      scope.choices other types isDocument := by
    intro other isDocument
    exact Scope.mem_choices.mpr ⟨harray, by simp [Scope.readings_of_ne_model]⟩
  have hscores : ∀ other, start.Alike place other →
      Score.AtLeast (2 * (WireValue.list items).size)
          ((Value.list values).score Score.rounded ⟨scope, other, .array elements⟩) ∧
        Score.AtLeast (2 * (WireValue.list items).size)
          ((WireValue.list items).score Score.rounded ⟨scope, other, .array elements⟩) := by
    intro other halike
    obtain ⟨hvalues, hstoreds⟩ := hitems.scores other halike
    have hpos : ∀ item ∈ items, 0 < item.size := fun item _ => item.size_pos
    rw [size] at hmemory ⊢
    exact ⟨atLeast_average hvalues hpos (itemsSize_eq items).symm hmemory (.refl _),
      atLeast_average hstoreds hpos (itemsSize_eq items).symm hmemory (.refl _)⟩
  obtain ⟨hscore, hstoredScore⟩ := hscores place (.inl rfl)
  refine ⟨rfl, ?_, ?_, fun other halike => ⟨_, hmem other _, hscores other halike⟩⟩
  · refine (readsAs_list_iff before).mpr ⟨_, hapart.resolveStored_iff.mpr
      ⟨hmem place _, hstoredScore.pos⟩, values, rfl, hitems.reads⟩
  · refine (Value.convertsTo_list_iff before).mpr ⟨_, hapart.resolve_iff.mpr
      ⟨hmem place _, hscore.pos⟩, items, rfl, hitems.writes⟩

end WireValue

end ItemMapper
