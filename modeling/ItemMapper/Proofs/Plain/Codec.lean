import ItemMapper.Proofs.Plain.Conversion

/-!
# Conversion by recursion alone

`Scope.encode` stores a value without the stages of writing, field by field in the order of the
keys.  As long as no document in the value names an attribute by its alias it agrees with writing under
the plain options: `Value.convertsTo_iff_encode_of_keys`, by recursion on the value.  Where there are no
aliases this is so for every value.

The schemas that are met on the way are those that can be reached from some first one, but they are
not always met in the scope in which they are reached: a type that is found behind a reference may
be looked at in the scope before the reference.  `Scope.Covers` and `Scope.Mentions` therefore
leave the scope open.
-/

namespace ItemMapper

variable {σ : Type}

open Pipeline

/-! ## The chosen type -/

theorem Score.mem_of_firstBest {α : Type} {alternatives : List (α × Rat)} {best : α × Rat}
    (hbest : firstBest alternatives = some best) : best ∈ alternatives := by
  induction alternatives generalizing best with
  | nil => simp [firstBest] at hbest
  | cons alternative rest ih =>
      obtain ⟨first, score⟩ := alternative
      rw [firstBest] at hbest
      split at hbest
      case h_1 other higher hrest =>
        split at hbest
        · obtain rfl := Option.some.inj hbest
          exact List.mem_cons_of_mem _ (ih hrest)
        · obtain rfl := Option.some.inj hbest
          exact List.mem_cons_self
      case h_2 =>
        split at hbest
        · obtain rfl := Option.some.inj hbest
          exact List.mem_cons_self
        · simp at hbest

/-- The best alternative is found by the scores alone. -/
theorem Score.firstBest_map {α β : Type} (f : α → β) (alternatives : List (α × Rat)) :
    firstBest (alternatives.map (Prod.map f id)) =
      (firstBest alternatives).map (Prod.map f id) := by
  induction alternatives with
  | nil => rfl
  | cons alternative rest ih =>
      obtain ⟨first, score⟩ := alternative
      simp only [List.map_cons, Prod.map_apply, id_eq, firstBest, ih]
      cases firstBest rest with
      | none =>
          simp only [Option.map_none]
          split <;> rfl
      | some found =>
          obtain ⟨other, higher⟩ := found
          simp only [Option.map_some, Prod.map_apply, id_eq]
          split <;> rfl

namespace Scope

variable {scope : Scope σ} {place : Place} {types : List (CandidateType σ)} {value : Value}
  {choice : Choice σ}

theorem of_resolve (hresolve : scope.resolve place types value = .ok choice) :
    choice.type ∈ types ∧
      choice.reading ∈ scope.readings place value.isDocument choice.type := by
  unfold resolve at hresolve
  split at hresolve
  case h_2 => simp at hresolve
  case h_1 found hfound =>
    obtain rfl := Except.ok.inj hresolve
    obtain ⟨best, hbest, rfl⟩ := Option.map_eq_some_iff.mp hfound
    obtain ⟨candidate, hcandidate, rfl⟩ := List.mem_map.mp (Score.mem_of_firstBest hbest)
    obtain ⟨type, htype, hreadings⟩ := List.mem_flatMap.mp hcandidate
    obtain ⟨reading, hreading, rfl⟩ := List.mem_map.mp hreadings
    exact ⟨htype, hreading⟩

/-- A document is read where it stands. -/
theorem reading_of_document (hresolve : scope.resolve place types value = .ok choice)
    (hdocument : value.isDocument = true) : choice.reading = ⟨scope, place, choice.type⟩ := by
  have hreading := (of_resolve hresolve).2
  rw [hdocument, readings_document] at hreading
  exact List.mem_singleton.mp hreading

/-- So is a list whose type says of which items it is. -/
theorem reading_of_array (hresolve : scope.resolve place types value = .ok choice)
    {elements : List (CandidateType σ)} (harray : choice.type = .array elements) :
    choice.reading = ⟨scope, place, .array elements⟩ := by
  have hreading := (of_resolve hresolve).2
  rw [harray, readings_of_ne_model (by simp)] at hreading
  exact List.mem_singleton.mp hreading

end Scope

/-! ## Lists and documents by their parts -/

/-- Items of a list are stored as these, from a position on. -/
def Value.ItemsConvertTo (items : List Value) (scope : Scope σ) (place : Place)
    (elements : List (CandidateType σ)) (index : Nat) (storeds : List WireValue) : Prop :=
  ∀ (setting : Setting σ) before,
    Yields (Value.writeItems setting.make setting.writing scope place elements index items)
      before storeds before

namespace Value

variable {value : Value} {scope : Scope σ} {place : Place} {types : List (CandidateType σ)}
  {stored : Option WireValue}

theorem yields_writeChosen_iff {writing : Writing} (hcheck : writing.options.typeCheck = true)
    {before after : σ} {inside : CandidateType σ → Option (Pipeline σ WireValue)} :
    Yields (value.writeChosen writing scope place types inside) before stored after ↔
      ∃ choice, scope.resolve place types value = .ok choice ∧
        match inside choice.type with
        | some nested => ∃ inner, stored = some inner ∧ Yields nested before inner after
        | none => value.encodeAs choice.reading = .ok stored ∧ before = after := by
  unfold writeChosen
  cases scope.resolve place types value with
  | error cause => simp [hcheck]
  | ok choice =>
      cases hinside : inside choice.type with
      | none => simp [hinside]
      | some nested =>
          simp only [hinside, yields_bind, yields_pure, Except.ok.injEq, exists_eq_left']
          constructor
          · rintro ⟨inner, _, hinner, rfl, rfl⟩
            exact ⟨inner, rfl, hinner⟩
          · rintro ⟨inner, rfl, hinner⟩
            exact ⟨inner, after, hinner, rfl, rfl⟩

/-- The choice of a type is the same in every setting. -/
theorem forall_yields_writeChosen (before : σ)
    {inside : Setting σ → CandidateType σ → Option (Pipeline σ WireValue)} :
    (∀ setting state, Yields (value.writeChosen setting.writing scope place types (inside setting))
        state stored state) ↔
      ∃ choice, scope.resolve place types value = .ok choice ∧ ∀ setting state,
        match inside setting choice.type with
        | some nested => ∃ inner, stored = some inner ∧ Yields nested state inner state
        | none => value.encodeAs choice.reading = .ok stored := by
  have hcheck : ∀ setting : Setting σ, setting.writing.options.typeCheck = true := fun _ => rfl
  simp only [yields_writeChosen_iff (hcheck _), and_true]
  constructor
  · intro hruns
    obtain ⟨choice, hchoice, -⟩ := hruns default before
    refine ⟨choice, hchoice, fun setting state => ?_⟩
    obtain ⟨other, hother, hinside⟩ := hruns setting state
    obtain rfl := Except.ok.inj (hother.symm.trans hchoice)
    exact hinside
  · rintro ⟨choice, hchoice, hinside⟩ setting state
    exact ⟨choice, hchoice, hinside setting state⟩

/-- A document is stored field by field if its type leads into it. -/
theorem convertsTo_map_iff (before : σ) {fields : List (String × Value)} :
    (Value.map fields).ConvertsTo scope place types stored ↔
      ∃ choice, scope.resolve place types (.map fields) = .ok choice ∧
        match scope.enter? place choice.type with
        | some frame => ∃ item, stored = some (.map item) ∧ frame.ConvertsTo fields item
        | none => (Value.map fields).encodeAs choice.reading = .ok stored := by
  simp only [ConvertsTo, Value.writer]
  rw [forall_yields_writeChosen before]
  refine exists_congr fun choice => and_congr_right fun _ => ?_
  cases scope.enter? place choice.type with
  | none =>
      show (∀ _ _, _) ↔ _
      exact ⟨fun hencode => hencode default before, fun hencode _ _ => hencode⟩
  | some frame =>
      show (∀ setting state, ∃ inner, stored = some inner ∧ Yields _ state inner state) ↔ _
      simp only [yields_bind, yields_pure]
      constructor
      · intro hruns
        obtain ⟨_, rfl, item, _, -, rfl, -⟩ := hruns default before
        refine ⟨item, rfl, fun setting state => ?_⟩
        obtain ⟨_, hsame, other, _, hother, rfl, rfl⟩ := hruns setting state
        obtain rfl : item = other := by simpa using hsame
        exact hother
      · rintro ⟨item, rfl, hconverts⟩ setting state
        exact ⟨_, rfl, item, state, hconverts setting state, rfl, rfl⟩

/-- A list is stored item by item if its type says of which items it is. -/
theorem convertsTo_list_iff (before : σ) {items : List Value} :
    (Value.list items).ConvertsTo scope place types stored ↔
      ∃ choice, scope.resolve place types (.list items) = .ok choice ∧
        match choice.type with
        | .array elements => ∃ storeds, stored = some (.list storeds) ∧
            ItemsConvertTo items scope place elements 0 storeds
        | _ => (Value.list items).encodeAs choice.reading = .ok stored := by
  simp only [ConvertsTo, Value.writer]
  rw [forall_yields_writeChosen before]
  refine exists_congr fun choice => and_congr_right fun _ => ?_
  cases choice.type with
  | array elements =>
      show (∀ setting state, ∃ inner, stored = some inner ∧ Yields _ state inner state) ↔ _
      simp only [yields_bind, yields_pure]
      constructor
      · intro hruns
        obtain ⟨_, rfl, storeds, _, -, rfl, -⟩ := hruns default before
        refine ⟨storeds, rfl, fun setting state => ?_⟩
        obtain ⟨_, hsame, others, _, hother, rfl, rfl⟩ := hruns setting state
        obtain rfl : storeds = others := by simpa using hsame
        exact hother
      · rintro ⟨storeds, rfl, hconverts⟩ setting state
        exact ⟨_, rfl, storeds, state, hconverts setting state, rfl, rfl⟩
  | _ => exact ⟨fun hencode => hencode default before, fun hencode _ _ => hencode⟩

theorem itemsConvertTo_cons_iff (before : σ) {item : Value} {rest : List Value}
    {elements : List (CandidateType σ)} {index : Nat} {storeds : List WireValue} :
    ItemsConvertTo (item :: rest) scope place elements index storeds ↔
      ∃ stored others, item.ConvertsTo scope (place.item index) elements stored ∧
        ItemsConvertTo rest scope place elements (index + 1) others ∧
          storeds = stored.toList ++ others := by
  simp only [ItemsConvertTo, Value.writeItems]
  constructor
  · intro hruns
    obtain ⟨stored, _, hitem, hothers⟩ := yields_bind.mp (hruns default before)
    obtain ⟨others, _, hrest, hsame⟩ := yields_bind.mp hothers
    obtain ⟨rfl, -⟩ := yields_pure.mp hsame
    refine ⟨stored, others, (convertsTo_of_yields _ hitem).2, ?_, rfl⟩
    exact fun setting state =>
      (steady_writeItems rest scope place elements (index + 1) _ _ _ _ hrest).2 setting state
  · rintro ⟨stored, others, hitem, hrest, rfl⟩ setting state
    exact (hitem setting state).bind ((hrest setting state).bind yields_pure_self)

/-- Other values are stored at once. -/
theorem convertsTo_leaf_iff (before : σ) (hdefined : value.isUndefined = false)
    (hlist : ∀ items, value ≠ .list items) (hmap : ∀ fields, value ≠ .map fields) :
    value.ConvertsTo scope place types stored ↔
      ∃ choice, scope.resolve place types value = .ok choice ∧
        value.encodeAs choice.reading = .ok stored := by
  have hwriter : ∀ setting : Setting σ,
      value.writer setting.make setting.writing scope place types =
        value.writeChosen setting.writing scope place types fun _ => none := by
    intro setting
    cases value with
    | undefined => cases hdefined
    | list items => exact absurd rfl (hlist items)
    | map fields => exact absurd rfl (hmap fields)
    | _ => simp [Value.writer]
  simp only [ConvertsTo, hwriter]
  rw [forall_yields_writeChosen before]
  refine exists_congr fun choice => and_congr_right fun _ => ?_
  exact ⟨fun hencode => hencode default before, fun hencode _ _ => hencode⟩

end Value

/-! ## Names that are no aliases -/

namespace SchemaOf

variable {schema : Schema σ} {name : String}

/-- An attribute of the schema has this alias. -/
def IsAlias (schema : Schema σ) (name : String) : Prop :=
  ∃ field ∈ schema.attributes, field.nativeAlias = some name

theorem not_isAlias (hnoAlias : ∀ field ∈ schema.attributes, field.nativeAlias = none)
    (name : String) : ¬ schema.IsAlias name := by
  rintro ⟨field, hfield, halias⟩
  rw [hnoAlias field hfield] at halias
  cases halias

theorem nativeAttribute?_of_not_isAlias (hname : ¬ schema.IsAlias name) :
    schema.nativeAttribute? name = schema.attribute? name := by
  have hnone : (schema.attributes.find? fun field => field.nativeAlias == some name) = none := by
    rw [List.find?_eq_none]
    exact fun field hfield halias => hname ⟨field, hfield, by simpa using halias⟩
  rw [nativeAttribute?, hnone, Option.none_or]

theorem nativeAttribute?_of_noAlias
    (hnoAlias : ∀ field ∈ schema.attributes, field.nativeAlias = none) (name : String) :
    schema.nativeAttribute? name = schema.attribute? name :=
  nativeAttribute?_of_not_isAlias (not_isAlias hnoAlias name)

theorem storedName_of_not_isAlias (hname : ¬ schema.IsAlias name) :
    schema.storedName name = name := by
  rw [storedName, nativeAttribute?_of_not_isAlias hname]
  cases hfind : schema.attribute? name with
  | none => rfl
  | some field => exact (mem_of_attribute? hfind).2

/-- Unless it uses aliases a document is under stored names as it is. -/
theorem normalized_of_not_isAlias {fields : Document}
    (hkeys : ∀ entry ∈ fields, ¬ schema.IsAlias entry.1) (hsorted : Fields.Sorted fields) :
    schema.normalized fields = fields := by
  have hsame : (fields.map fun field => (schema.storedName field.1, field.2)) = fields := by
    conv_rhs => rw [← List.map_id fields]
    apply List.map_congr_left
    intro field hfield
    rw [storedName_of_not_isAlias (hkeys field hfield)]
    rfl
  rw [normalized, hsame, Fields.ofList_of_sorted hsorted]

theorem normalized_of_noAlias
    (hnoAlias : ∀ field ∈ schema.attributes, field.nativeAlias = none) {fields : Document}
    (hsorted : Fields.Sorted fields) : schema.normalized fields = fields :=
  normalized_of_not_isAlias (fun entry _ => not_isAlias hnoAlias entry.1) hsorted

end SchemaOf

/-! ### Keys of values -/

namespace Value

mutual

/-- The keys of the documents that a value holds, one in the other or in lists. -/
def keys : Value → List String
  | .list items => itemKeys items
  | .map fields => fieldKeys fields
  | _ => []

def itemKeys : List Value → List String
  | [] => []
  | item :: rest => item.keys ++ itemKeys rest

def fieldKeys : List (String × Value) → List String
  | [] => []
  | (key, value) :: rest => key :: (value.keys ++ fieldKeys rest)

end

theorem mem_fieldKeys {fields : List (String × Value)} {entry : String × Value}
    (hentry : entry ∈ fields) : entry.1 ∈ fieldKeys fields := by
  induction fields with
  | nil => simp at hentry
  | cons first rest ih =>
      rw [fieldKeys]
      rcases List.mem_cons.mp hentry with rfl | hrest
      · exact List.mem_cons_self
      · exact List.mem_cons_of_mem _ (List.mem_append_right _ (ih hrest))

end Value

namespace Scope

/-- Some schema that can be reached has this alias. -/
def IsAlias (start : Scope σ) (name : String) : Prop :=
  ∃ scope schema, start.Reaches scope schema ∧ schema.IsAlias name

/-- What can be reached from a scope is well formed and uses no aliases. -/
structure Unaliased (start : Scope σ) : Prop where
  wellFormed : ∀ scope schema, start.Reaches scope schema → schema.WellFormed
  noAlias : ∀ scope schema, start.Reaches scope schema →
    ∀ field ∈ schema.attributes, field.nativeAlias = none

theorem Unaliased.not_isAlias {start : Scope σ} (hunaliased : start.Unaliased) (name : String) :
    ¬ start.IsAlias name := by
  rintro ⟨scope, schema, hreaches, halias⟩
  exact SchemaOf.not_isAlias (hunaliased.noAlias scope schema hreaches) name halias

/-- A schema can be reached in some scope. -/
def Mentions (start : Scope σ) (schema : Schema σ) : Prop :=
  ∃ scope, start.Reaches scope schema

/-- Types can be reached, each in some scope. -/
def MentionsTypes (start : Scope σ) (types : List (CandidateType σ)) : Prop :=
  ∀ type ∈ types, ∃ scope, start.Uses scope type

/-- A scope of the same registry, whose root can be reached. -/
structure Covers (start scope : Scope σ) : Prop where
  registry : scope.registry = start.registry
  root : start.Mentions scope.root

variable {start scope : Scope σ} {schema : Schema σ} {type : CandidateType σ}

theorem closed_covers (start : Scope σ) : start.Closed
    (fun scope schema => start.Reaches scope schema ∧ start.Covers scope)
    (fun scope type => start.Uses scope type ∧ start.Covers scope) where
  root := ⟨.root, rfl, start, .root⟩
  inside := by
    rintro scope type inner schema ⟨huses, hcovers⟩ hopens
    have hreaches := Reaches.inside huses hopens
    refine ⟨hreaches, ?_⟩
    cases hopens with
    | object => exact hcovers
    | self => exact hcovers
    | model hmodel => exact ⟨hcovers.registry, _, hreaches⟩
  field := by
    rintro scope schema ⟨hreaches, hcovers⟩ field hfield type htype
    exact ⟨.attribute hreaches hfield htype, hcovers⟩
  element := by
    rintro scope elements ⟨huses, hcovers⟩ type htype
    exact ⟨.element huses htype, hcovers⟩

theorem mentionsTypes_of_field {field : Attribute σ} (hschema : start.Mentions schema)
    (hfield : field ∈ schema.attributes) : start.MentionsTypes field.types := by
  obtain ⟨scope, hreaches⟩ := hschema
  exact fun type htype => ⟨scope, .attribute hreaches hfield htype⟩

theorem mentionsTypes_of_array {elements : List (CandidateType σ)}
    (harray : ∃ scope, start.Uses scope (.array elements)) : start.MentionsTypes elements := by
  obtain ⟨scope, huses⟩ := harray
  exact fun type htype => ⟨scope, .element huses htype⟩

/-- Entering a document leads to such a scope again. -/
theorem Covers.enter? (hcovers : start.Covers scope) (htype : ∃ other, start.Uses other type)
    {place : Place} {frame : Frame σ} (henter : scope.enter? place type = some frame) :
    start.Covers frame.scope ∧ start.Mentions frame.schema := by
  obtain ⟨other, huses⟩ := htype
  cases type with
  | object schema =>
      obtain rfl := Option.some.inj henter
      exact ⟨hcovers, other, .inside huses .object⟩
  | self =>
      obtain rfl := Option.some.inj henter
      exact ⟨hcovers, hcovers.root⟩
  | model name =>
      obtain ⟨model, hmodel, rfl⟩ := Option.map_eq_some_iff.mp henter
      -- the name means the same model wherever the reference was found
      have hregistry := ((closed_covers start).of_uses huses).2.registry
      rw [hcovers.registry, ← hregistry] at hmodel
      have hreaches := Reaches.inside huses (.model hmodel)
      exact ⟨⟨hcovers.registry, _, hreaches⟩, _, hreaches⟩
  | _ => simp [Scope.enter?] at henter

end Scope

/-! ## The codec step by step -/

/-- The entry that the codec makes of a field. -/
def Frame.encodeField (frame : Frame σ) (key : String) (value : Value) :
    Except MapperError (Option (String × WireValue)) :=
  match frame.schema.nativeAttribute? key with
  | some field => do
    let stored ← frame.scope.encode (frame.place.child key) field.types value
    return stored.map fun stored => (field.name, stored)
  | none => .ok ((value.keep? frame.scope (frame.place.child key)).map fun stored => (key, stored))

theorem Value.encodeFields_cons (frame : Frame σ) (field : String × Value)
    (rest : List (String × Value)) :
    Value.encodeFields frame (field :: rest) = (do
      let stored ← frame.encodeField field.1 field.2
      let others ← Value.encodeFields frame rest
      return stored.toList ++ others) := by
  obtain ⟨key, value⟩ := field
  rw [Value.encodeFields, Frame.encodeField]
  cases frame.schema.nativeAttribute? key with
  | none => rfl
  | some declared =>
      simp only [Scope.encode]
      split
      · rfl
      · simp only [bind_assoc]
        rfl

theorem Value.encodeItems_cons (scope : Scope σ) (place : Place)
    (elements : List (CandidateType σ)) (index : Nat) (item : Value) (rest : List Value) :
    Value.encodeItems scope place elements index (item :: rest) = (do
      let stored ← scope.encode (place.item index) elements item
      let others ← Value.encodeItems scope place elements (index + 1) rest
      return stored.toList ++ others) := by
  rw [Value.encodeItems]
  unfold Scope.encode
  split
  · rfl
  · simp only [bind_assoc]

/-- The codec works through the fields one by one. -/
theorem Value.encodeFields_eq_mapM (frame : Frame σ) (fields : List (String × Value)) :
    Value.encodeFields frame fields = do
      let entries ← fields.mapM fun field => frame.encodeField field.1 field.2
      return entries.filterMap id := by
  induction fields with
  | nil => rw [Value.encodeFields]; rfl
  | cons field rest ih =>
      rw [Value.encodeFields_cons, ih, List.mapM_cons]
      simp only [bind_assoc, pure_bind]
      refine congrArg _ (funext fun entry => congrArg _ (funext fun entries => ?_))
      cases entry <;> rfl

/-- The codec works through the items one by one. -/
theorem Value.encodeItems_eq_mapM (scope : Scope σ) (place : Place)
    (elements : List (CandidateType σ)) (index : Nat) (items : List Value) :
    Value.encodeItems scope place elements index items = do
      let entries ← (items.zipIdx index).mapM fun item =>
        scope.encode (place.item item.2) elements item.1
      return entries.filterMap id := by
  induction items generalizing index with
  | nil => rw [Value.encodeItems]; rfl
  | cons item rest ih =>
      rw [Value.encodeItems_cons, ih, List.zipIdx_cons, List.mapM_cons]
      simp only [bind_assoc, pure_bind]
      refine congrArg _ (funext fun entry => congrArg _ (funext fun entries => ?_))
      cases entry <;> rfl

/-- Choosing a type and encoding as this type is what the codec does with a defined value. -/
theorem Scope.encode_eq_ok {scope : Scope σ} {place : Place} {types : List (CandidateType σ)}
    {value : Value} {stored : Option WireValue} (hdefined : value.isUndefined = false) :
    scope.encode place types value = .ok stored ↔
      ∃ choice, scope.resolve place types value = .ok choice ∧
        value.encodeAs choice.reading = .ok stored := by
  rw [Scope.encode, hdefined]
  simp only [Bool.false_eq_true, if_false, Except.bind_eq_ok]

/-! ## Field by field -/

/-- The codec stores a field in this way. -/
def Frame.Encodes (frame : Frame σ) (field : String × Value) (stored : Option WireValue) : Prop :=
  match frame.schema.attribute? field.1 with
  | some declared =>
    frame.scope.encode (frame.place.child field.1) declared.types field.2 = .ok stored
  | none => field.2.keep? frame.scope (frame.place.child field.1) = stored

/-- The codec stores a field as writing does, if that is so for its value. -/
theorem Frame.storesAs_iff_encodes {frame : Frame σ} {fields : List (String × Value)}
    (hsorted : Fields.Sorted fields)
    (hvalues : ∀ entry ∈ fields, ∀ field ∈ frame.schema.attributes, ∀ place stored,
      entry.2.ConvertsTo frame.scope place field.types stored ↔
        frame.scope.encode place field.types entry.2 = .ok stored)
    {field : String × Value} (hfield : field ∈ fields) (stored : Option WireValue) :
    frame.StoresAs fields field.1 stored ↔ frame.Encodes field stored := by
  have hgiven : Fields.get? fields field.1 = some field.2 :=
    (Fields.get?_eq_some_iff (Fields.nodup_of_sorted hsorted)).mpr hfield
  rw [StoresAs, hgiven, Encodes]
  cases hattribute : frame.schema.attribute? field.1 with
  | none => rfl
  | some declared =>
      exact hvalues field hfield declared (SchemaOf.mem_of_attribute? hattribute).1 _ _

section NoAliases

variable {frame : Frame σ}

theorem Frame.encodeField_eq_ok {key : String} (hkey : ¬ frame.schema.IsAlias key) {value : Value}
    {entry : Option (String × WireValue)} :
    frame.encodeField key value = .ok entry ↔
      ∃ stored, entry = stored.map (fun stored => (key, stored)) ∧
        frame.Encodes (key, value) stored := by
  rw [encodeField, SchemaOf.nativeAttribute?_of_not_isAlias hkey]
  cases hattribute : frame.schema.attribute? key with
  | none => simp [Encodes, hattribute, eq_comm]
  | some field =>
      obtain rfl := (SchemaOf.mem_of_attribute? hattribute).2
      simp only [Encodes, hattribute, Except.bind_eq_ok, Except.pure_eq_ok]
      constructor
      · rintro ⟨stored, hstored, rfl⟩
        exact ⟨stored, rfl, hstored⟩
      · rintro ⟨stored, rfl, hstored⟩
        exact ⟨stored, hstored, rfl⟩

theorem Value.encodeFields_eq_ok {fields : List (String × Value)}
    (hkeys : ∀ entry ∈ fields, ¬ frame.schema.IsAlias entry.1)
    {pairs : List (String × WireValue)} :
    Value.encodeFields frame fields = .ok pairs ↔ ∃ entries,
      List.Forall₂ (fun field entry => ∃ stored,
        entry = stored.map (fun stored => (field.1, stored)) ∧ frame.Encodes field stored)
        fields entries ∧ pairs = entries.filterMap id := by
  induction fields generalizing pairs with
  | nil =>
      rw [Value.encodeFields]
      constructor
      · intro hpairs
        exact ⟨[], .nil, (Except.ok.inj hpairs).symm⟩
      · rintro ⟨_, hentries, rfl⟩
        cases hentries
        rfl
  | cons field rest ih =>
      have hentry : ∀ (entry : Option (String × WireValue)) entries,
          (entry :: entries).filterMap id = entry.toList ++ entries.filterMap id := by
        intro entry entries
        cases entry <;> rfl
      obtain ⟨hkey, hrest⟩ := List.forall_mem_cons.mp hkeys
      simp only [encodeFields_cons, Except.bind_eq_ok, Except.pure_eq_ok, ih hrest,
        Frame.encodeField_eq_ok hkey]
      constructor
      · rintro ⟨entry, hstored, _, ⟨entries, hentries, rfl⟩, rfl⟩
        exact ⟨entry :: entries, .cons hstored hentries, (hentry _ _).symm⟩
      · rintro ⟨_, _ | ⟨hstored, hentries⟩, rfl⟩
        exact ⟨_, hstored, _, ⟨_, hentries, rfl⟩, (hentry _ _).symm⟩

/-- Under each name the codec stores what the field of this name is stored as. -/
theorem Frame.storesAs_of_encodeFields {fields : List (String × Value)}
    (hkeys : ∀ entry ∈ fields, ¬ frame.schema.IsAlias entry.1) (hsorted : Fields.Sorted fields)
    (hfields : ∀ field ∈ fields, ∀ stored,
      frame.StoresAs fields field.1 stored ↔ frame.Encodes field stored)
    {pairs : List (String × WireValue)} (hpairs : Value.encodeFields frame fields = .ok pairs)
    (name : String) : frame.StoresAs fields name ((Fields.ofList pairs).get? name) := by
  obtain ⟨entries, hentries, rfl⟩ := (Value.encodeFields_eq_ok hkeys).mp hpairs
  have hstores : List.Forall₂ (fun name entry => ∃ stored,
      entry = stored.map (fun stored => (name, stored)) ∧ frame.StoresAs fields name stored)
      (fields.map Prod.fst) entries := by
    rw [List.forall₂_map_left_iff]
    have hmembers := (List.forall₂_and_left _ _).mpr ⟨fun field hfield => hfield, hentries⟩
    refine hmembers.imp ?_
    rintro field _ ⟨hfield, stored, rfl, hstored⟩
    exact ⟨stored, rfl, (hfields field hfield stored).mpr hstored⟩
  obtain ⟨hnamed, hother⟩ :=
    Fields.view_ofList (frame.StoresAs fields) (Fields.nodup_of_sorted hsorted) hstores
  by_cases hname : name ∈ fields.map Prod.fst
  · exact hnamed name hname
  · have habsent : Fields.get? fields name = none := by
      rw [Option.eq_none_iff_forall_ne_some]
      exact fun value hvalue => hname (List.mem_map.mpr ⟨_, Fields.mem_of_get? hvalue, rfl⟩)
    exact (storesAs_absent habsent).mpr (hother name hname)

/-- Writing a document under the plain options is encoding its fields, if that is so for its
values. -/
theorem Frame.convertsTo_iff_encodeFields (before : σ) (hschema : frame.schema.WellFormed)
    {fields : List (String × Value)}
    (hkeys : ∀ entry ∈ fields, ¬ frame.schema.IsAlias entry.1) (hsorted : Fields.Sorted fields)
    (hvalues : ∀ entry ∈ fields, ∀ field ∈ frame.schema.attributes, ∀ place stored,
      entry.2.ConvertsTo frame.scope place field.types stored ↔
        frame.scope.encode place field.types entry.2 = .ok stored) {item : Item} :
    frame.ConvertsTo fields item ↔
      ∃ pairs, Value.encodeFields frame fields = .ok pairs ∧ Fields.ofList pairs = item := by
  have hfields : ∀ field ∈ fields, ∀ stored,
      frame.StoresAs fields field.1 stored ↔ frame.Encodes field stored :=
    fun _ hfield stored => storesAs_iff_encodes hsorted hvalues hfield stored
  rw [convertsTo_iff hschema before, SchemaOf.normalized_of_not_isAlias hkeys hsorted]
  constructor
  · rintro ⟨hitem, hstores⟩
    -- the entries are read off from the item, where each field is found under its own name
    have hentries : List.Forall₂ (fun field entry => ∃ stored,
        entry = stored.map (fun stored => (field.1, stored)) ∧ frame.Encodes field stored) fields
        (fields.map fun field => (item.get? field.1).map fun stored => (field.1, stored)) := by
      rw [List.forall₂_map_right_iff, List.forall₂_same]
      exact fun field hfield => ⟨_, rfl, (hfields field hfield _).mp (hstores field.1)⟩
    have hpairs := (Value.encodeFields_eq_ok hkeys).mpr ⟨_, hentries, rfl⟩
    refine ⟨_, hpairs, Fields.ext (Fields.sorted_ofList _) hitem fun name => ?_⟩
    exact (storesAs_of_encodeFields hkeys hsorted hfields hpairs name).unique before
      (hstores name)
  · rintro ⟨pairs, hpairs, rfl⟩
    exact ⟨Fields.sorted_ofList _, storesAs_of_encodeFields hkeys hsorted hfields hpairs⟩

end NoAliases

/-! ## Values -/

mutual

/-- A value is written under the plain options as it is encoded, unless a document in it names an
attribute by its alias. -/
theorem Value.convertsTo_iff_encode_of_keys {start : Scope σ}
    (hschemas : ∀ scope schema, start.Reaches scope schema → schema.WellFormed) (before : σ) :
    ∀ (value : Value), value.WellFormed → (∀ key ∈ value.keys, ¬ start.IsAlias key) →
      ∀ {scope : Scope σ} {place : Place} {types : List (CandidateType σ)}
        {stored : Option WireValue}, start.Covers scope → start.MentionsTypes types →
        (value.ConvertsTo scope place types stored ↔ scope.encode place types value = .ok stored)
  | .undefined, _, _, scope, place, types, stored, _, _ => by
      have hnone : Value.undefined.ConvertsTo scope place types none :=
        fun _ _ => by simp [Value.writer]
      rw [Scope.encode, if_pos (by rfl), Except.ok.injEq]
      exact ⟨hnone.unique before, fun hsame => hsame ▸ hnone⟩
  | .list items, hformed, hkeys, scope, place, types, stored, hcovers, htypes => by
      -- both sides choose the same type, so only what is made of the items is compared
      rw [Value.convertsTo_list_iff before, Scope.encode_eq_ok rfl]
      refine exists_congr fun choice => and_congr_right fun hresolve => ?_
      cases harray : choice.type with
      | array elements =>
          have helements : start.MentionsTypes elements :=
            Scope.mentionsTypes_of_array (harray ▸ htypes _ (Scope.of_resolve hresolve).1)
          have hitems : ∀ storeds, Value.ItemsConvertTo items scope place elements 0 storeds ↔
              Value.encodeItems scope place elements 0 items = .ok storeds := fun _ =>
            Value.itemsConvertTo_iff_encode hschemas before items hformed hkeys hcovers helements
          rw [Scope.reading_of_array hresolve harray, Value.encodeAs]
          simp only [hitems, Except.bind_eq_ok, Except.pure_eq_ok]
          exact exists_congr fun storeds => ⟨fun ⟨hsame, hstoreds⟩ => ⟨hstoreds, hsame.symm⟩,
            fun ⟨hstoreds, hsame⟩ => ⟨hsame.symm, hstoreds⟩⟩
      | _ => rfl
  | .map fields, hformed, hkeys, scope, place, types, stored, hcovers, htypes => by
      rw [Value.convertsTo_map_iff before, Scope.encode_eq_ok rfl]
      refine exists_congr fun choice => and_congr_right fun hresolve => ?_
      have hreading := Scope.reading_of_document hresolve rfl
      cases henter : scope.enter? place choice.type with
      | none => rfl
      | some frame =>
          obtain ⟨hinner, scope', hreaches⟩ :=
            hcovers.enter? (htypes _ (Scope.of_resolve hresolve).1) henter
          have hplain : ∀ entry ∈ fields, ¬ frame.schema.IsAlias entry.1 :=
            fun entry hentry halias => hkeys entry.1 (Value.mem_fieldKeys hentry)
              ⟨scope', frame.schema, hreaches, halias⟩
          have hdocument : ∀ item, frame.ConvertsTo fields item ↔ ∃ pairs,
              Value.encodeFields frame fields = .ok pairs ∧ Fields.ofList pairs = item := fun _ =>
            Frame.convertsTo_iff_encodeFields before (hschemas _ _ hreaches) hplain hformed.1
              (fun entry hentry field hfield place stored =>
                Value.fields_convertTo_iff_encode hschemas before fields hformed.2 hkeys entry hentry
                  hinner (Scope.mentionsTypes_of_field ⟨_, hreaches⟩ hfield))
          rw [hreading, Value.encodeAs]
          simp only [Reading.enter?, henter, hdocument, Except.bind_eq_ok, Except.pure_eq_ok]
          constructor
          · rintro ⟨_, rfl, pairs, hpairs, rfl⟩
            exact ⟨pairs, hpairs, rfl⟩
          · rintro ⟨pairs, hpairs, rfl⟩
            exact ⟨_, rfl, pairs, hpairs, rfl⟩
  | .null, _, _, _, _, _, _, _, _ | .bool _, _, _, _, _, _, _, _, _
  | .number _, _, _, _, _, _, _, _, _ | .string _, _, _, _, _, _, _, _, _
  | .binary _, _, _, _, _, _, _, _, _ | .date _, _, _, _, _, _, _, _, _
  | .set _, _, _, _, _, _, _, _, _ => by
      rw [Value.convertsTo_leaf_iff before rfl (by simp) (by simp), Scope.encode_eq_ok rfl]

theorem Value.itemsConvertTo_iff_encode {start : Scope σ}
    (hschemas : ∀ scope schema, start.Reaches scope schema → schema.WellFormed) (before : σ) :
    ∀ (items : List Value), Value.AllWellFormed items →
      (∀ key ∈ Value.itemKeys items, ¬ start.IsAlias key) →
      ∀ {scope : Scope σ} {place : Place} {elements : List (CandidateType σ)} {index : Nat}
        {storeds : List WireValue}, start.Covers scope → start.MentionsTypes elements →
        (Value.ItemsConvertTo items scope place elements index storeds ↔
          Value.encodeItems scope place elements index items = .ok storeds)
  | [], _, _, scope, place, elements, index, storeds, _, _ => by
      simp only [Value.ItemsConvertTo, Value.writeItems, Value.encodeItems, yields_pure,
        Except.ok.injEq, and_true]
      exact ⟨fun hruns => hruns default before, fun hsame _ _ => hsame⟩
  | item :: rest, hformed, hkeys, scope, place, elements, index, storeds, hcovers, helements => by
      obtain ⟨hkey, hothers⟩ := List.forall_mem_append.mp hkeys
      have hitem : ∀ stored, item.ConvertsTo scope (place.item index) elements stored ↔
          scope.encode (place.item index) elements item = .ok stored := fun _ =>
        Value.convertsTo_iff_encode_of_keys hschemas before item hformed.1 hkey hcovers helements
      have hrest : ∀ others, Value.ItemsConvertTo rest scope place elements (index + 1) others ↔
          Value.encodeItems scope place elements (index + 1) rest = .ok others := fun _ =>
        Value.itemsConvertTo_iff_encode hschemas before rest hformed.2 hothers hcovers helements
      rw [Value.itemsConvertTo_cons_iff before, Value.encodeItems_cons]
      simp only [hitem, hrest, Except.bind_eq_ok, Except.pure_eq_ok]
      constructor
      · rintro ⟨stored, others, hstored, hothers, rfl⟩
        exact ⟨stored, hstored, others, hothers, rfl⟩
      · rintro ⟨stored, hstored, others, hothers, rfl⟩
        exact ⟨stored, others, hstored, hothers, rfl⟩

theorem Value.fields_convertTo_iff_encode {start : Scope σ}
    (hschemas : ∀ scope schema, start.Reaches scope schema → schema.WellFormed) (before : σ) :
    ∀ (fields : List (String × Value)), Value.FieldsWellFormed fields →
      (∀ key ∈ Value.fieldKeys fields, ¬ start.IsAlias key) →
      ∀ entry ∈ fields, ∀ {scope : Scope σ} {place : Place} {types : List (CandidateType σ)}
        {stored : Option WireValue}, start.Covers scope → start.MentionsTypes types →
        (entry.2.ConvertsTo scope place types stored ↔
          scope.encode place types entry.2 = .ok stored)
  | [], _, _, _, hentry => by simp at hentry
  | (key, value) :: rest, hformed, hkeys, entry, hentry => by
      obtain ⟨hkey, hothers⟩ := List.forall_mem_append.mp (List.forall_mem_cons.mp hkeys).2
      rcases List.mem_cons.mp hentry with rfl | hentry
      · exact Value.convertsTo_iff_encode_of_keys hschemas before value hformed.1 hkey
      · exact Value.fields_convertTo_iff_encode hschemas before rest hformed.2 hothers entry hentry

end

/-- Where there are no aliases this is so for every value. -/
theorem Value.convertsTo_iff_encode {start : Scope σ} (hunaliased : start.Unaliased) (before : σ)
    (value : Value) (hformed : value.WellFormed) {scope : Scope σ} {place : Place}
    {types : List (CandidateType σ)} {stored : Option WireValue} (hcovers : start.Covers scope)
    (htypes : start.MentionsTypes types) :
    value.ConvertsTo scope place types stored ↔ scope.encode place types value = .ok stored :=
  value.convertsTo_iff_encode_of_keys hunaliased.wellFormed before hformed
    (fun key _ => hunaliased.not_isAlias key) hcovers htypes

end ItemMapper
