import ItemMapper.Proofs.Marshal.MovedWriting
import ItemMapper.Proofs.Plain.Containers
import ItemMapper.Proofs.Plain.Operands
import ItemMapper.Proofs.Reference.Places
import ItemMapper.Proofs.Spelling.Documents

/-!
# Conditions on members

A condition that asks whether a stored container has a member does not know as which candidate the
container has been stored.  It encodes the member alone, at the path of the container, as one of the
member types of all candidates one after the other.

`Mapper.contains_finds_members` says when it asks for what is stored: exactly if the member is encoded
alike so.  This is the case if the member types of the chosen candidate outrank those of the others,
and if it makes no difference for the member that it is looked at where the container is.
-/

namespace ItemMapper

variable {σ : Type}

open Pipeline

/-! ## Containers at the top -/

theorem Value.wellFormed_of_mem_items {items : List Value} (hformed : AllWellFormed items)
    {item : Value} (hitem : item ∈ items) : item.WellFormed := by
  induction items with
  | nil => simp at hitem
  | cons first rest ih =>
      rcases List.mem_cons.mp hitem with rfl | hrest
      · exact hformed.1
      · exact ih hformed.2 hrest

/-- The place of an attribute of the outermost document. -/
def AttributeOf.place (field : Attribute σ) : Place :=
  Place.root.child field.name

/-- A document is saved as an item under the plain options, and both have a container at an attribute
without an alias. -/
structure Mapper.StoresContainer (mapper : Mapper σ) (document : Document) (item : Item)
    (field : Attribute σ) (container : Value) (stored : WireValue) : Prop where
  wellFormed : (Value.map document).WellFormed
  declared : field ∈ mapper.model.schema.attributes
  noAlias : field.nativeAlias = none
  containers : ∀ type ∈ field.types, type.isContainer = true
  saved : ∃ now depth before after,
    Yields (mapper.write ⟨.plain, now, depth⟩ document) before item after
  given : document.get? field.name = some container
  kept : item.get? field.name = some stored

/-- A member of a container is stored as this value, at its own place and as one of the member types
of the candidate that has been chosen for the container. -/
def Scope.StoresMember (scope : Scope σ) (place : Place) (type : CandidateType σ)
    (container member : Value) (inner : Place) (form : WireValue) : Prop :=
  Value.HasMember place type container member inner ∧
    member.ConvertsTo scope inner (CandidateType.memberTypes [type]) (some form)

/-- The value is encoded at one place as it is written at the other: no document in it names an
attribute by its alias, and no patterns of undeclared data tell the places apart. -/
structure Value.MovesBetween (value : Value) (scope : Scope σ) (near far : Place) : Prop where
  wellFormed : ∀ inner schema, scope.Reaches inner schema → schema.WellFormed
  noAlias : ∀ key ∈ value.keys, ¬ scope.IsAlias key
  portable : scope.Portable
  seesAlike : scope.SeesAlike near far

/-- A condition that the container at a path has a member asks for this operand. -/
def Mapper.AsksMember (mapper : Mapper σ) (path : String) (member : Value)
    (segments : List Segment) (operand : WireValue) : Prop :=
  ∃ condition, (Condition.empty.on path).compare .contains [member] = .ok condition ∧
    mapper.condition condition = .ok (.ofPieces (Test.pieces ⟨segments, .contains, [operand]⟩))

namespace Mapper

variable {mapper : Mapper σ} {document : Document} {item : Item} {field : Attribute σ}
  {container : Value} {stored : WireValue}

theorem asksMember_iff (hschema : mapper.model.schema.WellFormed)
    (hfield : field ∈ mapper.model.schema.attributes) {member : Value} {operand : WireValue} :
    mapper.AsksMember field.name member [.name field.name] operand ↔
      mapper.scope.encode field.place (CandidateType.memberTypes field.types) member =
        .ok (some operand) := by
  have hlookup : mapper.scope.lookup field.name = _ := Scope.lookup_name hschema hfield
  have hplace : Place.ofText field.name = field.place := by
    simp [Place.ofText, AttributeOf.place, Place.root, Place.child,
      Dotted.split_of_usable (hschema.usable field hfield)]
  have hcompare : (Condition.empty.on field.name).compare .contains [member] =
      .ok (.single field.name .contains member) := rfl
  rw [← hplace]
  simp only [AsksMember, hcompare, Except.ok.injEq, exists_eq_left']
  exact condition_single_iff hlookup rfl

theorem StoresContainer.convertsTo (hschema : mapper.model.schema.WellFormed)
    (hstores : mapper.StoresContainer document item field container stored) :
    container.ConvertsTo mapper.scope field.place field.types (some stored) := by
  obtain ⟨hformed, hfield, hnoAlias, -, ⟨now, depth, before, after, hitem⟩, hgiven, hkept⟩ := hstores
  have hnative : field.nativeName = field.name := by simp [AttributeOf.nativeName, hnoAlias]
  have hvalue : (mapper.model.schema.normalized document).get? field.name = some container := by
    have hunambiguous : field.Unambiguous document := by
      intro value other hvalue hother
      rw [hnative, hother] at hvalue
      exact (Option.some.inj hvalue).symm
    rw [← SchemaOf.get?_of_unambiguous hschema (hnative ▸ hschema.nativeAttribute?_name hfield)
      (Fields.nodup_of_sorted hformed.1) hunambiguous, hnative, hgiven, Option.some_or]
  have hstored := (storesAs_of_yields hschema hitem).2 field.name
  rw [hkept] at hstored
  exact (Frame.storesAs_declared hvalue (hschema.attribute?_name hfield)).mp hstored

/-- A member is encoded at the place of its container as it has been stored, as one of the member
types of the candidate that has been chosen. -/
theorem StoresContainer.encode_member (hschema : mapper.model.schema.WellFormed)
    (hsets : ∀ scope element, mapper.scope.Uses scope (.set element) → element.isSetElement = true)
    (hstores : mapper.StoresContainer document item field container stored) {choice : Choice σ}
    (hresolve : mapper.scope.resolve field.place field.types container = .ok choice)
    {member : Value} {inner : Place} {form : WireValue}
    (hmember : mapper.scope.StoresMember field.place choice.type container member inner form)
    (hmoves : (∃ element, choice.type = .set element) ∨ member.isLeaf = true ∨
      member.MovesBetween mapper.scope field.place inner) (before : σ) :
    mapper.scope.encode field.place (CandidateType.memberTypes [choice.type]) member =
      .ok (some form) := by
  have hconverts := hstores.convertsTo hschema
  obtain ⟨hmember, hform⟩ := hmember
  have hdefined := hform.defined before
  generalize htype : choice.type = type at hmember hform hmoves
  cases hmember with
  | @member element _ _ hmem =>
      have hleaf := Value.leaf_of_mem_set before hstores.containers hconverts hresolve htype
        member hmem
      exact (Value.convertsTo_iff_encode_leaf before hleaf hdefined).mp hform
  | @item elements items index _ hitem =>
      have huses : ∀ type ∈ CandidateType.memberTypes [.array elements],
          mapper.scope.Uses mapper.scope type := by
        intro type hmem
        have harray : mapper.scope.Uses mapper.scope (.array elements) :=
          .attribute .root hstores.declared (htype ▸ (Scope.of_resolve hresolve).1)
        exact .element harray (by simpa [CandidateType.memberTypes] using hmem)
      rcases hmoves with ⟨_, hset⟩ | hleaf | ⟨hschemas, hkeys, hportable, hsees⟩
      · cases hset
      · have hencode := (Value.convertsTo_iff_encode_leaf before hleaf hdefined).mp hform
        have hagree := Value.agree_encode_leaf hsets huses hleaf field.place (field.place.item index)
        exact hagree.eq_ok_iff.mpr hencode
      · have hitems : Value.AllWellFormed items :=
          Value.wellFormed_of_mem hstores.wellFormed.2 (Fields.mem_of_get? hstores.given)
        have hformed := Value.wellFormed_of_mem_items hitems (List.mem_of_getElem? hitem)
        have hcovers : mapper.scope.Covers mapper.scope :=
          ((Scope.closed_covers mapper.scope).of_reaches .root).2
        have hencode := (Value.convertsTo_iff_encode_of_keys hschemas before member hformed hkeys
          hcovers fun type htype => ⟨mapper.scope, huses type htype⟩).mp hform
        have hagree := Value.agree_encode_moved_of hportable.moves
          (Value.agree_encodeAs_moved hportable.moves member) hsees huses
        exact hagree.eq_ok_iff.mpr hencode

end Mapper

/-- The members of a stored container are what its members are stored as.  A condition asks for the
operand that a member is encoded as at the place of the container, as one of the member types of all
candidates, so it finds the member exactly if this is what is stored.  That is so if the member types
of the chosen candidate outrank those before and after it, for every member of a set, for the items of
a list that are no lists and no documents, and for the others if they can be moved to the place of the
list. -/
theorem Mapper.contains_finds_members {mapper : Mapper σ}
    (hschema : mapper.model.schema.WellFormed)
    (hsets : ∀ scope element, mapper.scope.Uses scope (.set element) → element.isSetElement = true)
    {document : Document} {item : Item} {field : Attribute σ} {container : Value}
    {stored : WireValue}
    (hstores : mapper.StoresContainer document item field container stored) :
    ∃ choice, mapper.scope.resolve field.place field.types container = .ok choice ∧
      (∀ form, form ∈ stored.contents ↔ ∃ member inner,
        mapper.scope.StoresMember field.place choice.type container member inner form) ∧
      ∀ member inner form,
        mapper.scope.StoresMember field.place choice.type container member inner form →
        (mapper.AsksMember field.name member [.name field.name] form ↔
          mapper.scope.encode field.place (CandidateType.memberTypes field.types) member =
            .ok (some form)) ∧
        ∀ earlier later, field.types = earlier ++ choice.type :: later →
          member.Outranks mapper.scope field.place (CandidateType.memberTypes [choice.type])
            (CandidateType.memberTypes earlier) (CandidateType.memberTypes later) →
          ((∃ element, choice.type = .set element) ∨ member.isLeaf = true ∨
            member.MovesBetween mapper.scope field.place inner) →
          mapper.AsksMember field.name member [.name field.name] form := by
  obtain ⟨-, -, before, -⟩ := hstores.saved
  have hconverts := hstores.convertsTo hschema
  obtain ⟨choice, hresolve, hcontents⟩ :=
    Value.exists_members before hstores.containers hconverts
  refine ⟨choice, hresolve, hcontents, fun member inner form hmember => ?_⟩
  have hasks := @asksMember_iff _ mapper field hschema hstores.declared member form
  refine ⟨hasks, fun earlier later htypes houtranks hmoves => hasks.mpr ?_⟩
  have hencode := hstores.encode_member hschema hsets hresolve hmember hmoves before
  have hflat : CandidateType.memberTypes field.types = CandidateType.memberTypes earlier ++
      (CandidateType.memberTypes [choice.type] ++ CandidateType.memberTypes later) := by
    simp [htypes, CandidateType.memberTypes]
  rw [hflat]
  exact houtranks.encode (hmember.2.defined before) hencode

/-! ## Logbooks -/

namespace AttributeOf

/-- The entries of a logbook are days only, or numbers and notes. -/
def entries : Attribute Unit :=
  .plain "entries" [.array [.date .seconds], .array [.primitive .number, .primitive .string]]

end AttributeOf

def SchemaOf.logbook : Schema Unit where
  attributes := [.plain "id" [.primitive .string], .entries]
  keepUnknown := .disabled
  timestamps := none

theorem SchemaOf.build_logbook : build logbook.attributes .disabled none = .ok logbook :=
  rfl

/-- The mapper of the only model, which has the schema `SchemaOf.logbook`. -/
def Mapper.logbook : Mapper Unit :=
  ⟨⟨[⟨"Logbook", .logbook, none⟩]⟩, ⟨"Logbook", .logbook, none⟩⟩

/-- The parts of a flatpack have a name, which is their title for the application. -/
def AttributeOf.parts : Attribute Unit :=
  .plain "parts" [.array [.object
    ⟨[{ AttributeOf.plain "name" [.primitive .string] with nativeAlias := some "title" }],
      .disabled, none⟩]]

/-- Of the first part of a flatpack a note is kept. -/
def SchemaOf.flatpack : Schema Unit where
  attributes := [.plain "id" [.primitive .string], .parts]
  keepUnknown := .matching ["parts.0.note"]
  timestamps := none

theorem SchemaOf.build_flatpack : build flatpack.attributes flatpack.keepUnknown none = .ok flatpack :=
  rfl

/-- The mapper of the only model, which has the schema `SchemaOf.flatpack`. -/
def Mapper.flatpack : Mapper Unit :=
  ⟨⟨[⟨"Flatpack", .flatpack, none⟩]⟩, ⟨"Flatpack", .flatpack, none⟩⟩

theorem Scope.closed_logbook : Mapper.logbook.scope.Closed
    (fun scope schema => scope = Mapper.logbook.scope ∧ schema = .logbook)
    (fun scope type => scope = Mapper.logbook.scope ∧
      type ∈ [.primitive .string, .primitive .number, .date .seconds, .array [.date .seconds],
        .array [.primitive .number, .primitive .string]]) :=
  .of_noModel (by simp [Mapper.logbook, Mapper.scope]) (by simp) (by simp)
    (by simp [SchemaOf.logbook, AttributeOf.plain, AttributeOf.entries]) (by simp)

/-- A logbook of a number and a note. -/
def Value.entries : Value :=
  .list [.number (.ofInt 1), .string "calm"]

def WireValue.entries : WireValue :=
  .list [.number "1", .string "calm"]

namespace Mapper

theorem storesContainer_logbook : logbook.StoresContainer [("entries", .entries)]
    [("entries", .entries)] .entries .entries .entries where
  wellFormed := by
    refine ⟨by decide, ⟨?_, trivial⟩⟩
    simp [Value.entries, Value.WellFormed, Value.AllWellFormed]
  declared := by simp [logbook, SchemaOf.logbook]
  noAlias := rfl
  containers := by simp [AttributeOf.entries, AttributeOf.plain, CandidateType.isContainer]
  saved := ⟨.epoch, 0, (), (), yields_of_value? (by decide +kernel)⟩
  given := rfl
  kept := rfl

/-- Entries with a note among them are numbers and notes. -/
theorem resolve_entries : ∃ choice,
    logbook.scope.resolve AttributeOf.entries.place AttributeOf.entries.types .entries = .ok choice ∧
      choice.type = .array [.primitive .number, .primitive .string] := by
  simp only [Scope.resolve_eq_ok_iff]
  have hlower : Value.entries.fit Score.rounded logbook.scope AttributeOf.entries.place
      (.array [.date .seconds]) < Value.entries.fit Score.rounded logbook.scope
        AttributeOf.entries.place (.array [.primitive .number, .primitive .string]) := by
    decide +kernel
  exact Scope.exists_choose?_iff.mpr
    ⟨(Score.best_nonneg _).trans_lt hlower, (Score.FirstHighest.of_head (by simp)).of_tail hlower⟩

/-- The number of a logbook is encoded as a day, and is not found.  Neither is the first part of a
flatpack if it has a note, which is kept at its own place only, or if its title is undefined, in spite
of which the name is encoded. -/
theorem contains_misses_members :
    (logbook.StoresContainer [("entries", .entries)] [("entries", .entries)] .entries .entries
        .entries ∧
      (∃ choice, logbook.scope.resolve AttributeOf.entries.place AttributeOf.entries.types
          .entries = .ok choice ∧
        logbook.scope.StoresMember AttributeOf.entries.place choice.type .entries
          (.number (.ofInt 1)) (AttributeOf.entries.place.item 0) (.number "1")) ∧
      logbook.AsksMember "entries" (.number (.ofInt 1)) [.name "entries"] (.number "0") ∧
      ¬ logbook.AsksMember "entries" (.number (.ofInt 1)) [.name "entries"] (.number "1")) ∧
    (Yields (flatpack.write ⟨.plain, .epoch, 0⟩
        [("parts", .list [.map [("name", .string "n"), ("note", .string "x")]])]) ()
        [("parts", .list [.map [("name", .string "n"), ("note", .string "x")]])] () ∧
      flatpack.AsksMember "parts" (.map [("name", .string "n"), ("note", .string "x")])
        [.name "parts"] (.map [("name", .string "n")])) ∧
    Yields (flatpack.write ⟨.plain, .epoch, 0⟩
        [("parts", .list [.map [("name", .string "n"), ("title", .undefined)]])]) ()
        [("parts", .list [.map []])] () ∧
      flatpack.AsksMember "parts" (.map [("name", .string "n"), ("title", .undefined)])
        [.name "parts"] (.map [("name", .string "n")]) := by
  have hasks : ∀ operand, logbook.AsksMember "entries" (.number (.ofInt 1)) [.name "entries"]
      operand ↔ _ := fun operand =>
    asksMember_iff (SchemaOf.wellFormed_of_build SchemaOf.build_logbook)
      storesContainer_logbook.declared
  have hencode : logbook.scope.encode AttributeOf.entries.place
      (CandidateType.memberTypes AttributeOf.entries.types) (.number (.ofInt 1)) =
        .ok (some (.number "0")) := Except.toOption_eq_some.mp (by decide +kernel)
  have hparts : ∀ member operand, flatpack.AsksMember "parts" member [.name "parts"] operand ↔ _ :=
    fun _ _ => @asksMember_iff Unit flatpack .parts
      (SchemaOf.wellFormed_of_build SchemaOf.build_flatpack)
      (List.mem_cons_of_mem _ (List.mem_singleton.mpr rfl)) _ _
  obtain ⟨choice, hresolve, htype⟩ := resolve_entries
  refine ⟨⟨storesContainer_logbook, ⟨choice, hresolve, ?_⟩, (hasks _).mpr hencode,
    fun hother => ?_⟩, ⟨yields_of_value? (by decide +kernel), (hparts _ _).mpr ?_⟩,
    yields_of_value? (by decide +kernel), (hparts _ _).mpr ?_⟩
  · rw [htype]
    refine ⟨.item rfl, (Value.convertsTo_iff_encode_leaf () rfl rfl).mpr ?_⟩
    exact Except.toOption_eq_some.mp (by decide +kernel)
  · have hsame := hencode.symm.trans ((hasks _).mp hother)
    simp at hsame
  · exact Except.toOption_eq_some.mp (by decide +kernel)
  · exact Except.toOption_eq_some.mp (by decide +kernel)

/-- The note is found: no day is a text. -/
theorem contains_finds_note :
    logbook.StoresContainer [("entries", .entries)] [("entries", .entries)] .entries .entries
      .entries ∧
    logbook.AsksMember "entries" (.string "calm") [.name "entries"] (.string "calm") := by
  have hsets : ∀ scope element, logbook.scope.Uses scope (.set element) →
      element.isSetElement = true := by
    intro scope element huses
    simpa using (Scope.closed_logbook.of_uses huses).2
  obtain ⟨choice, hresolve, -, hfinds⟩ := contains_finds_members
    (SchemaOf.wellFormed_of_build SchemaOf.build_logbook) hsets storesContainer_logbook
  obtain ⟨other, hother, htype⟩ := resolve_entries
  obtain rfl := Except.ok.inj (hother.symm.trans hresolve)
  have hstored : logbook.scope.StoresMember AttributeOf.entries.place other.type .entries
      (.string "calm") (AttributeOf.entries.place.item 1) (.string "calm") := by
    rw [htype]
    refine ⟨.item rfl, (Value.convertsTo_iff_encode_leaf () rfl rfl).mpr ?_⟩
    exact Except.toOption_eq_some.mp (by decide +kernel)
  refine ⟨storesContainer_logbook, (hfinds _ _ _ hstored).2 [.array [.date .seconds]] [] ?_ ?_
    (.inr (.inl rfl))⟩
  · rw [htype]
    rfl
  · rw [htype]
    refine ⟨?_, by simp [CandidateType.memberTypes]⟩
    simp only [CandidateType.memberTypes, List.flatMap_cons, List.flatMap_nil, List.append_nil,
      List.mem_singleton, forall_eq]
    exact ⟨.primitive .string, by simp, by decide +kernel⟩

end Mapper

end ItemMapper
