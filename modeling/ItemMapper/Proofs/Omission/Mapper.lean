import ItemMapper.Proofs.Omission.Writing
import ItemMapper.Proofs.Unchecked.Mapper

/-!
# Undefined means left out

`Mapper.omits_undefined_iff`: what is undefined in a document is left out when the document is
written.  If schemas keep all undeclared data or none, constants are scalars, and each attribute is
given once, then a document is written as it would be without its undefined fields and without the
undefined items of its lists, provided that no list of a declared attribute has an undefined item.

An undefined item of such a list is left out as well, but counts as zero when the type of the list
is chosen.  It can change the choice, and it can leave a list without any type.  Where types are
told apart nothing else can happen: without its undefined parts the document is stored as it is with
them, and it is stored although the document is refused exactly if some declared value of the
document has no type, or if a list with undefined items is to be a set.
-/

namespace ItemMapper

variable {σ : Type}

open Pipeline

namespace Mapper

theorem yields_write_plain_iff {mapper : Mapper σ} {now : Instant} {depth : Nat}
    {document : Document} {before after : σ} {item : Item} :
    Yields (mapper.write ⟨.plain, now, depth⟩ document) before item after ↔
      before = after ∧ mapper.scope.frame.ConvertsTo document item := by
  constructor
  · exact Frame.convertsTo_of_yields (.outermost now depth)
  · rintro ⟨rfl, hconverts⟩
    exact hconverts (.outermost now depth) before

/-- A document is written as without its undefined parts if no list of a declared attribute has an
undefined item.  Where types are told apart, the document without its undefined parts is stored
whenever the document is, as the same item, and both are written alike unless the document has no
types throughout. -/
theorem omits_undefined_iff {mapper : Mapper σ} (hstart : mapper.scope.AllOrNothing)
    {document : Document} (honce : (Value.map document).GivesOnce mapper.scope) (now : Instant)
    (depth : Nat) :
    ((∀ entry ∈ document, ∀ field, mapper.model.schema.nativeAttribute? entry.1 = some field →
        entry.2.ListsDefined) →
      Agree Eq (mapper.write ⟨.plain, now, depth⟩ document)
        (mapper.write ⟨.plain, now, depth⟩ (Value.strippedFields document))) ∧
    (mapper.scope.Discerning →
      (∀ before item after,
        Yields (mapper.write ⟨.plain, now, depth⟩ document) before item after →
          Yields (mapper.write ⟨.plain, now, depth⟩ (Value.strippedFields document)) before item
            after) ∧
      (Agree Eq (mapper.write ⟨.plain, now, depth⟩ document)
          (mapper.write ⟨.plain, now, depth⟩ (Value.strippedFields document)) ↔
        ∀ before item after,
          Yields (mapper.write ⟨.plain, now, depth⟩ (Value.strippedFields document)) before item
              after → Value.FieldsTyped document mapper.scope mapper.model.schema)) := by
  -- attributes that keep their types are written alike
  have hruns : Value.FieldsKeepTypes mapper.scope document mapper.scope mapper.model.schema →
      ∀ before item after, Yields (mapper.write ⟨.plain, now, depth⟩ document) before item after ↔
        Yields (mapper.write ⟨.plain, now, depth⟩ (Value.strippedFields document)) before item
          after := by
    intro hkeeps before item after
    rw [yields_write_plain_iff, yields_write_plain_iff]
    exact and_congr_right fun _ => Frame.convertsTo_stripped_iff hstart .root honce before hkeeps
      .root .root item
  constructor
  · exact fun hdefined => .of_yields_iff (hruns fun entry hentry field hfield =>
      .inl (hdefined entry hentry field hfield))
  · intro hdiscerning
    have hkeeps : Value.FieldsTyped document mapper.scope mapper.model.schema →
        Value.FieldsKeepTypes mapper.scope document mapper.scope mapper.model.schema :=
      fun htyped entry hentry field hfield => .inr ⟨hdiscerning,
        hdiscerning.attributes _ _ .root field (SchemaOf.mem_of_nativeAttribute? hfield),
        Value.fieldsTyped_iff.mp htyped entry hentry field hfield⟩
    have htypes : ∀ before item after,
        Yields (mapper.write ⟨.plain, now, depth⟩ document) before item after →
          Value.FieldsTyped document mapper.scope mapper.model.schema :=
      fun before _ _ hrun => Frame.typed_of_convertsTo hstart .root honce before
        (yields_write_plain_iff.mp hrun).2
    refine ⟨fun before item after hrun => ?_, fun hagree before item after hrun => ?_,
      fun htyped => .of_yields_iff fun before item after => ⟨fun hrun => ?_, fun hrun => ?_⟩⟩
    · exact (hruns (hkeeps (htypes _ _ _ hrun)) before item after).mp hrun
    · exact htypes _ _ _ (hagree.yields_iff.mpr hrun)
    · exact (hruns (hkeeps (htypes _ _ _ hrun)) before item after).mp hrun
    · exact (hruns (hkeeps (htyped _ _ _ hrun)) before item after).mpr hrun

end Mapper

/-! ### Hikes -/

/-- A hike has a name and leads by some stops. -/
def SchemaOf.hike : Schema Unit where
  attributes := [.plain "name" [.primitive .string], .plain "stops" [.array [.primitive .string]]]
  keepUnknown := .disabled
  timestamps := none

def Mapper.hike : Mapper Unit :=
  ⟨⟨[⟨"Hike", .hike, none⟩]⟩, ⟨"Hike", .hike, none⟩⟩

/-- A hike without a name. -/
def Document.hike (stops : List Value) : Document :=
  [("name", .undefined), ("stops", .list stops)]

theorem Scope.closed_hike : Mapper.hike.scope.Closed
    (fun scope schema => scope = Mapper.hike.scope ∧ schema = .hike)
    (fun scope type => scope = Mapper.hike.scope ∧
      type ∈ [.primitive .string, .array [.primitive .string]]) :=
  .of_noModel (by simp [Mapper.hike, Mapper.scope]) (by simp) (by simp)
    (by simp [SchemaOf.hike, AttributeOf.plain]) (by simp)

theorem Scope.allOrNothing_hike : Mapper.hike.scope.AllOrNothing where
  wellFormed := by
    intro scope schema hreaches
    obtain ⟨-, rfl⟩ := closed_hike.of_reaches hreaches
    exact SchemaOf.wellFormed_of_build (show SchemaOf.build SchemaOf.hike.attributes
      SchemaOf.hike.keepUnknown none = .ok .hike from rfl)
  keepUnknown := by
    intro scope schema hreaches
    obtain ⟨rfl, -⟩ := closed_hike.of_reaches hreaches
    exact .inl rfl
  scalarSets := by
    intro scope element huses
    simpa using (closed_hike.of_uses huses).2
  scalarConstants := by
    rintro scope type huses value rfl
    simpa using (closed_hike.of_uses huses).2

theorem Scope.discerning_hike : Mapper.hike.scope.Discerning where
  wellFormed := allOrNothing_hike.wellFormed
  attributes := by
    intro scope schema hreaches field hfield
    obtain ⟨rfl, rfl⟩ := closed_hike.of_reaches hreaches
    simp only [SchemaOf.hike, List.mem_cons, List.not_mem_nil, or_false] at hfield
    rcases hfield with rfl | rfl <;> exact toldApart_singleton (by simp)
  elements := by
    intro scope elements huses
    obtain rfl : elements = [.primitive .string] := by
      simpa using (closed_hike.of_uses huses).2
    exact toldApart_singleton (by simp)

theorem Document.givesOnce_hike {stops : List Value}
    (hstops : Value.ItemsGiveOnce Mapper.hike.scope stops) :
    (Value.map (Document.hike stops)).GivesOnce Mapper.hike.scope := by
  refine ⟨fun scope schema hreaches => ?_, trivial, hstops, trivial⟩
  obtain ⟨-, rfl⟩ := Scope.closed_hike.of_reaches hreaches
  change ["name", "stops"].Nodup
  decide

namespace Mapper

/-- A hike by a hut and an undefined stop is stored as the hike by the hut alone. -/
theorem hike_omits_undefined :
    hike.scope.AllOrNothing ∧
    (Value.map (Document.hike [.string "hut"])).GivesOnce hike.scope ∧
    (Value.map (Document.hike [.string "hut", .undefined])).GivesOnce hike.scope ∧
    hike.scope.Discerning ∧
    Agree Eq (hike.write ⟨.plain, .epoch, 0⟩ (.hike [.string "hut"]))
      (hike.write ⟨.plain, .epoch, 0⟩ [("stops", .list [.string "hut"])]) ∧
    Yields (hike.write ⟨.plain, .epoch, 0⟩ (.hike [.string "hut", .undefined])) ()
      [("stops", .list [.string "hut"])] () ∧
    Yields (hike.write ⟨.plain, .epoch, 0⟩ [("stops", .list [.string "hut"])]) ()
      [("stops", .list [.string "hut"])] () ∧
    Value.FieldsTyped (Document.hike [.string "hut", .undefined]) hike.scope .hike := by
  have hhut : (Value.map (Document.hike [.string "hut"])).GivesOnce hike.scope :=
    Document.givesOnce_hike ⟨trivial, trivial⟩
  have hboth : (Value.map (Document.hike [.string "hut", .undefined])).GivesOnce hike.scope :=
    Document.givesOnce_hike ⟨trivial, trivial, trivial⟩
  have hwrite : Yields (hike.write ⟨.plain, .epoch, 0⟩ (.hike [.string "hut", .undefined])) ()
      [("stops", .list [.string "hut"])] () := yields_of_value? (by decide +kernel)
  have hdefined : ∀ entry ∈ Document.hike [.string "hut"], ∀ field,
      SchemaOf.hike.nativeAttribute? entry.1 = some field → entry.2.ListsDefined := by
    simp [Document.hike, Value.ListsDefined, Value.ItemsDefined, Value.isUndefined]
  obtain ⟨hstored, hagree⟩ := (omits_undefined_iff Scope.allOrNothing_hike hboth .epoch 0).2
    Scope.discerning_hike
  have hstripped := hstored () _ () hwrite
  refine ⟨Scope.allOrNothing_hike, hhut, hboth, Scope.discerning_hike, ?_, hwrite, hstripped, ?_⟩
  · exact (omits_undefined_iff Scope.allOrNothing_hike hhut .epoch 0).1 hdefined
  · refine hagree.mp (.of_yields_iff fun before item after => ?_) () _ () hstripped
    refine ⟨hstored before item after, fun hrun => ?_⟩
    obtain rfl : [("stops", .list [.string "hut"])] = item := by
      simpa using hstripped.symm.trans hrun
    exact hwrite

/-- A hike by an undefined stop alone is refused, although it would be stored without that stop. -/
theorem hike_refuses_undefined :
    SchemaOf.hike.keepUnknown = .disabled ∧
    Value.strippedFields (Document.hike [.undefined]) = [("stops", .list [])] ∧
    (∃ cause, Fails (hike.write ⟨.plain, .epoch, 0⟩ (.hike [.undefined])) () cause) ∧
    Yields (hike.write ⟨.plain, .epoch, 0⟩ [("stops", .list [])]) () [("stops", .list [])] () := by
  refine ⟨rfl, rfl, exists_fails_of_none ?_, yields_of_value? ?_⟩
  · decide +kernel
  · decide +kernel

end Mapper

end ItemMapper
