import ItemMapper.Mapper
import ItemMapper.Proofs.Required.Documents

/-!
# Required attributes of written items

A mapper that checks all required attributes refuses documents that lack one.  What it writes still
need not have them: `Mapper.write_complete` says that a required attribute is missing exactly if its
value stores nothing, in the outermost document and in all documents inside.  A list which is the key
of a referenced model is not looked into: the codec alone stores the documents in it, with the
attributes that they happen to give.
-/

namespace ItemMapper

variable {σ : Type}

open Pipeline

/-- If all required attributes are checked, a document that is written is settled with a defined
value for each of them.  The item has exactly those whose value stores something, and all documents
inside of it are complete in the same way, but for those in keys of referenced models.  These are
stored by the codec alone, which leaves out an attribute, required or not, exactly if the document
gives it nothing that is stored. -/
theorem Mapper.write_complete {mapper : Mapper σ} {writing : Writing} {document : Document}
    {before after : σ} {item : Item} (hrequired : writing.options.required = .all)
    (hschemas : ∀ scope schema, mapper.scope.Reaches scope schema → schema.WellFormed)
    (hrun : Yields (mapper.write writing document) before item after) :
    (∃ settled, mapper.scope.frame.Settles writing document settled ∧
      (∀ field ∈ mapper.model.schema.attributes, field.required = true →
        ∃ value, settled.get? field.name = some value ∧ value.isUndefined = false ∧
          ((item.get? field.name).isSome = true ↔
            ¬ value.StoresNothing writing.options.typeCheck mapper.scope (Place.root.child field.name)
              field.types)) ∧
      mapper.scope.frame.Complete writing settled item) ∧
    ∀ (frame : Frame σ) fields entries, frame.schema.WellFormed →
      Value.encodeFields frame fields = .ok entries → ∀ field ∈ frame.schema.attributes,
        (Fields.ofList entries).get? field.name = none ↔
          ∀ given ∈ fields, frame.schema.nativeAttribute? given.1 = some field →
            given.2.StoresNothing true frame.scope (frame.place.child given.1) field.types := by
  constructor
  · obtain ⟨settled, hsettles, hcomplete⟩ :=
      Frame.exists_complete_of_yields ⟨hrequired, hschemas⟩ hrun
    refine ⟨settled, hsettles, fun field hfield hmust => ?_, hcomplete⟩
    obtain ⟨hdefined, hmissing, -⟩ := hcomplete
    obtain ⟨value, hvalue, hgiven⟩ := hdefined field hfield hmust
    refine ⟨value, hvalue, hgiven, ?_⟩
    rw [Option.isSome_iff_ne_none]
    exact not_congr (hmissing field hfield value hvalue)
  · exact fun _ _ _ hschema hencode _ hfield =>
      Frame.get?_encodeFields_eq_none_iff hschema hencode hfield

/-! ## Crates -/

/-- A lid has a color. -/
def SchemaOf.lid : Schema Unit where
  attributes := [{ AttributeOf.plain "color" [.primitive .string] with required := true }]
  keepUnknown := .disabled
  timestamps := none

/-- A crate has marks, and may have a lid. -/
def SchemaOf.crate : Schema Unit where
  attributes := [.plain "id" [.primitive .string],
    { AttributeOf.plain "marks" [.set (.primitive .string)] with required := true },
    .plain "lid" [.object .lid]]
  keepUnknown := .disabled
  timestamps := none

theorem SchemaOf.build_lid : build lid.attributes .disabled none = .ok lid :=
  rfl

theorem SchemaOf.build_crate : build crate.attributes .disabled none = .ok crate :=
  rfl

/-- The mapper of the only model, which has the schema `SchemaOf.crate`. -/
def Mapper.crate : Mapper Unit :=
  ⟨⟨[⟨"Crate", .crate, none⟩]⟩, ⟨"Crate", .crate, none⟩⟩

theorem Scope.closed_crate : Mapper.crate.scope.Closed
    (fun scope schema => scope = Mapper.crate.scope ∧ (schema = .crate ∨ schema = .lid))
    (fun scope type => scope = Mapper.crate.scope ∧
      (type = .primitive .string ∨ type = .set (.primitive .string) ∨ type = .object .lid)) :=
  .of_noModel (by simp [Mapper.crate, Mapper.scope]) (by simp) (by simp)
    (by simp [SchemaOf.crate, SchemaOf.lid, AttributeOf.plain]) (by simp)

theorem Scope.wellFormed_crate {scope : Scope Unit} {schema : Schema Unit}
    (hreaches : Mapper.crate.scope.Reaches scope schema) : schema.WellFormed := by
  obtain ⟨-, rfl | rfl⟩ := closed_crate.of_reaches hreaches
  · exact SchemaOf.wellFormed_of_build SchemaOf.build_crate
  · exact SchemaOf.wellFormed_of_build SchemaOf.build_lid

namespace Mapper

/-- A crate without marks is refused, but one with an empty set of them is written without any. -/
theorem crate_is_written_without_marks :
    MarshalOptions.save.required = .all ∧
    (crate.write ⟨.save, .epoch, 0⟩ [("id", .string "1")]).value? = none ∧
    Yields (crate.write ⟨.save, .epoch, 0⟩ [("id", .string "1"), ("marks", .set [])]) ()
      [("id", .string "1")] () ∧
    ∃ field ∈ crate.model.schema.attributes, field.required = true ∧
      Fields.get? [("id", WireValue.string "1")] field.name = none :=
  ⟨rfl, by decide +kernel, yields_of_value? (by decide +kernel), _, .tail _ (.head _), rfl, rfl⟩

/-- A crate is written with its marks and a lid, and the codec takes a lid without a color. -/
theorem write_complete_crate :
    MarshalOptions.save.required = .all ∧
    (∀ scope schema, crate.scope.Reaches scope schema → schema.WellFormed) ∧
    (∃ settled, crate.scope.frame.Settles ⟨.save, .epoch, 0⟩
        [("id", .string "1"), ("lid", .map [("color", .string "red")]),
          ("marks", .set [.string "fragile"])] settled ∧
      (∀ field ∈ crate.model.schema.attributes, field.required = true →
        ∃ value, settled.get? field.name = some value ∧ value.isUndefined = false ∧
          ((Fields.get? [("id", WireValue.string "1"), ("lid", .map [("color", .string "red")]),
              ("marks", .stringSet ["fragile"])] field.name).isSome = true ↔
            ¬ value.StoresNothing true crate.scope (Place.root.child field.name) field.types)) ∧
      crate.scope.frame.Complete ⟨.save, .epoch, 0⟩ settled
        [("id", .string "1"), ("lid", .map [("color", .string "red")]),
          ("marks", .stringSet ["fragile"])]) ∧
    Value.encodeFields ⟨crate.scope, .root, .lid⟩ [] = .ok [] ∧
    ∀ field ∈ SchemaOf.lid.attributes,
      (Fields.ofList ([] : Item)).get? field.name = none := by
  have hschemas : ∀ scope schema, crate.scope.Reaches scope schema → schema.WellFormed :=
    fun _ _ => Scope.wellFormed_crate
  have hrun : Yields (crate.write ⟨.save, .epoch, 0⟩
      [("id", .string "1"), ("lid", .map [("color", .string "red")]),
        ("marks", .set [.string "fragile"])]) ()
      [("id", .string "1"), ("lid", .map [("color", .string "red")]),
        ("marks", .stringSet ["fragile"])] () :=
    yields_of_value? (by decide +kernel)
  obtain ⟨hwritten, hencoded⟩ := write_complete rfl hschemas hrun
  refine ⟨rfl, hschemas, hwritten, rfl, fun field hfield => ?_⟩
  exact (hencoded ⟨crate.scope, .root, .lid⟩ [] [] (SchemaOf.wellFormed_of_build SchemaOf.build_lid)
    rfl field hfield).mpr fun _ hgiven => (List.not_mem_nil hgiven).elim

end Mapper

/-! ## Kits -/

/-- The key of a part lists its pieces, each of which has a number. -/
def SchemaOf.part : Schema Unit where
  attributes := [.plain "pieces" [.array [.object {
    attributes := [{ AttributeOf.plain "number" [.primitive .number] with required := true }]
    keepUnknown := .disabled
    timestamps := none }]]]
  keepUnknown := .disabled
  timestamps := none

/-- A kit refers to a part. -/
def SchemaOf.kit : Schema Unit where
  attributes := [.plain "id" [.primitive .string], .plain "part" [.model "Part"]]
  keepUnknown := .disabled
  timestamps := none

/-- The mapper for kits, where both models are known. -/
def Mapper.kit : Mapper Unit :=
  ⟨⟨[⟨"Kit", .kit, none⟩, ⟨"Part", .part, none⟩]⟩, ⟨"Kit", .kit, none⟩⟩

/-- A piece without a number is refused in a part, but not in a key that stands for the part. -/
example :
    (Mapper.kit.write ⟨.save, .epoch, 0⟩ [("id", .string "1"),
      ("part", .map [("pieces", .list [.map []])])]).value? = none ∧
    (Mapper.kit.write ⟨.save, .epoch, 0⟩ [("id", .string "1"),
      ("part", .list [.map []])]).value? =
        some [("id", .string "1"), ("part", .list [.map []])] := by
  decide +kernel

end ItemMapper
