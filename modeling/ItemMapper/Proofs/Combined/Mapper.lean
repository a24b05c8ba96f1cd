import ItemMapper.Mapper
import ItemMapper.Proofs.Combined.Documents

/-!
# Combined attributes of written items

`Mapper.writes_consistent`: whatever a document, a default or a modifier says of a combined attribute,
the item that is written has it exactly if it has one of the sources, as their joined texts, and so
have all documents inside.  Only a list that is the key of a referenced model is left to the codec,
which computes nothing and stores combined attributes as they are given.
-/

namespace ItemMapper

variable {σ : Type}

open Pipeline

/-- If combined attributes are computed, types are checked, and every schema that can be reached is
well formed, then the combined attributes of an item agree with the stored sources, as far as these
are texts, numbers or truth values.  So do those of all documents inside, but for documents in keys
of referenced models.  These are stored by the codec alone, and their attributes agree exactly if
the values that they are given do. -/
theorem Mapper.writes_consistent {mapper : Mapper σ} {writing : Writing}
    (hcombine : writing.options.combine = true) (hcheck : writing.options.typeCheck = true)
    (hschemas : ∀ scope schema, mapper.scope.Reaches scope schema → schema.WellFormed) :
    (∀ document before item after, Yields (mapper.write writing document) before item after →
      Frame.Throughout writing (fun frame _ _ item => frame.Consistent item) mapper.scope.frame
        document item) ∧
    ∀ (frame : Frame σ) fields entries, frame.schema.WellFormed →
      Value.encodeFields frame fields = .ok entries →
      ∀ field ∈ frame.schema.attributes, ∀ sources separator,
        field.combine? = some (sources, separator) →
        (∀ source ∈ sources, ∃ other ∈ frame.schema.attributes,
          other.name = source ∧ other.HasText) →
        (Item.Combines (Fields.ofList entries) field.name sources separator ↔
          Document.Combines (frame.schema.given? fields) field.name sources separator) := by
  constructor
  · intro document before item after hrun
    refine Frame.throughout_of_yields ⟨hschemas, ?_⟩ hrun
    exact fun frame fields settled item hschema hstores =>
      hstores.consistent hcombine hcheck hschema
  · intro frame fields entries hschema hencode field hfield sources separator hsome hsources
    exact Frame.combines_encodeFields_iff hschema hencode hfield hsome hsources

/-! ## Hampers -/

/-- A label shows its size and whether the piece is fragile. -/
def SchemaOf.label : Schema Unit where
  attributes := [.plain "size" [.primitive .number], .plain "fragile" [.primitive .boolean],
    .plain "mark" [.combine ["size", "fragile"] "/"]]
  keepUnknown := .disabled
  timestamps := none

/-- The key of a bundle lists the labels of its pieces. -/
def SchemaOf.bundle : Schema Unit where
  attributes := [.plain "pieces" [.array [.object .label]]]
  keepUnknown := .disabled
  timestamps := none

/-- A hamper has a label and holds a bundle. -/
def SchemaOf.hamper : Schema Unit where
  attributes := [.plain "id" [.primitive .string], .plain "label" [.object .label],
    .plain "bundle" [.model "Bundle"]]
  keepUnknown := .disabled
  timestamps := none

theorem SchemaOf.build_label : build label.attributes .disabled none = .ok label :=
  rfl

theorem SchemaOf.build_bundle : build bundle.attributes .disabled none = .ok bundle :=
  rfl

theorem SchemaOf.build_hamper : build hamper.attributes .disabled none = .ok hamper :=
  rfl

/-- The mapper for hampers, in a registry that knows bundles too. -/
def Mapper.hamper : Mapper Unit :=
  ⟨⟨[⟨"Bundle", .bundle, none⟩, ⟨"Hamper", .hamper, none⟩]⟩, ⟨"Hamper", .hamper, none⟩⟩

theorem Scope.closed_hamper : Mapper.hamper.scope.Closed
    (fun scope schema => scope.registry = Mapper.hamper.registry ∧
      (schema = .hamper ∨ schema = .bundle ∨ schema = .label))
    (fun scope type => scope.registry = Mapper.hamper.registry ∧
      (type = .object .label ∨ type = .model "Bundle" ∨ type = .array [.object .label] ∨
        type.HasText)) where
  root := ⟨rfl, .inl rfl⟩
  inside := by
    rintro scope _ inner schema ⟨hregistry, htype⟩ hopens
    cases hopens with
    | object =>
        rcases htype with heq | heq | heq | heq
        · cases heq
          exact ⟨hregistry, .inr (.inr rfl)⟩
        · cases heq
        · cases heq
        · cases heq
    | self =>
        rcases htype with heq | heq | heq | heq <;> cases heq
    | model hmodel =>
        rcases htype with heq | heq | heq | heq
        · cases heq
        · cases heq
          rw [hregistry] at hmodel
          obtain rfl := Option.some.inj hmodel
          exact ⟨hregistry, .inr (.inl rfl)⟩
        · cases heq
        · cases heq
  field := by
    rintro scope schema ⟨hregistry, rfl | rfl | rfl⟩ field hfield type htype
    · refine ⟨hregistry, ?_⟩
      simp only [SchemaOf.hamper, List.mem_cons, List.not_mem_nil, or_false] at hfield
      rcases hfield with rfl | rfl | rfl <;> obtain rfl := List.mem_singleton.mp htype
      · exact .inr (.inr (.inr .string))
      · exact .inl rfl
      · exact .inr (.inl rfl)
    · obtain rfl := List.mem_singleton.mp hfield
      obtain rfl := List.mem_singleton.mp htype
      exact ⟨hregistry, .inr (.inr (.inl rfl))⟩
    · refine ⟨hregistry, .inr (.inr (.inr ?_))⟩
      simp only [SchemaOf.label, List.mem_cons, List.not_mem_nil, or_false] at hfield
      rcases hfield with rfl | rfl | rfl <;> obtain rfl := List.mem_singleton.mp htype
      · exact .number
      · exact .boolean
      · exact .combine _ _
  element := by
    rintro scope elements ⟨hregistry, heq | heq | heq | heq⟩ type htype
    · cases heq
    · cases heq
    · cases heq
      exact ⟨hregistry, .inl (List.mem_singleton.mp htype)⟩
    · cases heq

theorem Scope.wellFormed_hamper {scope : Scope Unit} {schema : Schema Unit}
    (hreaches : Mapper.hamper.scope.Reaches scope schema) : schema.WellFormed := by
  obtain ⟨-, rfl | rfl | rfl⟩ := closed_hamper.of_reaches hreaches
  · exact SchemaOf.wellFormed_of_build SchemaOf.build_hamper
  · exact SchemaOf.wellFormed_of_build SchemaOf.build_bundle
  · exact SchemaOf.wellFormed_of_build SchemaOf.build_label

theorem SchemaOf.hasText_label {source : String} (hsource : source ∈ ["size", "fragile"]) :
    ∃ field ∈ label.attributes, field.name = source ∧ field.HasText := by
  simp only [List.mem_cons, List.not_mem_nil, or_false] at hsource
  rcases hsource with rfl | rfl
  · exact ⟨_, .head _, rfl, _, .number, rfl⟩
  · exact ⟨_, .tail _ (.head _), rfl, _, .boolean, rfl⟩

namespace Mapper

/-- A label in the key that stands for a bundle is stored without its mark. -/
theorem hamper_mark_is_not_combined :
    MarshalOptions.save.combine = true ∧ MarshalOptions.save.typeCheck = true ∧
    Yields (hamper.write ⟨.save, .epoch, 0⟩
        [("bundle", .list [.map [("size", .number (.ofInt 2))]]), ("id", .string "1")]) ()
      [("bundle", .list [.map [("size", .number "2")]]), ("id", .string "1")] () ∧
    ¬ Frame.Consistent ⟨hamper.scope, .root, .label⟩ [("size", .number "2")] := by
  refine ⟨rfl, rfl, yields_of_value? (by decide +kernel), fun hconsistent => ?_⟩
  have hcombines := hconsistent (.plain "mark" [.combine ["size", "fragile"] "/"])
    (.tail _ (.tail _ (.head _))) _ _ rfl fun _ => SchemaOf.hasText_label
  have hmark : (Fields.get? [("size", WireValue.number "2")] "mark").isSome = true :=
    hcombines.present.mpr ⟨"size", by decide, by decide⟩
  exact absurd hmark (by decide)

/-- A hamper is written with the marks of all its labels, whatever they are given.  The codec keeps
the mark that a label is given. -/
theorem writes_consistent_hamper :
    MarshalOptions.save.combine = true ∧ MarshalOptions.save.typeCheck = true ∧
    (∀ scope schema, hamper.scope.Reaches scope schema → schema.WellFormed) ∧
    Frame.Throughout ⟨.save, .epoch, 0⟩ (fun frame _ _ item => frame.Consistent item)
      hamper.scope.frame
      [("bundle", .map [("pieces", .list [.map [("size", .number (.ofInt 2))], .map []])]),
        ("id", .string "1"),
        ("label", .map [("fragile", .bool true), ("mark", .string "?"),
          ("size", .number (.ofInt 3))])]
      [("bundle", .map [("pieces", .list [.map [("mark", .string "2"), ("size", .number "2")],
          .map []])]),
        ("id", .string "1"),
        ("label", .map [("fragile", .boolean true), ("mark", .string "3/true"),
          ("size", .number "3")])] ∧
    Value.encodeFields ⟨hamper.scope, .root, .label⟩ [("mark", .string "?")] =
      .ok [("mark", .string "?")] ∧
    (Item.Combines (Fields.ofList [("mark", .string "?")]) "mark" ["size", "fragile"] "/" ↔
      Document.Combines (SchemaOf.label.given? [("mark", .string "?")]) "mark" ["size", "fragile"]
        "/") := by
  have hschemas : ∀ scope schema, hamper.scope.Reaches scope schema → schema.WellFormed :=
    fun _ _ => Scope.wellFormed_hamper
  have hrun : Yields (hamper.write ⟨.save, .epoch, 0⟩
      [("bundle", .map [("pieces", .list [.map [("size", .number (.ofInt 2))], .map []])]),
        ("id", .string "1"),
        ("label", .map [("fragile", .bool true), ("mark", .string "?"),
          ("size", .number (.ofInt 3))])]) ()
      [("bundle", .map [("pieces", .list [.map [("mark", .string "2"), ("size", .number "2")],
          .map []])]),
        ("id", .string "1"),
        ("label", .map [("fragile", .boolean true), ("mark", .string "3/true"),
          ("size", .number "3")])] () :=
    yields_of_value? (by decide +kernel)
  obtain ⟨hwritten, hencoded⟩ :=
    @writes_consistent Unit hamper ⟨.save, .epoch, 0⟩ rfl rfl hschemas
  have hkept : Value.encodeFields ⟨hamper.scope, .root, .label⟩ [("mark", .string "?")] =
      .ok [("mark", .string "?")] :=
    Except.toOption_eq_some.mp (by decide +kernel)
  refine ⟨rfl, rfl, hschemas, hwritten _ _ _ _ hrun, hkept, ?_⟩
  exact hencoded _ _ _ (SchemaOf.wellFormed_of_build SchemaOf.build_label) hkept
    (.plain "mark" [.combine ["size", "fragile"] "/"]) (.tail _ (.tail _ (.head _))) _ _ rfl
    fun _ => SchemaOf.hasText_label

end Mapper

end ItemMapper
