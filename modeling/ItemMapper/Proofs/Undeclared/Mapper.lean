import ItemMapper.Proofs.Reading.Documents
import ItemMapper.Proofs.Undeclared.Leaves

/-!
# Exactly the allowed leaves are kept

`Mapper.keeps_allowed_leaves`: whatever the patterns of a schema are, writing with the plain options
stores of each undeclared field the leaves that the patterns allow, and reading with the plain
options gives back of each undeclared stored value the leaves that they allow.  The leaves keep their
keys and their order.

In a document that was read, an undeclared name may be the alias of an attribute as well.  What is
kept of the undeclared data then stands in front of the attribute, so the theorem tells both apart:
the attributes are what is read of the declared part of the item alone.
-/

namespace ItemMapper

variable {σ : Type}

open Pipeline

/-! ## Writing -/

namespace SchemaOf

variable {schema : Schema σ}

theorem attribute?_of_nativeAttribute?_none {key : String}
    (hkey : schema.nativeAttribute? key = none) : schema.attribute? key = none := by
  rw [nativeAttribute?, Option.or_eq_none_iff] at hkey
  exact hkey.2

/-- Only the field itself is stored under a name that is not declared. -/
theorem storedName_eq_iff {key : String} (hkey : schema.nativeAttribute? key = none)
    (name : String) : schema.storedName name = key ↔ name = key := by
  constructor
  · intro hname
    rw [storedName] at hname
    cases hfield : schema.nativeAttribute? name with
    | none => simpa [hfield] using hname
    | some field =>
        have hsame : field.name = key := by simpa [hfield] using hname
        have hnone := attribute?_of_nativeAttribute?_none hkey
        rw [attribute?, List.find?_eq_none] at hnone
        exact absurd hsame (by simpa using hnone field (mem_of_nativeAttribute? hfield))
  · rintro rfl
    rw [storedName, hkey]
    rfl

theorem get?_normalized_of_undeclared {document : Document} (hdocument : Fields.Sorted document)
    {key : String} (hkey : schema.nativeAttribute? key = none) :
    (schema.normalized document).get? key = document.get? key := by
  have hdistinct := Fields.nodup_of_sorted hdocument
  have hmem : ∀ {value}, (key, value) ∈ document.map (fun field =>
      (schema.storedName field.1, field.2)) ↔ (key, value) ∈ document := by
    intro value
    simp only [List.mem_map, Prod.mk.injEq, Prod.exists, storedName_eq_iff hkey]
    constructor
    · rintro ⟨_, _, hmem, rfl, rfl⟩
      exact hmem
    · exact fun hmem => ⟨key, value, hmem, rfl, rfl⟩
  rw [normalized]
  cases hget : document.get? key with
  | none =>
      rw [Option.eq_none_iff_forall_ne_some]
      intro value hvalue
      have hfound := hmem.mp (Fields.mem_of_get?_ofList hvalue)
      rw [(Fields.get?_eq_some_iff hdistinct).mpr hfound] at hget
      contradiction
  | some value =>
      refine Fields.get?_ofList_of_mem (hmem.mpr (Fields.mem_of_get? hget)) fun other hother => ?_
      have hfound := (Fields.get?_eq_some_iff hdistinct).mpr (hmem.mp hother)
      exact Option.some.inj (hfound.symm.trans hget)

end SchemaOf

namespace Frame

variable {frame : Frame σ} {item : Item} {key : String} {before after : σ}

/-- What is stored under an undeclared name. -/
theorem get?_of_yields_write (hschema : frame.schema.WellFormed) {now : Instant} {depth : Nat}
    {document : Document} (hdocument : Fields.Sorted document)
    (hrun : Yields (frame.write ⟨.plain, now, depth⟩ document) before item after)
    (hkey : frame.schema.nativeAttribute? key = none) :
    item.get? key = (document.get? key).bind (Value.keep? frame.scope (frame.place.child key)) := by
  have hconverts := (convertsTo_of_yields
    ⟨Value.madeDraft ⟨.plain, now, depth⟩ depth, now, depth⟩ hrun).2
  have hstores := ((convertsTo_iff hschema before).mp hconverts).2 key
  have hnone := SchemaOf.attribute?_of_nativeAttribute?_none hkey
  have hget := SchemaOf.get?_normalized_of_undeclared hdocument hkey
  cases hgiven : document.get? key with
  | none => exact (storesAs_absent (hget.trans hgiven)).mp hstores
  | some value => exact ((storesAs_undeclared (hget.trans hgiven) hnone).mp hstores).symm

/-! ## Reading -/

/-- The declared part of an item. -/
def declaredPart (frame : Frame σ) (item : Item) : Item :=
  item.filter fun field => (frame.schema.attribute? field.1).isSome

theorem get?_declaredPart {field : Attribute σ} (hfield : field ∈ frame.schema.attributes) :
    (frame.declaredPart item).get? field.name = item.get? field.name := by
  have hdeclared : (frame.schema.attribute? field.name).isSome = true := by
    rw [SchemaOf.attribute?, List.find?_isSome]
    exact ⟨field, hfield, by simp⟩
  induction item with
  | nil => rfl
  | cons entry rest ih =>
      rw [declaredPart] at ih ⊢
      rw [List.filter_cons, Fields.get?_cons]
      split
      · rw [Fields.get?_cons, ih]
      · next hundeclared =>
          have hne : field.name ≠ entry.1 := fun heq => hundeclared (heq ▸ hdeclared)
          rw [ih, if_neg hne]

theorem shown_declaredPart : frame.shown (frame.declaredPart item) = [] := by
  have hnone : (frame.declaredPart item).filter
      (fun field => (frame.schema.attribute? field.1).isNone) = [] := by
    rw [declaredPart, List.filter_filter, List.filter_eq_nil_iff]
    intro field _ hboth
    rw [Bool.and_eq_true, Option.isNone_iff_eq_none] at hboth
    rw [hboth.1] at hboth
    exact absurd hboth.2 (by simp)
  rw [shown, hnone, List.filterMap_nil]

/-- The attributes are read of the declared part. -/
theorem mapM_readField_declaredPart (frame : Frame σ) (options : MarshalOptions) (item : Item) :
    frame.schema.attributes.mapM (frame.readField options (frame.declaredPart item)) =
      frame.schema.attributes.mapM (frame.readField options item) := by
  refine mapM_congr fun field hfield => ?_
  unfold readField
  rw [get?_declaredPart hfield]

/-- What is shown under an undeclared name. -/
theorem get?_ofList_shown (hitem : Fields.Sorted item)
    (hkey : frame.schema.attribute? key = none) :
    (Fields.ofList (frame.shown item)).get? key =
      (item.get? key).bind (WireValue.keep? frame.scope (frame.place.child key)) := by
  have hdistinct := Fields.nodup_of_sorted hitem
  ext value
  rw [Fields.get?_ofList_eq_some_iff (nodup_shown hitem), mem_shown, Option.bind_eq_some_iff]
  simp only [hkey, true_and, Fields.get?_eq_some_iff hdistinct]

/-- Reading puts what is kept of the undeclared data in front of what is read of the declared
part. -/
theorem exists_read_declaredPart {options : MarshalOptions} {document : Document}
    (hrun : Yields (frame.read options item) before document after) :
    ∃ declared, Yields (frame.read options (frame.declaredPart item)) before declared after ∧
      ∀ key, document.get? key =
        ((Fields.ofList (frame.shown item)).get? key).or (declared.get? key) := by
  rw [read_eq, yields_bind] at hrun
  obtain ⟨loaded, _, hloaded, hdocument⟩ := hrun
  obtain ⟨rfl, rfl⟩ := yields_pure.mp hdocument
  refine ⟨Fields.ofList (entries frame.schema.attributes loaded), ?_, fun key => ?_⟩
  · rw [read_eq, mapM_readField_declaredPart, shown_declaredPart]
    refine hloaded.bind (yields_pure.mpr ⟨?_, rfl⟩)
    rw [List.append_nil]
  · rw [Fields.get?_ofList_append]

end Frame

/-! ## The mapper -/

/-- The path of a field of the outermost document. -/
theorem Segment.starts_name {key : String} (hkey : key ≠ "") : Starts [.name key] := by
  simpa [Starts, text] using hkey

theorem Mapper.exists_of_yields_read_plain {mapper : Mapper σ} {now : Instant} {item : Item}
    {result : Option Document} {before after : σ}
    (hrun : Yields (mapper.read .plain now item) before result after) :
    ∃ document, result = some document := by
  have hexpiry : MarshalOptions.plain.checkExpiry = false := rfl
  obtain ⟨document, _, -, hresult⟩ := yields_bind.mp hrun
  simp only [hexpiry, Bool.false_and, Bool.false_eq_true, if_false] at hresult
  exact ⟨document, (yields_pure.mp hresult).1.symm⟩

/-- A parcel has an address, and keeps of other data whatever is noted and the names in its list. -/
def SchemaOf.parcel : Schema Unit where
  attributes := [.plain "to" [.primitive .string]]
  keepUnknown := .matching ["note.**", "list.*.name"]
  timestamps := none

def Mapper.parcel : Mapper Unit :=
  ⟨⟨[⟨"Parcel", .parcel, none⟩]⟩, ⟨"Parcel", .parcel, none⟩⟩

/-- A parcel with a list of which some leaves are kept. -/
def Document.parcel : Document :=
  [("list", .list [.string "first", .map [("name", .string "pen"), ("spare", .bool true)],
      .map [("name", .string "ink")]]),
    ("note", .map [("by", .list [.undefined, .null])]), ("to", .string "Ada")]

def Item.parcel : Item :=
  [("list", .list [.map [("name", .string "pen")], .map [("name", .string "ink")]]),
    ("note", .map [("by", .list [.null true])]), ("to", .string "Ada")]

/-- Of the list the two names are allowed, at the second and third position. -/
example : SchemaOf.parcel.keepUnknown.storedLeaves
    ((Fields.get? Document.parcel "list").elim [] (Value.leaves [.name "list"])) =
      [([some "list", none, some "name"], some (.string "pen")),
        ([some "list", none, some "name"], some (.string "ink"))] := by
  decide +kernel

end ItemMapper
