import ItemMapper.Proofs.Lasting.Values
import ItemMapper.Proofs.Plain.Agreement
import ItemMapper.Proofs.Undeclared.Mapper
import ItemMapper.Proofs.Undeclared.Remains

/-!
# Undeclared data that comes back

Where a schema keeps everything, each undeclared field of a document is stored in its natural form
and read by itself.  `Mapper.returns_undeclared_iff` says when what is read of it is what should
remain: exactly if all sets in it are of one kind.  A set whose members are of different kinds is
left out as a whole, and in a set of dates a number that lies between two milliseconds is rounded.

Undeclared data never makes reading fail.  That is up to the declared part of the item.
-/

namespace ItemMapper

variable {σ : Type}

open Pipeline

/-! ## Everything is kept -/

mutual

/-- Where every path is kept, a stored value is shown by itself. -/
theorem WireValue.keep?_eq_natural {scope : Scope σ}
    (hfull : ∀ place, scope.unknownMatch place = .full) : ∀ (stored : WireValue) (place : Place),
    stored.keep? scope place = some stored.natural
  | .map fields, place => by
      have hfields := WireValue.keepFields_eq_naturalFields hfull fields place
      simp [WireValue.keep?, hfull, WireValue.natural, hfields]
  | .list items, place => by
      have hitems := WireValue.keepItems_eq_naturalItems hfull items place 0
      simp [WireValue.keep?, hfull, WireValue.natural, hitems]
  | .string _, _ | .number _, _ | .binary _, _ | .stringSet _, _ | .numberSet _, _
  | .binarySet _, _ | .boolean _, _ | .null _, _ => by simp [WireValue.keep?, hfull]

theorem WireValue.keepItems_eq_naturalItems {scope : Scope σ}
    (hfull : ∀ place, scope.unknownMatch place = .full) :
    ∀ (items : List WireValue) (place : Place) (index : Nat),
      WireValue.keepItems scope place index items = WireValue.naturalItems items
  | [], _, _ => rfl
  | item :: rest, place, index => by
      have hitem := WireValue.keep?_eq_natural hfull item (place.item index)
      have hrest := WireValue.keepItems_eq_naturalItems hfull rest place (index + 1)
      simp only [WireValue.keepItems, WireValue.naturalItems, hitem, hrest]

theorem WireValue.keepFields_eq_naturalFields {scope : Scope σ}
    (hfull : ∀ place, scope.unknownMatch place = .full) :
    ∀ (fields : List (String × WireValue)) (place : Place),
      WireValue.keepFields scope place fields = WireValue.naturalFields fields
  | [], _ => rfl
  | (key, stored) :: rest, place => by
      have hvalue := WireValue.keep?_eq_natural hfull stored (place.child key)
      have hrest := WireValue.keepFields_eq_naturalFields hfull rest place
      simp only [WireValue.keepFields, WireValue.naturalFields, hvalue, hrest]

end

theorem Scope.unknownMatch_of_everything {scope : Scope σ}
    (hkeeps : scope.root.keepUnknown = .everything) (place : Place) :
    scope.unknownMatch place = .full := by
  rw [unknownMatch, hkeeps]
  rfl

/-! ## Documents -/

namespace Frame

variable {frame : Frame σ} {item : Item} {key : String} {before after : σ}

/-- Reading an item can only fail in its declared part. -/
theorem exists_read_of_declaredPart {options : MarshalOptions} {declared : Document}
    (hrun : Yields (frame.read options (frame.declaredPart item)) before declared after) :
    ∃ document, Yields (frame.read options item) before document after := by
  rw [read_eq, yields_bind] at hrun
  obtain ⟨loaded, _, hloaded, hdocument⟩ := hrun
  obtain ⟨rfl, rfl⟩ := yields_pure.mp hdocument
  rw [mapM_readField_declaredPart] at hloaded
  refine ⟨Fields.ofList (entries frame.schema.attributes loaded ++ frame.shown item), ?_⟩
  rw [read_eq]
  exact hloaded.bind yields_pure_self

/-- What is read of the declared part stands under native names. -/
theorem get?_declared_of_undeclared {declared : Document}
    (hrun : Yields (frame.read .plain (frame.declaredPart item)) before declared after)
    (hkey : frame.schema.nativeAttribute? key = none) : declared.get? key = none := by
  obtain ⟨-, hreads⟩ := readsAs_of_yields hrun
  rw [Option.eq_none_iff_forall_ne_some]
  intro value hvalue
  rcases hreads.cases_get? before hvalue with ⟨field, hfield, hname, -⟩ | hshown
  · obtain ⟨other, hother⟩ := SchemaOf.exists_nativeAttribute?_nativeName hfield
    rw [hname, hkey] at hother
    cases hother
  · rw [shown_declaredPart] at hshown
    cases hshown

/-- Where everything is kept, an undeclared field is read of its natural form. -/
theorem get?_of_write_read (hschema : frame.schema.WellFormed)
    (hkeeps : frame.scope.root.keepUnknown = .everything) {now : Instant} {depth : Nat}
    {document back : Document} {first last : σ} (hdocument : Fields.Sorted document)
    (hwrite : Yields (frame.write ⟨.plain, now, depth⟩ document) before item after)
    (hread : Yields (frame.read .plain item) first back last)
    (hkey : frame.schema.nativeAttribute? key = none) :
    back.get? key = ((document.get? key).bind Value.natural?).map WireValue.natural := by
  have hfull := Scope.unknownMatch_of_everything hkeeps
  have hconverts := (convertsTo_of_yields
    ⟨Value.madeDraft ⟨.plain, now, depth⟩ depth, now, depth⟩ hwrite).2
  have hitem : Fields.Sorted item := ((convertsTo_iff hschema before).mp hconverts).1
  obtain ⟨declared, hdeclared, hboth⟩ := exists_read_declaredPart hread
  rw [hboth, get?_declared_of_undeclared hdeclared hkey, Option.or_none,
    get?_ofList_shown hitem (SchemaOf.attribute?_of_nativeAttribute?_none hkey),
    get?_of_yields_write hschema hdocument hwrite hkey]
  cases document.get? key with
  | none => rfl
  | some value =>
      rw [Option.bind_some, Option.bind_some, Value.keep?_eq_natural? hfull]
      cases value.natural? with
      | none => rfl
      | some stored => exact WireValue.keep?_eq_natural hfull stored _

end Frame

/-! ## The mapper -/

namespace Mapper

/-- Where a schema keeps everything, a document that was written and read again has under each
undeclared key what should remain of the value given there, exactly if every set in that value is of
one kind.  Reading fails only where the declared part of the item can not be read. -/
theorem returns_undeclared_iff (mapper : Mapper σ) (hschema : mapper.model.schema.WellFormed)
    (hkeeps : mapper.model.schema.keepUnknown = .everything) {now : Instant} {depth : Nat}
    {document : Document} {item : Item} {before after : σ} (hdocument : Fields.Sorted document)
    (hwrite : Yields (mapper.write ⟨.plain, now, depth⟩ document) before item after)
    (later : Instant) (first : σ) :
    ((∃ result last, Yields (mapper.read .plain later item) first result last) ↔
      ∃ result last, Yields (mapper.read .plain later (mapper.scope.frame.declaredPart item)) first
        result last) ∧
    ∀ result last, Yields (mapper.read .plain later item) first result last →
      ∃ back, result = some back ∧ ∀ key, mapper.model.schema.nativeAttribute? key = none →
        (document.get? key = none → back.get? key = none) ∧
        ∀ value, document.get? key = some value → value.Numeric →
          (Option.Rel (fun back kept => back.equal kept = true) (back.get? key) value.remains ↔
            value.SetsAlike) := by
  refine ⟨⟨?_, ?_⟩, ?_⟩
  · rintro ⟨result, last, hread⟩
    obtain ⟨back, rfl⟩ := exists_of_yields_read_plain hread
    obtain ⟨declared, hdeclared, -⟩ := Frame.exists_read_declaredPart (yields_read_plain.mp hread)
    exact ⟨some declared, last, yields_read_plain.mpr hdeclared⟩
  · rintro ⟨result, last, hread⟩
    obtain ⟨declared, rfl⟩ := exists_of_yields_read_plain hread
    obtain ⟨back, hback⟩ := Frame.exists_read_of_declaredPart (yields_read_plain.mp hread)
    exact ⟨some back, last, yields_read_plain.mpr hback⟩
  · intro result last hread
    obtain ⟨back, rfl⟩ := exists_of_yields_read_plain hread
    refine ⟨back, rfl, fun key hkey => ?_⟩
    have hget := Frame.get?_of_write_read hschema hkeeps hdocument hwrite
      (yields_read_plain.mp hread) hkey
    refine ⟨fun hnone => ?_, fun value hvalue hnumeric => ?_⟩
    · rw [hget, hnone]
      rfl
    · rw [hget, hvalue, Option.bind_some]
      exact Value.returns_iff_alike value hnumeric

end Mapper

/-! ### A tour -/

/-- A tour has a guide, and keeps whatever else is said of it. -/
def SchemaOf.tour : Schema Unit where
  attributes := [.plain "guide" [.primitive .string]]
  keepUnknown := .everything
  timestamps := none

def Mapper.tour : Mapper Unit :=
  ⟨⟨[⟨"Tour", .tour, none⟩]⟩, ⟨"Tour", .tour, none⟩⟩

/-- A tour that takes place in the first and the fifth millisecond. -/
def Document.tour (days : List Value) : Document :=
  [("days", .list [.set days, .set [], .undefined]), ("guide", .string "Ada")]

def Value.firstDay : Value := .number (.ofInt 1)

def Value.fifthDay : Value := .date ⟨0, 5000000, by decide⟩

namespace Mapper

/-- With a date first, the days are returned as numbers. -/
theorem returns_undeclared_tour :
    SchemaOf.tour.WellFormed ∧ SchemaOf.tour.keepUnknown = .everything ∧
      Fields.Sorted (Document.tour [.fifthDay, .firstDay]) ∧
      Yields (tour.write ⟨.plain, .epoch, 0⟩ (.tour [.fifthDay, .firstDay])) ()
        [("days", .list [.numberSet ["5", "1"]]), ("guide", .string "Ada")] () ∧
      ∃ back, Yields (tour.read .plain .epoch
          [("days", .list [.numberSet ["5", "1"]]), ("guide", .string "Ada")]) () (some back) () ∧
        Option.Rel (fun back kept => back.equal kept = true) (back.get? "days")
          (Value.list [.set [.fifthDay, .firstDay], .set [], .undefined]).remains := by
  have hschema : SchemaOf.tour.WellFormed :=
    SchemaOf.wellFormed_of_build (show SchemaOf.build SchemaOf.tour.attributes
      SchemaOf.tour.keepUnknown none = .ok .tour from rfl)
  have hdocument : Fields.Sorted (Document.tour [.fifthDay, .firstDay]) := by decide
  have hwrite : Yields (tour.write ⟨.plain, .epoch, 0⟩ (.tour [.fifthDay, .firstDay])) ()
      [("days", .list [.numberSet ["5", "1"]]), ("guide", .string "Ada")] () :=
    yields_of_value? (by decide +kernel)
  have hread : Yields (tour.read .plain .epoch
      [("days", .list [.numberSet ["5", "1"]]), ("guide", .string "Ada")]) () (some _) () :=
    yields_of_value? rfl
  obtain ⟨back, hback, hreturns⟩ :=
    (returns_undeclared_iff tour hschema rfl hdocument hwrite .epoch ()).2 _ _ hread
  have hnumeric : (Value.list [.set [.fifthDay, .firstDay], .set [], .undefined]).Numeric := by
    have hfirst : Binary64.ofInt 1 ≠ .nan := by decide +kernel
    exact ⟨⟨trivial, hfirst, trivial⟩, trivial, trivial, trivial⟩
  have halike : (Value.list [.set [.fifthDay, .firstDay], .set [], .undefined]).SetsAlike := by
    refine ⟨fun first hfirst => ?_, by simp [Value.SetsAlike], trivial, trivial⟩
    obtain rfl : Value.fifthDay = first := by simpa using hfirst
    have hnumber : (Binary64.ofInt 1).equal (.ofInt 1) = true := by decide +kernel
    rw [List.forall_mem_cons, List.forall_mem_singleton]
    exact ⟨.inl ⟨_, rfl⟩, .inr ⟨_, 1, rfl, hnumber, rfl⟩⟩
  exact ⟨hschema, rfl, hdocument, hwrite, back, hback ▸ hread,
    ((hreturns "days" rfl).2 _ rfl hnumeric).mpr halike⟩

/-- With the number first, no day is kept at all. -/
theorem tour_loses_days :
    Yields (tour.write ⟨.plain, .epoch, 0⟩ (.tour [.firstDay, .fifthDay])) ()
      [("days", .list []), ("guide", .string "Ada")] () ∧
    Yields (tour.read .plain .epoch [("days", .list []), ("guide", .string "Ada")]) ()
      (some [("days", .list []), ("guide", .string "Ada")]) () ∧
    (Value.list [.set [.firstDay, .fifthDay], .set [], .undefined]).remains =
      some (.list [.set [.firstDay, .number (.ofInt 5)]]) := by
  refine ⟨yields_of_value? (by decide +kernel), yields_of_value? rfl, ?_⟩
  have hdistinct : (Value.number (.ofInt 5) == .number (.ofInt 1)) = false := by decide +kernel
  simp [Value.remains, Value.remainingItems, Value.firstDay, Value.fifthDay, Instant.millis,
    List.eraseDups_cons, hdistinct]

end Mapper

end ItemMapper
