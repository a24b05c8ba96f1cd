import ItemMapper.Proofs.Lasting.Documents

/-!
# Items that are saved again as they were

An item that was written plain is read plain as a document that is written as the same item, if
everything in it lasts, and only then (`Mapper.saves_again_iff`).  Types are told apart here; a
value that fits several candidate types may be stored as one of them and be read as another.

What does not last is found in few places: a date whose year takes a sign or a fifth digit as text,
which the reader does not take; an attribute with a native name that another one has as well; and
undeclared data that patterns keep in part.
-/

namespace ItemMapper

variable {σ : Type}

open Pipeline

/-- An item that a document was written as, plain, is saved again as it was exactly if all of its
fields last.  The state of the application takes no part in this, nor do the times. -/
theorem Mapper.saves_again_iff {mapper : Mapper σ} (hmapper : mapper.scope.Repeatable)
    {now : Instant} {depth : Nat} {document : Document} {item : Item} {before after : σ}
    (hwrite : Yields (mapper.write ⟨.plain, now, depth⟩ document) before item after)
    (hmemory : (WireValue.map item).size ≤ 2 ^ 63) :
    (∃ back, (∀ now state, Yields (mapper.read .plain now item) state (some back) state) ∧
        ∀ now depth state, Yields (mapper.write ⟨.plain, now, depth⟩ back) state item state) ↔
      WireValue.FieldsLast mapper.scope.frame item := by
  have hschema : mapper.scope.frame.schema.WellFormed := hmapper.wellFormed _ _ .root
  have hconverts : mapper.scope.frame.ConvertsTo document item :=
    (Frame.convertsTo_of_yields ⟨_, now, depth⟩ hwrite).2
  constructor
  · rintro ⟨back, hread, hagain⟩
    have hreads : mapper.scope.frame.ReadsAs item back :=
      (Frame.readsAs_of_yields (Mapper.yields_read_plain.mp (hread now before))).2
    have hwritten : mapper.scope.frame.ConvertsTo back item :=
      (Frame.convertsTo_of_yields ⟨_, now, depth⟩ (hagain now depth before)).2
    exact WireValue.fieldsLast_of_reads hmapper.toDiscerning before item .root
      (Frame.fields_of_convertsTo hschema before hreads hwritten)
  · intro hlasts
    have hsorted := ((Frame.convertsTo_iff hschema before).mp hconverts).1
    rw [WireValue.size] at hmemory
    have horigin := hconverts.exists_origin before hschema
    obtain ⟨given, hgiven⟩ := WireValue.exists_fieldsReturn hmapper before
      (Scope.explains_convertsTo hmapper before) item (by omega) .root
      (fun entry hentry => (horigin entry hentry).1)
      (fun entry hentry => (horigin entry hentry).2) hlasts
    refine ⟨Fields.ofList given, fun now state => ?_, fun now depth state => ?_⟩
    · exact Mapper.yields_read_plain.mpr
        (Frame.readsAs_of_fields hschema hsorted hgiven before state)
    · exact Frame.convertsTo_of_fields hschema hsorted hgiven before ⟨_, now, depth⟩ state

/-! ## Visits with notes -/

/-- A visit at some time has a text or a list of numbers as notes.  Undeclared data is kept. -/
def SchemaOf.visit : Schema Unit where
  attributes := [.plain "id" [.primitive .string], .plain "at" [.date .iso],
    { AttributeOf.plain "n" [.primitive .string, .array [.primitive .number]] with
      nativeAlias := some "notes" }]
  keepUnknown := .everything
  timestamps := none

theorem SchemaOf.build_visit : build visit.attributes .everything none = .ok visit :=
  rfl

/-- The mapper of the only model, which has the schema `SchemaOf.visit`. -/
def Mapper.visit : Mapper Unit :=
  ⟨⟨[⟨"Visit", .visit, none⟩]⟩, ⟨"Visit", .visit, none⟩⟩

theorem Scope.closed_visit : Mapper.visit.scope.Closed
    (fun scope schema => scope = Mapper.visit.scope ∧ schema = .visit)
    (fun scope type => scope = Mapper.visit.scope ∧ type ∈ [.primitive .string, .date .iso,
      .array [.primitive .number], .primitive .number]) :=
  .of_noModel (by simp [Mapper.visit, Mapper.scope]) (by simp) (by simp)
    (by simp [SchemaOf.visit, AttributeOf.plain]) (by simp)

/-- A text is told from a list of numbers. -/
theorem Scope.toldApart_notes (scope : Scope Unit) :
    scope.ToldApart [.primitive .string, .array [.primitive .number]] := by
  intro place isDocument
  have hchoices : scope.choices place [.primitive .string, .array [.primitive .number]] isDocument =
      [⟨.primitive .string, ⟨scope, place, .primitive .string⟩⟩,
        ⟨.array [.primitive .number], ⟨scope, place, .array [.primitive .number]⟩⟩] := by
    simp [choices, readings_of_ne_model]
  simp only [hchoices, List.pairwise_cons, List.mem_singleton, forall_eq]
  refine ⟨⟨?_, ?_⟩, by simp⟩
  · simp [CandidateType.takes, Primitive.typeName]
  · simp [CandidateType.holds]

theorem Mapper.repeatable_visit : visit.scope.Repeatable where
  wellFormed := by
    intro scope schema hreaches
    obtain ⟨-, rfl⟩ := Scope.closed_visit.of_reaches hreaches
    exact SchemaOf.wellFormed_of_build SchemaOf.build_visit
  attributes := by
    intro scope schema hreaches field hfield
    obtain ⟨-, rfl⟩ := Scope.closed_visit.of_reaches hreaches
    simp only [SchemaOf.visit, List.mem_cons, List.not_mem_nil, or_false] at hfield
    rcases hfield with rfl | rfl | rfl
    · exact Scope.toldApart_singleton (by simp)
    · exact Scope.toldApart_singleton (by simp)
    · exact Scope.toldApart_notes scope
  elements := by
    intro scope elements huses
    obtain rfl : elements = [.primitive .number] := by
      simpa using (Scope.closed_visit.of_uses huses).2
    exact Scope.toldApart_singleton (by simp)
  scalarKeys := by
    intro scope name huses
    simpa using (Scope.closed_visit.of_uses huses).2
  spelling := by
    refine .inr fun scope schema hreaches near far => ?_
    obtain ⟨rfl, -⟩ := Scope.closed_visit.of_reaches hreaches
    rfl

/-- The beginning of the year 10000. -/
def Instant.tenThousand : Instant :=
  ⟨253402300800, 0, by decide⟩

/-- A visit in the year 10000 is saved, but can not be read. -/
theorem Mapper.visit_is_not_read :
    Yields (visit.write ⟨.plain, .epoch, 0⟩ [("at", .date .tenThousand), ("id", .string "1")]) ()
        [("at", .string "+10000-01-01T00:00:00.000Z"), ("id", .string "1")] () ∧
      ∀ back, ¬ Yields (visit.read .plain .epoch
        [("at", .string "+10000-01-01T00:00:00.000Z"), ("id", .string "1")]) () (some back) () := by
  refine ⟨yields_of_value? (by decide +kernel), fun back hread => ?_⟩
  have hnone : (visit.read .plain .epoch [("at", .string "+10000-01-01T00:00:00.000Z"),
      ("id", .string "1")]).value?.isNone = true := by
    decide +kernel
  rw [hread.value?_eq] at hnone
  cases hnone

/-- A visit one second earlier, with notes and data that is not declared. -/
def Document.visit : Document :=
  [("at", .date ⟨253402300799, 0, by decide⟩), ("id", .string "1"),
    ("notes", .list [.number (.ofInt 1)]), ("x", .map [("y", .list [.bool true])])]

def Item.visit : Item :=
  [("at", .string "9999-12-31T23:59:59.000Z"), ("id", .string "1"), ("n", .list [.number "1"]),
    ("x", .map [("y", .list [.boolean true])])]

theorem Mapper.saves_again_iff_visit :
    Yields (visit.write ⟨.plain, .epoch, 0⟩ .visit) () Item.visit () ∧
      ((∃ back, (∀ now state, Yields (visit.read .plain now Item.visit) state (some back) state) ∧
          ∀ now depth state,
            Yields (visit.write ⟨.plain, now, depth⟩ back) state Item.visit state) ↔
        WireValue.FieldsLast visit.scope.frame Item.visit) := by
  have hwrite : Yields (visit.write ⟨.plain, .epoch, 0⟩ .visit) () Item.visit () :=
    yields_of_value? (by decide +kernel)
  exact ⟨hwrite, saves_again_iff repeatable_visit hwrite (by decide)⟩

end ItemMapper
