import ItemMapper.Proofs.Saving.Again

/-!
# Saving what was read

An item that a document was saved as, and that is then read, is saved again as it was exactly if it
is stable (`Mapper.saves_read_iff`): everywhere in it, what is not stored stays out once nothing is
given for it, and combined attributes are stored as the sources that are read make them.

Each of these can fail.  A combined attribute is refused when it is given without one of its
sources, though it has been joined from the others before.  An attribute that was given as
undefined has its default when it is not given at all.  A combined attribute is joined from a date
as it is given, of which fractions of a second may not be stored.
-/

namespace ItemMapper

variable {σ : Type}

open Pipeline

/-- What was saved and read is saved again as it was exactly if it is stable.  The state of the
application takes no part in this. -/
theorem Mapper.saves_read_iff {mapper : Mapper σ} (hmapper : mapper.scope.Declarative)
    {now instant : Instant} {depth : Nat} {document back : Document} {item : Item}
    {before after first last : σ}
    (hwrite : Yields (mapper.write ⟨.save, now, depth⟩ document) before item after)
    (hread : Yields (mapper.read .plain instant item) first (some back) last)
    (hmemory : (WireValue.map item).size ≤ 2 ^ 63) :
    (∀ state, Yields (mapper.write ⟨.save, now, depth⟩ back) state item state) ↔
      mapper.scope.frame.Stable ⟨.save, now, depth⟩ item := by
  have hreaches : mapper.scope.Reaches mapper.scope mapper.scope.frame.schema := .root
  have hgiven := (SchemaOf.savesAs_of_yields hmapper rfl hreaches hwrite).2
  have hreads : mapper.scope.frame.ReadsAs item back :=
    (Frame.readsAs_of_yields (Mapper.yields_read_plain.mp hread)).2
  rw [← Frame.savesAs_iff_stable hmapper rfl before hreaches hmemory hgiven hreads]
  constructor
  · exact fun hagain => (SchemaOf.savesAs_of_yields hmapper rfl hreaches (hagain before)).2
  · exact fun hsaves => hsaves.gives hmapper rfl hreaches before

/-! ## Badges -/

/-- A badge shows two names joined and a date, and says of what level it is.  The badges of members
are badges themselves. -/
def SchemaOf.badge : Schema Unit where
  attributes := [.plain "first" [.primitive .string], .plain "last" [.primitive .string],
    .plain "full" [.combine ["first", "last"] " "], .plain "since" [.date .seconds],
    .plain "label" [.combine ["since"] ","],
    { AttributeOf.plain "level" [.primitive .string] with
      defaultValue := some (.literal (.string "guest")) },
    .plain "members" [.array [.self]]]
  keepUnknown := .disabled
  timestamps := none

theorem SchemaOf.build_badge : build badge.attributes .disabled none = .ok badge :=
  rfl

/-- The mapper of the only model, which has the schema `SchemaOf.badge`. -/
def Mapper.badge : Mapper Unit :=
  ⟨⟨[⟨"Badge", .badge, none⟩]⟩, ⟨"Badge", .badge, none⟩⟩

/-- The types of a badge, and that of its members. -/
def CandidateType.ofBadge : List (CandidateType Unit) :=
  [.primitive .string, .combine ["first", "last"] " ", .date .seconds,
    .combine ["since"] ",", .array [.self], .self]

theorem Scope.closed_badge : Mapper.badge.scope.Closed
    (fun scope schema => scope = Mapper.badge.scope ∧ schema = .badge)
    (fun scope type => scope = Mapper.badge.scope ∧ type ∈ CandidateType.ofBadge) :=
  .of_noModel (by simp [Mapper.badge, Mapper.scope]) (by simp [CandidateType.ofBadge])
    (by simp [CandidateType.ofBadge]) (by simp [SchemaOf.badge, AttributeOf.plain, CandidateType.ofBadge])
    (by simp [CandidateType.ofBadge])

/-- Every attribute of a badge has one type, no other name, and a value as default if any. -/
theorem SchemaOf.literal_of_mem_badge {field : Attribute Unit} (hfield : field ∈ badge.attributes) :
    (∃ type, field.types = [type]) ∧ field.nativeAlias = none ∧ field.Literal := by
  have hplain : ∀ (name : String) (type : CandidateType Unit) (value : Option Value),
      AttributeOf.Literal { AttributeOf.plain name [type] with
        defaultValue := value.map .literal } := fun _ _ value =>
    ⟨rfl, rfl, rfl, fun default hdefault => by
      obtain ⟨given, -, rfl⟩ := Option.map_eq_some_iff.mp hdefault
      exact ⟨given, rfl⟩⟩
  simp only [badge, List.mem_cons, List.not_mem_nil, or_false] at hfield
  rcases hfield with rfl | rfl | rfl | rfl | rfl | rfl | rfl
  · exact ⟨⟨_, rfl⟩, rfl, hplain _ _ none⟩
  · exact ⟨⟨_, rfl⟩, rfl, hplain _ _ none⟩
  · exact ⟨⟨_, rfl⟩, rfl, hplain _ _ none⟩
  · exact ⟨⟨_, rfl⟩, rfl, hplain _ _ none⟩
  · exact ⟨⟨_, rfl⟩, rfl, hplain _ _ none⟩
  · exact ⟨⟨_, rfl⟩, rfl, hplain _ _ (some _)⟩
  · exact ⟨⟨_, rfl⟩, rfl, hplain _ _ none⟩

theorem Mapper.declarative_badge : badge.scope.Declarative where
  wellFormed := by
    intro scope schema hreaches
    obtain ⟨-, rfl⟩ := Scope.closed_badge.of_reaches hreaches
    exact SchemaOf.wellFormed_of_build SchemaOf.build_badge
  scalarSets := by
    intro scope element huses
    simpa [CandidateType.ofBadge] using (Scope.closed_badge.of_uses huses).2
  disabled := by
    intro scope schema hreaches
    obtain ⟨-, rfl⟩ := Scope.closed_badge.of_reaches hreaches
    rfl
  noAlias := by
    intro scope schema hreaches field hfield
    obtain ⟨-, rfl⟩ := Scope.closed_badge.of_reaches hreaches
    exact (SchemaOf.literal_of_mem_badge hfield).2.1
  oneType := by
    intro scope schema hreaches field hfield
    obtain ⟨-, rfl⟩ := Scope.closed_badge.of_reaches hreaches
    exact (SchemaOf.literal_of_mem_badge hfield).1
  elements := by
    intro scope elements huses
    obtain rfl : elements = [.self] := by
      simpa [CandidateType.ofBadge] using (Scope.closed_badge.of_uses huses).2
    exact Scope.toldApart_singleton (by simp)
  scalarKeys := by
    intro scope name huses
    simpa [CandidateType.ofBadge] using (Scope.closed_badge.of_uses huses).2
  literal := by
    intro scope schema hreaches field hfield
    obtain ⟨-, rfl⟩ := Scope.closed_badge.of_reaches hreaches
    exact (SchemaOf.literal_of_mem_badge hfield).2.2

/-- One second and a half after the epoch. -/
def Instant.secondAndHalf : Instant :=
  ⟨1, 500000000, by decide⟩

/-- A team is known by its days. -/
def SchemaOf.team : Schema Unit where
  attributes := [.plain "days" [.array [.date .seconds]]]
  keepUnknown := .disabled
  timestamps := none

/-- A roster has a log of dates and other texts, and a team. -/
def SchemaOf.roster : Schema Unit where
  attributes := [.plain "id" [.primitive .string],
    .plain "log" [.array [.date .iso, .primitive .string]],
    .plain "team" [.model "Team"]]
  keepUnknown := .disabled
  timestamps := none

def Mapper.roster : Mapper Unit :=
  ⟨⟨[⟨"Roster", .roster, none⟩, ⟨"Team", .team, none⟩]⟩, ⟨"Roster", .roster, none⟩⟩

/-- An item is read, and saved as another one. -/
theorem Mapper.exists_read_of_value? {mapper : Mapper Unit} {writing : Writing} {item other : Item}
    (hvalue : (mapper.read .plain .epoch item >>= fun back =>
      mapper.write writing (back.getD [])).value? = some other) :
    ∃ back, Yields (mapper.read .plain .epoch item) () (some back) () ∧
      Yields (mapper.write writing back) () other () := by
  obtain ⟨back, _, hread, hwrite⟩ := yields_bind.mp (yields_of_value? hvalue)
  cases back with
  | some back => exact ⟨back, hread, hwrite⟩
  | none =>
      -- nothing is hidden by reading plain
      have hexpiry : MarshalOptions.plain.checkExpiry = false := rfl
      obtain ⟨_, _, -, hsame⟩ := yields_bind.mp hread
      simp [hexpiry] at hsame

/-- A badge is not saved again as it was if a name is missing, if a level was ruled out, or if its
date has a fraction of a second.  Nor is a roster if a text in its log can be read as a date, or if
its team is given by its days. -/
theorem Mapper.badges_and_rosters_change :
    badge.scope.Declarative ∧
      (Yields (badge.write ⟨.save, .epoch, 0⟩ [("first", .string "Ada")]) ()
          [("first", .string "Ada"), ("full", .string "Ada"), ("level", .string "guest")] () ∧
        Yields (badge.read .plain .epoch
            [("first", .string "Ada"), ("full", .string "Ada"), ("level", .string "guest")]) ()
          (some [("first", .string "Ada"), ("full", .string "Ada"), ("level", .string "guest")]) () ∧
        ∀ item, ¬ Yields (badge.write ⟨.save, .epoch, 0⟩ [("first", .string "Ada"),
          ("full", .string "Ada"), ("level", .string "guest")]) () item ()) ∧
      (Yields (badge.write ⟨.save, .epoch, 0⟩ [("first", .string "Ada"), ("last", .string "King"),
            ("level", .undefined)]) ()
          [("first", .string "Ada"), ("full", .string "Ada King"), ("last", .string "King")] () ∧
        ∃ back, Yields (badge.read .plain .epoch
            [("first", .string "Ada"), ("full", .string "Ada King"), ("last", .string "King")]) ()
            (some back) () ∧
          Yields (badge.write ⟨.save, .epoch, 0⟩ back) ()
            [("first", .string "Ada"), ("full", .string "Ada King"), ("last", .string "King"),
              ("level", .string "guest")] ()) ∧
      (Yields (badge.write ⟨.save, .epoch, 0⟩ [("since", .date .secondAndHalf)]) ()
          [("label", .string "1500"), ("level", .string "guest"), ("since", .number "1")] () ∧
        ∃ back, Yields (badge.read .plain .epoch
            [("label", .string "1500"), ("level", .string "guest"), ("since", .number "1")]) ()
            (some back) () ∧
          Yields (badge.write ⟨.save, .epoch, 0⟩ back) ()
            [("label", .string "1000"), ("level", .string "guest"), ("since", .number "1")] ()) ∧
      (Yields (roster.write ⟨.save, .epoch, 0⟩
            [("log", .list [.string "1970-01-01T00:00:01Z"])]) ()
          [("log", .list [.string "1970-01-01T00:00:01Z"])] () ∧
        ∃ back, Yields (roster.read .plain .epoch
            [("log", .list [.string "1970-01-01T00:00:01Z"])]) () (some back) () ∧
          Yields (roster.write ⟨.save, .epoch, 0⟩ back) ()
            [("log", .list [.string "1970-01-01T00:00:01.000Z"])] ()) ∧
      Yields (roster.write ⟨.save, .epoch, 0⟩ [("team", .list [.date .secondAndHalf])]) ()
          [("team", .list [.number "1"])] () ∧
        ∃ back, Yields (roster.read .plain .epoch [("team", .list [.number "1"])]) () (some back) () ∧
          Yields (roster.write ⟨.save, .epoch, 0⟩ back) () [("team", .list [.number "0"])] () := by
  refine ⟨declarative_badge, ⟨yields_of_value? (by decide +kernel), yields_of_value? rfl,
    fun item hagain => ?_⟩, ⟨yields_of_value? (by decide +kernel), exists_read_of_value? ?_⟩,
    ⟨yields_of_value? (by decide +kernel), exists_read_of_value? ?_⟩,
    ⟨yields_of_value? (by decide +kernel), exists_read_of_value? ?_⟩,
    yields_of_value? (by decide +kernel), exists_read_of_value? ?_⟩
  · have hnone : (badge.write ⟨.save, .epoch, 0⟩ [("first", .string "Ada"), ("full", .string "Ada"),
        ("level", .string "guest")]).value?.isNone = true := by
      decide +kernel
    rw [hagain.value?_eq] at hnone
    cases hnone
  · decide +kernel
  · decide +kernel
  · decide +kernel
  · decide +kernel

/-- A badge with a member, and with a date in whole seconds. -/
def Document.badge : Document :=
  [("first", .string "Ada"), ("last", .string "King"),
    ("members", .list [.map [("first", .string "Bob"), ("last", .string "Ray")]]),
    ("since", .date ⟨1, 0, by decide⟩)]

def Item.badge : Item :=
  [("first", .string "Ada"), ("full", .string "Ada King"), ("label", .string "1000"),
    ("last", .string "King"), ("level", .string "guest"),
    ("members", .list [.map [("first", .string "Bob"), ("full", .string "Bob Ray"),
      ("last", .string "Ray"), ("level", .string "guest")]]), ("since", .number "1")]

/-- The badge is saved again as it was, its member included. -/
theorem Mapper.saves_read_iff_badge :
    Yields (badge.write ⟨.save, .epoch, 0⟩ .badge) () Item.badge () ∧
      ∃ back, Yields (badge.read .plain .epoch Item.badge) () (some back) () ∧
        ((∀ state, Yields (badge.write ⟨.save, .epoch, 0⟩ back) state Item.badge state) ↔
          badge.scope.frame.Stable ⟨.save, .epoch, 0⟩ Item.badge) ∧
        badge.scope.frame.Stable ⟨.save, .epoch, 0⟩ Item.badge := by
  have hwrite : Yields (badge.write ⟨.save, .epoch, 0⟩ .badge) () Item.badge () :=
    yields_of_value? (by decide +kernel)
  obtain ⟨back, hread, hagain⟩ : ∃ back, Yields (badge.read .plain .epoch Item.badge) ()
      (some back) () ∧ Yields (badge.write ⟨.save, .epoch, 0⟩ back) () Item.badge () :=
    exists_read_of_value? (by decide +kernel)
  have hiff := saves_read_iff declarative_badge hwrite hread (by decide)
  exact ⟨hwrite, back, hread, hiff, hiff.mp fun _ => hagain⟩

end ItemMapper
