import ItemMapper.Proofs.Carried.Expressions
import ItemMapper.Proofs.Sets.Coding

/-!
# Every stored set is valid

A set on the wire must not be empty and must not list a member twice.  Native sets may do both, and
different members may be stored alike: dates lose what their storage does not tell, and zero has two
signs.  Still all sets that leave a mapper are valid, whether they are stored in an item or a key or
stand for operands of a condition or an update (`Mapper.stored_sets_valid`).  What a set of members
with a type lists is what the members are stored as, in the order in which this first occurs.
-/

namespace ItemMapper

variable {σ : Type}

open Pipeline WireValue

/-- Nothing is asked of the functions of the application. -/
theorem Scope.supplies_any (start : Scope σ) : start.Supplies fun _ => True :=
  fun _ _ _ _ => ⟨fun _ _ _ _ _ => trivial, fun _ _ _ _ _ => trivial⟩

namespace Mapper

/-- Whatever a mapper stores, the sets in it have members and none of them twice.  Those of members
with a type list them as they first occur. -/
theorem stored_sets_valid (mapper : Mapper σ) :
    (∀ writing document before item after,
      Yields (mapper.write writing document) before item after → FieldsSetsValid item) ∧
    (∀ document item, mapper.key document = .ok item → FieldsSetsValid item) ∧
    (∀ condition compiled, mapper.condition condition = .ok compiled →
      FieldsSetsValid compiled.values) ∧
    (∀ writing current changes before compiled after,
      Yields (mapper.update writing current changes) before compiled after →
        FieldsSetsValid compiled.values) ∧
    ∀ (reading : Reading σ) (element : CandidateType σ) (members : List Value) (stored : WireValue),
      reading.encodeSet element members = .ok (some stored) →
        ∃ kind, element.setElement? = some kind ∧ kind.Encodes members stored := by
  have hsupplies := mapper.scope.supplies_any
  refine ⟨fun writing document before item after hrun => ?_, fun document item hkey => ?_,
    fun condition compiled hcompiled => ?_,
    fun writing current changes before compiled after hrun => ?_,
    fun reading element members stored hencode => Reading.encodes_of_encodeSet hencode⟩ <;>
    rw [fieldsSetsValid_iff]
  · exact Frame.carries_write carries_setsValid hsupplies (fun _ _ => trivial) hrun
  · exact carries_key carries_setsValid (fun _ _ => trivial) hkey
  · exact Scope.carries_compileCondition carries_setsValid (fun _ _ _ _ => trivial) hcompiled
  · exact Scope.carries_compileUpdate carries_setsValid hsupplies (fun _ _ => trivial)
      (fun _ _ => trivial) hrun

end Mapper

/-! ## Shifts on some days -/

/-- Shifts with the days they take place on, which are stored to the second, and with undeclared
data. -/
def SchemaOf.shift : Schema Unit where
  attributes := [.plain "id" [.primitive .string], .plain "days" [.set (.date .seconds)],
    .plain "sizes" [.set (.primitive .number)]]
  keepUnknown := .everything
  timestamps := none

/-- The mapper of the only model, which has the schema `SchemaOf.shift`. -/
def Mapper.shifts : Mapper Unit :=
  ⟨⟨[⟨"Shift", .shift, none⟩]⟩, ⟨"Shift", .shift, none⟩⟩

/-- Two times within one second, and then the next second. -/
def Value.shiftDays : Value :=
  .set [.number (.ofInt 2100), .number (.ofInt 2900), .number (.ofInt 1000)]

/-- Zero with both signs. -/
def Value.shiftSizes : Value :=
  .set [.number (.zero false), .number (.zero true), .number (.ofInt 7)]

theorem Mapper.stored_sets_valid_shifts :
    FieldsSetsValid [("days", .numberSet ["2", "1"]), ("id", .string "s"),
      ("more", .map [("notes", .stringSet ["x", "y"])]), ("sizes", .numberSet ["0", "7"])] ∧
    FieldsSetsValid [("id", .string "s")] ∧
    FieldsSetsValid [(":v0", .numberSet ["2", "1"])] ∧
    FieldsSetsValid [(":v0", .numberSet ["0", "7"]), (":v1", .numberSet ["2", "1"])] ∧
    ∃ kind, (CandidateType.date (σ := Unit) .seconds).setElement? = some kind ∧
      kind.Encodes [.number (.ofInt 2100), .number (.ofInt 2900), .number (.ofInt 1000)]
        (.numberSet ["2", "1"]) :=
  ⟨(stored_sets_valid shifts).1 ⟨.save, .epoch, 0⟩
      [("days", .shiftDays), ("id", .string "s"),
        ("more", .map [("empty", .set []), ("notes", .set [.string "x", .string "y", .string "x"])]),
        ("sizes", .shiftSizes)] () _ () (yields_of_value? (by decide +kernel)),
    (stored_sets_valid shifts).2.1 [("id", .string "s")] _
      (Except.toOption_eq_some.mp (by decide +kernel)),
    (stored_sets_valid shifts).2.2.1
      ⟨⟨[.comparison ⟨"days", .equal, [.shiftDays]⟩], []⟩, none, false, none⟩
      ⟨"#a0 = :v0", [("#a0", "days")], [(":v0", .numberSet ["2", "1"])]⟩
      (Except.toOption_eq_some.mp (by decide +kernel)),
    (stored_sets_valid shifts).2.2.2.1 ⟨.update, .epoch, 0⟩ []
      [("$ADD", .map [("sizes", .shiftSizes)]), ("$DELETE", .map [("days", .shiftDays)])] ()
      ⟨"ADD #a0 :v0 DELETE #a1 :v1", [("#a0", "sizes"), ("#a1", "days")],
        [(":v0", .numberSet ["0", "7"]), (":v1", .numberSet ["2", "1"])]⟩ ()
      (yields_of_value? (by decide +kernel)),
    (stored_sets_valid shifts).2.2.2.2 ⟨shifts.scope, .root, .set (.date .seconds)⟩
      (.date .seconds) _ _ (Except.toOption_eq_some.mp (by decide +kernel))⟩

end ItemMapper
