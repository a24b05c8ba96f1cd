import ItemMapper.Proofs.Carried.Coding

/-!
# Encoded sets are valid

A set on the wire has members and none of them twice.  `WireValue.SetsValid` says so of all sets at
any depth of a stored value.  A set of values that has no members to list has no stored form at all,
so whatever values are stored, all sets are valid (`carries_setsValid`).
-/

namespace ItemMapper

namespace WireValue

mutual

/-- Every set at any depth has members, and each of them once. -/
def SetsValid : WireValue → Prop
  | .stringSet texts | .numberSet texts => texts ≠ [] ∧ texts.Nodup
  | .binarySet contents => contents ≠ [] ∧ contents.Nodup
  | .list items => AllSetsValid items
  | .map fields => FieldsSetsValid fields
  | _ => True

def AllSetsValid : List WireValue → Prop
  | [] => True
  | item :: rest => SetsValid item ∧ AllSetsValid rest

def FieldsSetsValid : List (String × WireValue) → Prop
  | [] => True
  | (_, value) :: rest => SetsValid value ∧ FieldsSetsValid rest

end

theorem allSetsValid_iff {items : List WireValue} :
    AllSetsValid items ↔ ∀ item ∈ items, item.SetsValid := by
  induction items with
  | nil => simp [AllSetsValid]
  | cons item rest ih => rw [AllSetsValid, ih, List.forall_mem_cons]

theorem fieldsSetsValid_iff {fields : List (String × WireValue)} :
    FieldsSetsValid fields ↔ ∀ field ∈ fields, field.2.SetsValid := by
  induction fields with
  | nil => simp [FieldsSetsValid]
  | cons field rest ih => rw [FieldsSetsValid, ih, List.forall_mem_cons]

theorem setsValid_ofDate (instant : Instant) (storage : DateStorage) :
    (ofDate instant storage).SetsValid := by
  cases storage <;> trivial

end WireValue

open WireValue

theorem SetElement.Encodes.setsValid {element : SetElement} {values : List Value}
    {stored : WireValue} (hencodes : element.Encodes values stored) : stored.SetsValid := by
  obtain ⟨listed, encodings, hlisted, hencodings, honce⟩ := hencodes.members
  have hne : listed ≠ [] := by
    rintro rfl
    have hnil : encodings = [] := List.eq_nil_iff_forall_not_mem.mpr fun item hitem =>
      List.not_mem_nil ((honce.mem_iff item).mpr hitem)
    subst hnil
    exact hencodes.nonempty (List.forall₂_nil_right_iff.mp hencodings)
  cases stored with
  | stringSet texts | numberSet texts =>
      obtain rfl := Option.some.inj hlisted
      exact ⟨fun hnil => hne (hnil ▸ rfl), honce.distinct.of_map _⟩
  | binarySet contents =>
      obtain rfl := Option.some.inj hlisted
      exact ⟨fun hnil => hne (hnil ▸ rfl), honce.distinct.of_map _⟩
  | _ => contradiction

/-- Values of any kind are stored with valid sets. -/
theorem carries_setsValid : Carries (fun _ => True) SetsValid where
  list_iff := by simp
  fields := by simp
  members := by simp
  givenDate := fun _ => trivial
  givenString := fun _ => trivial
  list := allSetsValid_iff.mpr
  map := fieldsSetsValid_iff.mpr
  null := trivial
  boolean := fun _ => trivial
  string := fun _ => trivial
  binary := fun _ => trivial
  number := fun _ => trivial
  date := setsValid_ofDate
  set := fun _ hencodes => hencodes.setsValid

end ItemMapper
