import ItemMapper.Coding.Unknown
import Mathlib.Order.Basic
import Mathlib.Order.Nat

/-!
# Undeclared data that lasts

What is shown of an undeclared stored value may be less than the value, and what is kept of that
still less: a list that loses an item moves up those behind it, which a pattern may not keep at
their new positions.  The value lasts if nothing of it is lost the first time, that is, if each of
its parts stands where it is kept (`WireValue.KeptWhole`).  `WireValue.keptWhole_iff` says that
nothing else lasts.

Only a part that stands alone is asked to be the natural form of its native value.
-/

namespace ItemMapper

variable {σ : Type} {scope : Scope σ}

namespace WireValue

mutual

/-- Every part of an undeclared stored value stands where it is kept. -/
def KeptWhole (scope : Scope σ) (place : Place) : WireValue → Prop
  | .map fields =>
    (scope.unknownMatch place = .full ∨ scope.unknownMatch place = .above ∧ fields ≠ []) ∧
      WireValue.FieldsKept scope place fields
  | .list items =>
    (scope.unknownMatch place = .full ∨ scope.unknownMatch place = .above ∧ items ≠ []) ∧
      WireValue.ItemsKept scope place 0 items
  | stored => scope.unknownMatch place = .full ∧ stored.natural.natural? = some stored

/-- Every item is kept whole, from a position on. -/
def ItemsKept (scope : Scope σ) (place : Place) : Nat → List WireValue → Prop
  | _, [] => True
  | index, item :: rest =>
    item.KeptWhole scope (place.item index) ∧ WireValue.ItemsKept scope place (index + 1) rest

/-- Every field is kept whole. -/
def FieldsKept (scope : Scope σ) (place : Place) : List (String × WireValue) → Prop
  | [] => True
  | (key, stored) :: rest =>
    stored.KeptWhole scope (place.child key) ∧ WireValue.FieldsKept scope place rest

end

end WireValue

/-! ## What is kept is no more than what was there -/

theorem WireValue.length_keepItems_le (scope : Scope σ) (place : Place) (items : List WireValue) :
    ∀ index, (keepItems scope place index items).length ≤ items.length := by
  induction items with
  | nil => exact fun _ => Nat.le_refl _
  | cons item rest ih =>
      intro index
      rw [keepItems]
      split
      · exact Nat.succ_le_succ (ih (index + 1))
      · exact Nat.le_succ_of_le (ih (index + 1))

theorem Value.length_keepItems_le (scope : Scope σ) (place : Place) (items : List Value) :
    ∀ index, (keepItems scope place index items).length ≤ items.length := by
  induction items with
  | nil => exact fun _ => Nat.le_refl _
  | cons item rest ih =>
      intro index
      rw [keepItems]
      split
      · exact Nat.succ_le_succ (ih (index + 1))
      · exact Nat.le_succ_of_le (ih (index + 1))

theorem WireValue.length_keepFields_le (scope : Scope σ) (place : Place)
    (fields : List (String × WireValue)) :
    (keepFields scope place fields).length ≤ fields.length := by
  induction fields with
  | nil => exact Nat.le_refl _
  | cons field rest ih =>
      rw [keepFields]
      split
      · exact Nat.succ_le_succ ih
      · exact Nat.le_succ_of_le ih

theorem Value.length_keepFields_le (scope : Scope σ) (place : Place)
    (fields : List (String × Value)) :
    (keepFields scope place fields).length ≤ fields.length := by
  induction fields with
  | nil => exact Nat.le_refl _
  | cons field rest ih =>
      rw [keepFields]
      split
      · exact Nat.succ_le_succ ih
      · exact Nat.le_succ_of_le ih

/-! ## What lasts -/

theorem ne_cons_of_length_le {α : Type} {kept rest : List α} (hlength : kept.length ≤ rest.length)
    (first : α) : kept ≠ first :: rest := by
  rintro rfl
  exact absurd hlength (Nat.not_succ_le_self _)

/-- A map or list is kept again if its parts are. -/
theorem keep_again_iff {α β : Type} {matched : PathMatch} {parts kept : List α}
    {shown : List β} {makeShown : List β → Value} (make : List α → WireValue)
    {again : Value → Option WireValue} (hinjective : ∀ {a b}, make a = make b → a = b)
    (hagain : again (makeShown shown) =
      if matched = .full || (matched = .above && !kept.isEmpty) then some (make kept) else none)
    (hshown : kept.length ≤ shown.length) (hparts : shown.length ≤ parts.length) :
    ((if matched = .full || (matched = .above && !shown.isEmpty) then some (makeShown shown)
        else none).bind again = some (make parts)) ↔
      (matched = .full ∨ matched = .above ∧ parts ≠ []) ∧ kept = parts := by
  have hempty : kept = parts → shown.isEmpty = kept.isEmpty ∧ kept.isEmpty = parts.isEmpty := by
    rintro rfl
    have hlength := Nat.le_antisymm hshown hparts
    cases shown <;> cases kept <;> simp_all
  constructor
  · intro hsame
    obtain ⟨value, hvalue, hstored⟩ := Option.bind_eq_some_iff.mp hsame
    split at hvalue
    · obtain rfl := Option.some.inj hvalue
      rw [hagain] at hstored
      split at hstored
      · next hcondition =>
          obtain rfl := hinjective (Option.some.inj hstored)
          exact ⟨by simpa using hcondition, rfl⟩
      · cases hstored
    · cases hvalue
  · rintro ⟨hcondition, hkept⟩
    obtain ⟨hfirst, hsecond⟩ := hempty hkept
    have hstays : (matched = .full || (matched = .above && !parts.isEmpty)) = true := by
      simpa using hcondition
    rw [hfirst, hsecond, if_pos hstays, Option.bind_some, hagain, hsecond, if_pos hstays, hkept]

mutual

/-- What is kept whole is kept again as it was, and nothing else is. -/
theorem WireValue.keptWhole_iff : ∀ (stored : WireValue) (place : Place),
    (stored.keep? scope place).bind (Value.keep? scope place) = some stored ↔
      stored.KeptWhole scope place
  | .map fields, place => by
      rw [KeptWhole, ← WireValue.fieldsKept_iff fields place]
      exact keep_again_iff .map WireValue.map.inj rfl (Value.length_keepFields_le scope place _)
        (length_keepFields_le scope place fields)
  | .list items, place => by
      rw [KeptWhole, ← WireValue.itemsKept_iff items place 0]
      exact keep_again_iff .list WireValue.list.inj rfl (Value.length_keepItems_le scope place _ 0)
        (length_keepItems_le scope place items 0)
  | .string _, place | .number _, place | .binary _, place | .stringSet _, place
  | .numberSet _, place | .binarySet _, place | .boolean _, place | .null _, place => by
      by_cases hfull : scope.unknownMatch place = .full <;>
        simp [keep?, KeptWhole, hfull, natural, Value.ofNumberText, Value.keep?]

theorem WireValue.itemsKept_iff : ∀ (items : List WireValue) (place : Place) (index : Nat),
    Value.keepItems scope place index (WireValue.keepItems scope place index items) = items ↔
      WireValue.ItemsKept scope place index items
  | [], _, _ => by simp [WireValue.keepItems, Value.keepItems, WireValue.ItemsKept]
  | item :: rest, place, index => by
      rw [WireValue.ItemsKept, ← WireValue.keptWhole_iff item,
        ← WireValue.itemsKept_iff rest place (index + 1), WireValue.keepItems]
      have hrest := WireValue.length_keepItems_le scope place rest (index + 1)
      cases item.keep? scope (place.item index) with
      | none =>
          -- the others can not make up for an item that is lost
          have hlength := (Value.length_keepItems_le scope place _ index).trans hrest
          simp [ne_cons_of_length_le hlength]
      | some value =>
          have hlength := (Value.length_keepItems_le scope place _ (index + 1)).trans hrest
          rw [Value.keepItems, Option.bind_some]
          cases Value.keep? scope (place.item index) value <;> simp [ne_cons_of_length_le hlength]

theorem WireValue.fieldsKept_iff : ∀ (fields : List (String × WireValue)) (place : Place),
    Value.keepFields scope place (WireValue.keepFields scope place fields) = fields ↔
      WireValue.FieldsKept scope place fields
  | [], _ => by simp [WireValue.keepFields, Value.keepFields, WireValue.FieldsKept]
  | (key, stored) :: rest, place => by
      rw [WireValue.FieldsKept, ← WireValue.keptWhole_iff stored,
        ← WireValue.fieldsKept_iff rest place, WireValue.keepFields]
      have hlength := (Value.length_keepFields_le scope place _).trans
        (WireValue.length_keepFields_le scope place rest)
      cases stored.keep? scope (place.child key) with
      | none => simp [ne_cons_of_length_le hlength]
      | some value =>
          rw [Value.keepFields, Option.bind_some]
          cases Value.keep? scope (place.child key) value <;> simp [ne_cons_of_length_le hlength]

end

end ItemMapper
