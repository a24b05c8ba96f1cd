import ItemMapper.Proofs.Number.Decimal

/-!
# Numerals

A numeral is an optional minus sign, digits, and digits after a point if there is one
(`Decimal.IsNumeral`).  Integers are written as numerals, and so is positional notation.  Of the
numbers of the binary format just the finite ones are written as numerals
(`Binary64.isNumeral_text_iff`): the others have words of their own.
-/

namespace ItemMapper

namespace Decimal

/-- At least one digit, and nothing else. -/
structure IsDigits (chars : List Char) : Prop where
  nonempty : chars ≠ []
  isDigit : ∀ c ∈ chars, c.isDigit = true

/-- A decimal numeral. -/
inductive IsNumeral : String → Prop where
  | integer (negative : Bool) {digits : List Char} (hdigits : IsDigits digits) :
      IsNumeral ((if negative then "-" else "") ++ String.ofList digits)
  | fraction (negative : Bool) {whole places : List Char} (hwhole : IsDigits whole)
      (hplaces : IsDigits places) :
      IsNumeral ((if negative then "-" else "") ++ String.ofList (whole ++ '.' :: places))

/-- A numeral has no characters but digits, the sign and the point. -/
theorem IsNumeral.isDigit_or {text : String} (hnumeral : IsNumeral text) {c : Char}
    (hc : c ∈ text.toList) : c.isDigit = true ∨ c = '-' ∨ c = '.' := by
  have hsign : ∀ {negative : Bool} {chars : List Char},
      c ∈ ((if negative then "-" else "") ++ String.ofList chars).toList → c = '-' ∨ c ∈ chars := by
    intro negative chars hmem
    cases negative with
    | true => simpa using hmem
    | false => exact .inr (by simpa using hmem)
  cases hnumeral with
  | integer negative hdigits =>
      rcases hsign hc with rfl | hmem
      · exact .inr (.inl rfl)
      · exact .inl (hdigits.isDigit c hmem)
  | fraction negative hwhole hplaces =>
      rcases hsign hc with rfl | hmem
      · exact .inr (.inl rfl)
      · rcases List.mem_append.mp hmem with hmem | hmem
        · exact .inl (hwhole.isDigit c hmem)
        · rcases List.mem_cons.mp hmem with rfl | hmem
          · exact .inr (.inr rfl)
          · exact .inl (hplaces.isDigit c hmem)

theorem isDigits_toDigits (n : Nat) : IsDigits (Nat.toDigits 10 n) :=
  ⟨Nat.toDigits_ne_nil, isDigit_toDigits⟩

theorem IsDigits.append_zeros {chars : List Char} (hchars : IsDigits chars) (count : Nat) :
    IsDigits (chars ++ List.replicate count '0') :=
  ⟨by simp [hchars.nonempty], isDigit_append_zeros hchars.isDigit count⟩

theorem IsDigits.zeros_append {chars : List Char} (hchars : IsDigits chars) (count : Nat) :
    IsDigits (List.replicate count '0' ++ chars) := by
  refine ⟨by simp [hchars.nonempty], fun c hc => ?_⟩
  exact isDigit_append_zeros hchars.isDigit count c
    (List.mem_append.mpr (List.mem_append.mp hc).symm)

theorem isNumeral_toString (n : Int) : IsNumeral (toString n) := by
  rw [toString_eq_ofList_toDigits]
  exact .integer _ (isDigits_toDigits n.natAbs)

/-- Positional notation is a numeral, wherever the point stands. -/
theorem isNumeral_positional (negative : Bool) (decimal : Shortest) :
    IsNumeral ((if negative then "-" else "") ++ decimal.positional) := by
  have hdigits := isDigits_toDigits decimal.digits
  unfold Shortest.positional
  dsimp only
  generalize Nat.toDigits 10 decimal.digits = chars at hdigits
  by_cases hexponent : 0 ≤ decimal.exponent
  · rw [if_pos hexponent]
    exact .integer negative (hdigits.append_zeros _)
  rw [if_neg hexponent]
  by_cases hshort : chars.length ≤ (-decimal.exponent).toNat
  -- all digits stand after the point, behind some zeros
  · rw [if_pos hshort, List.append_assoc]
    exact .fraction negative (⟨by simp, by simp⟩ : IsDigits ['0']) (hdigits.zeros_append _)
  · rw [if_neg hshort, List.append_assoc, List.singleton_append]
    refine .fraction negative ⟨?_, fun c hc => hdigits.isDigit c (List.mem_of_mem_take hc)⟩
      ⟨?_, fun c hc => hdigits.isDigit c (List.mem_of_mem_drop hc)⟩
    · rw [Ne, List.take_eq_nil_iff, not_or]
      exact ⟨by omega, hdigits.nonempty⟩
    · rw [Ne, List.drop_eq_nil_iff]
      omega

end Decimal

namespace Binary64

open Decimal

/-- Just the finite numbers are written as numerals. -/
theorem isNumeral_text_iff {x : Binary64} : IsNumeral x.text ↔ x.isFinite = true := by
  cases x with
  | nan =>
      have hword : ¬ IsNumeral nan.text := fun hnumeral =>
        absurd (hnumeral.isDigit_or (c := 'N') (by decide)) (by decide)
      exact iff_of_false hword (by decide)
  | infinite negative =>
      have hword : ¬ IsNumeral (infinite negative).text := fun hnumeral =>
        absurd (hnumeral.isDigit_or (c := 'f') (by cases negative <;> decide)) (by decide)
      exact iff_of_false hword (by simp [isFinite])
  | finite negative mantissa scale h =>
      have hsigned : IsNumeral (if negative then
          "-" ++ (Shortest.ofParts .greater mantissa scale).positional
          else (Shortest.ofParts .greater mantissa scale).positional) := by
        have hnumeral := isNumeral_positional negative (Shortest.ofParts .greater mantissa scale)
        cases negative <;> simpa using hnumeral
      refine iff_of_true ?_ rfl
      unfold text
      dsimp only
      split
      · split
        · exact isNumeral_toString _
        · exact hsigned
      · exact hsigned

end Binary64

end ItemMapper
