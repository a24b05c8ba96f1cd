import ItemMapper.Number.Binary64
import Mathlib.Data.Nat.Log
import Mathlib.Tactic.Linarith
import Mathlib.Tactic.Ring

/-!
# Rounding to the nearest number

A finite number is a natural number of units, so a quotient is rounded by looking at natural
numbers only: `roundUnits` is the number of units of the result, and `ofRatio_eq_finite` says that
`ofRatio` gives the number with so many units unless the quotient is out of range.  Two facts about
it are all that the rest of the development uses.

* What the format holds is left as it is (`roundUnits_of_canonical`), and it has one form only
  (`canonical_unique`).  Together, a quotient that is a number of the format gives this number
  (`ofRatio_of_eq`).
* Rounding is monotone (`roundUnits_mono`).  Within one scale this is so because `roundDiv` is
  monotone; from one scale to a greater one the result passes the power of two between them.
-/

namespace ItemMapper.Binary64

/-! ## Quotients of natural numbers -/

theorem div_le_roundDiv (num den : Nat) : num / den ≤ roundDiv num den := by
  unfold roundDiv
  dsimp only
  split
  · exact le_rfl
  · split
    · exact Nat.le_succ _
    · split
      · exact le_rfl
      · exact Nat.le_succ _

theorem roundDiv_le (num den : Nat) : roundDiv num den ≤ num / den + 1 := by
  unfold roundDiv
  dsimp only
  split
  · exact Nat.le_succ _
  · split
    · exact le_rfl
    · split
      · exact Nat.le_succ _
      · exact le_rfl

theorem roundDiv_mul {den : Nat} (hden : 0 < den) (quotient : Nat) :
    roundDiv (quotient * den) den = quotient := by
  simp [roundDiv, Nat.mul_div_cancel _ hden, hden]

theorem div_mono {num den num' den' : Nat} (hden : 0 < den) (hden' : 0 < den')
    (hle : num * den' ≤ num' * den) : num / den ≤ num' / den' := by
  rw [Nat.le_div_iff_mul_le hden']
  apply Nat.le_of_mul_le_mul_right _ hden
  calc num / den * den' * den = num / den * den * den' := by ring
    _ ≤ num * den' := Nat.mul_le_mul_right _ (Nat.div_mul_le_self _ _)
    _ ≤ num' * den := hle

/-- A greater quotient is not rounded to a smaller number. -/
theorem roundDiv_mono {num den num' den' : Nat} (hden : 0 < den) (hden' : 0 < den')
    (hle : num * den' ≤ num' * den) : roundDiv num den ≤ roundDiv num' den' := by
  rcases Nat.lt_or_eq_of_le (div_mono hden hden' hle) with hlt | heq
  · exact (roundDiv_le _ _).trans ((Nat.succ_le_of_lt hlt).trans (div_le_roundDiv _ _))
  -- with the same whole part it is the rests that are compared
  · have hrest : num % den * den' ≤ num' % den' * den := by
      have hnum := Nat.div_add_mod num den
      have hnum' := Nat.div_add_mod num' den'
      have hsame : den * (num / den) * den' = den' * (num' / den') * den := by
        rw [heq]
        ring
      rw [← hnum, ← hnum', Nat.add_mul, Nat.add_mul, hsame] at hle
      exact Nat.le_of_add_le_add_left hle
    have hupper : den < 2 * (num % den) → den' < 2 * (num' % den') := by
      intro hgreater
      by_contra hsmall
      have hfirst : den * den' < 2 * (num % den) * den' := Nat.mul_lt_mul_of_pos_right hgreater hden'
      have hsecond : 2 * (num' % den') * den ≤ den' * den :=
        Nat.mul_le_mul_right _ (not_lt.mp hsmall)
      linarith
    have hlower : 2 * (num' % den') < den' → 2 * (num % den) < den := by
      intro hsmall
      by_contra hgreater
      have hfirst : den * den' ≤ 2 * (num % den) * den' :=
        Nat.mul_le_mul_right _ (not_lt.mp hgreater)
      have hsecond : 2 * (num' % den') * den < den' * den :=
        Nat.mul_lt_mul_of_pos_right hsmall hden
      linarith
    unfold roundDiv
    dsimp only
    rw [heq]
    split_ifs <;> omega

/-! ## The scale of a result -/

theorem log2_mono {m n : Nat} (hle : m ≤ n) : m.log2 ≤ n.log2 := by
  rw [Nat.log2_eq_log_two, Nat.log2_eq_log_two]
  exact Nat.log_mono_right hle

/-- The number of units of the number nearest to that many units. -/
def roundUnits (units den : Nat) : Nat :=
  roundDiv units (den <<< (Nat.log2 (units / den) - 52)) <<< (Nat.log2 (units / den) - 52)

/-- The mantissa that belongs to the scale is not too long. -/
theorem div_lt_scale (units den : Nat) :
    units / den < 2 ^ (Nat.log2 (units / den) - 52 + 53) := by
  refine Nat.lt_log2_self.trans_le (Nat.pow_le_pow_right (by decide) ?_)
  omega

/-- The mantissa that belongs to a scale other than the least is not too short. -/
theorem scale_le_div {units den : Nat} (hscale : 0 < Nat.log2 (units / den) - 52) :
    2 ^ (Nat.log2 (units / den) - 52 + 52) ≤ units / den := by
  have hpos : units / den ≠ 0 := by
    intro hzero
    rw [hzero] at hscale
    exact absurd hscale (by decide)
  refine le_trans (Nat.pow_le_pow_right (by decide) ?_) (Nat.log2_self_le hpos)
  omega

theorem shiftLeft_pos {den : Nat} (hden : 0 < den) (scale : Nat) : 0 < den <<< scale := by
  rw [Nat.shiftLeft_eq]
  exact Nat.mul_pos hden (Nat.two_pow_pos _)

theorem div_shiftLeft (units den scale : Nat) :
    units / (den <<< scale) = units / den / 2 ^ scale := by
  rw [Nat.shiftLeft_eq, Nat.div_div_eq_div_mul]

theorem roundDiv_le_of_scale (units den : Nat) :
    roundDiv units (den <<< (Nat.log2 (units / den) - 52)) ≤ 2 ^ 53 := by
  refine (roundDiv_le _ _).trans ?_
  rw [div_shiftLeft, Nat.succ_le_iff, Nat.div_lt_iff_lt_mul (Nat.two_pow_pos _), ← Nat.pow_add,
    Nat.add_comm]
  exact div_lt_scale units den

theorem le_roundDiv_of_scale {units den : Nat} (hscale : 0 < Nat.log2 (units / den) - 52) :
    2 ^ 52 ≤ roundDiv units (den <<< (Nat.log2 (units / den) - 52)) := by
  refine le_trans ?_ (div_le_roundDiv _ _)
  rw [div_shiftLeft, Nat.le_div_iff_mul_le (Nat.two_pow_pos _), ← Nat.pow_add, Nat.add_comm]
  exact scale_le_div hscale

/-- Rounding is monotone. -/
theorem roundUnits_mono {units den units' den' : Nat} (hden : 0 < den) (hden' : 0 < den')
    (hle : units * den' ≤ units' * den) : roundUnits units den ≤ roundUnits units' den' := by
  have hscale : Nat.log2 (units / den) - 52 ≤ Nat.log2 (units' / den') - 52 :=
    Nat.sub_le_sub_right (log2_mono (div_mono hden hden' hle)) _
  have hupper := roundDiv_le_of_scale units den
  have hlower := @le_roundDiv_of_scale units' den'
  unfold roundUnits
  generalize Nat.log2 (units / den) - 52 = scale at *
  generalize Nat.log2 (units' / den') - 52 = scale' at *
  rw [Nat.shiftLeft_eq, Nat.shiftLeft_eq (roundDiv units' _)]
  rcases Nat.lt_or_eq_of_le hscale with hlt | rfl
  -- the power of two between the scales is at least the one result and at most the other
  · calc roundDiv units (den <<< scale) * 2 ^ scale
        ≤ 2 ^ 53 * 2 ^ scale := Nat.mul_le_mul_right _ hupper
      _ = 2 ^ 52 * 2 ^ (scale + 1) := by ring
      _ ≤ 2 ^ 52 * 2 ^ scale' := Nat.mul_le_mul_left _ (Nat.pow_le_pow_right (by decide) hlt)
      _ ≤ roundDiv units' (den' <<< scale') * 2 ^ scale' :=
          Nat.mul_le_mul_right _ (hlower (Nat.zero_lt_of_lt hlt))
  · apply Nat.mul_le_mul_right
    apply roundDiv_mono (shiftLeft_pos hden _) (shiftLeft_pos hden' _)
    simp only [Nat.shiftLeft_eq]
    calc units * (den' * 2 ^ scale) = units * den' * 2 ^ scale := by ring
      _ ≤ units' * den * 2 ^ scale := Nat.mul_le_mul_right _ hle
      _ = units' * (den * 2 ^ scale) := by ring

/-! ## Numbers of the format -/

theorem Canonical.lt {mantissa scale : Nat} (h : Canonical mantissa scale) : mantissa < 2 ^ 53 :=
  h.1

theorem Canonical.le_or {mantissa scale : Nat} (h : Canonical mantissa scale) :
    scale = 0 ∨ 2 ^ 52 ≤ mantissa :=
  h.2.2

theorem Canonical.units_lt {mantissa scale : Nat} (h : Canonical mantissa scale) :
    mantissa * 2 ^ scale < 2 ^ 2098 := by
  refine (Nat.mul_lt_mul_of_pos_right h.lt (Nat.two_pow_pos _)).trans_le ?_
  rw [← Nat.pow_add]
  exact pow_le_pow_right₀ (by decide) (Nat.add_le_add_left h.2.1 53)

/-- The scale of a number of units in its canonical form. -/
theorem log2_of_canonical {mantissa scale : Nat} (h : Canonical mantissa scale) :
    Nat.log2 (mantissa * 2 ^ scale) - 52 = scale := by
  rcases h.le_or with rfl | hlong
  · have hshort : Nat.log2 mantissa < 53 := by
      rcases Nat.eq_zero_or_pos mantissa with rfl | hpos
      · decide
      · exact (Nat.log2_lt hpos.ne').mpr h.lt
    rw [Nat.pow_zero, Nat.mul_one]
    omega
  · have hpos : 0 < mantissa := lt_of_lt_of_le (by decide) hlong
    have hne : mantissa * 2 ^ scale ≠ 0 := (Nat.mul_pos hpos (Nat.two_pow_pos _)).ne'
    have hlog : Nat.log2 (mantissa * 2 ^ scale) = 52 + scale := by
      refine (Nat.log2_eq_iff hne).mpr ⟨?_, ?_⟩
      · rw [Nat.pow_add]
        exact Nat.mul_le_mul_right _ hlong
      · rw [show 52 + scale + 1 = 53 + scale by omega, Nat.pow_add]
        exact Nat.mul_lt_mul_of_pos_right h.lt (Nat.two_pow_pos _)
    omega

/-- A number of units has one canonical form. -/
theorem canonical_unique {mantissa scale mantissa' scale' : Nat} (h : Canonical mantissa scale)
    (h' : Canonical mantissa' scale') (hunits : mantissa * 2 ^ scale = mantissa' * 2 ^ scale') :
    mantissa = mantissa' ∧ scale = scale' := by
  have hscale : scale = scale' := by
    rw [← log2_of_canonical h, ← log2_of_canonical h', hunits]
  subst hscale
  exact ⟨Nat.eq_of_mul_eq_mul_right (Nat.two_pow_pos _) hunits, rfl⟩

/-- What the format holds is not rounded: its mantissa is found again. -/
theorem roundDiv_of_canonical {mantissa scale units den : Nat} (h : Canonical mantissa scale)
    (hden : 0 < den) (hunits : units = mantissa * 2 ^ scale * den) :
    Nat.log2 (units / den) - 52 = scale ∧ roundDiv units (den <<< scale) = mantissa := by
  constructor
  · rw [hunits, Nat.mul_div_cancel _ hden, log2_of_canonical h]
  · have hsplit : units = mantissa * (den <<< scale) := by
      rw [hunits, Nat.shiftLeft_eq]
      ring
    rw [hsplit, roundDiv_mul (shiftLeft_pos hden _)]

theorem roundUnits_of_canonical {mantissa scale units den : Nat} (h : Canonical mantissa scale)
    (hden : 0 < den) (hunits : units = mantissa * 2 ^ scale * den) :
    roundUnits units den = mantissa * 2 ^ scale := by
  obtain ⟨hscale, hmantissa⟩ := roundDiv_of_canonical h hden hunits
  rw [roundUnits, hscale, hmantissa, Nat.shiftLeft_eq]

theorem ofParts_of_canonical {negative : Bool} {mantissa scale : Nat}
    (h : Canonical mantissa scale) : ofParts negative mantissa scale = .finite negative mantissa scale h :=
  dif_pos h

/-- Within the range of the format the result is the number with as many units as rounding leaves. -/
theorem ofRatio_eq_finite (negative : Bool) {num den : Nat}
    (hrange : num * one / den < 2 ^ 2097) :
    ∃ mantissa scale, ∃ h : Canonical mantissa scale,
      ofRatio negative num den = .finite negative mantissa scale h ∧
        mantissa * 2 ^ scale = roundUnits (num * one) den := by
  have hscale : Nat.log2 (num * one / den) - 52 ≤ 2044 := by
    rcases Nat.eq_zero_or_pos (num * one / den) with hzero | hpos
    · rw [hzero]
      decide
    · have := (Nat.log2_lt hpos.ne').mpr hrange
      omega
  have hupper := roundDiv_le_of_scale (num * one) den
  have hlower := @le_roundDiv_of_scale (num * one) den
  unfold ofRatio roundUnits
  dsimp only
  generalize Nat.log2 (num * one / den) - 52 = scale at *
  rw [Nat.shiftLeft_eq (roundDiv _ _)]
  generalize roundDiv (num * one) (den <<< scale) = mantissa at *
  split
  -- a mantissa that was rounded up to one bit more is the shortest one of the next scale
  case isTrue hfull =>
    have hcanonical : Canonical (1 <<< 52) (scale + 1) :=
      ⟨by decide, by omega, .inr le_rfl⟩
    refine ⟨_, _, hcanonical, ofParts_of_canonical hcanonical, ?_⟩
    rw [hfull, Nat.pow_succ]
    change 2 ^ 52 * (2 ^ scale * 2) = 2 ^ 53 * 2 ^ scale
    ring
  case isFalse hshort =>
    have hcanonical : Canonical mantissa scale := by
      refine ⟨lt_of_le_of_ne hupper hshort, by omega, ?_⟩
      rcases Nat.eq_zero_or_pos scale with hzero | hpos
      · exact .inl hzero
      · exact .inr (hlower hpos)
    exact ⟨_, _, hcanonical, ofParts_of_canonical hcanonical, rfl⟩

/-- A quotient that is a number of the format gives this number. -/
theorem ofRatio_of_eq (negative : Bool) {num den mantissa scale : Nat}
    (h : Canonical mantissa scale) (hden : 0 < den)
    (hvalue : num * one = mantissa * 2 ^ scale * den) :
    ofRatio negative num den = .finite negative mantissa scale h := by
  obtain ⟨hscale, hmantissa⟩ := roundDiv_of_canonical h hden hvalue
  have hshort : mantissa ≠ 1 <<< 53 := h.lt.ne
  unfold ofRatio
  dsimp only
  rw [hscale, hmantissa, if_neg hshort, ofParts_of_canonical h]

end ItemMapper.Binary64
