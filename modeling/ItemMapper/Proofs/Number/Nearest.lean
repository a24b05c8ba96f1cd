import ItemMapper.Proofs.Number.Rounding
import Mathlib.Algebra.Order.Field.Basic
import Mathlib.Tactic.FieldSimp
import Mathlib.Tactic.NormNum
import Mathlib.Tactic.Positivity

/-!
# Rounded rational numbers

`Binary64.nearest` rounds a rational number through the format.  Between zero and `2 ^ 54` it is
monotone (`nearest_mono`), what it gives is not changed by rounding again (`nearest_nearest`), and
so are natural numbers up to `2 ^ 53` (`nearest_natural`), halves (`nearest_half`) and small powers
of one quarter (`nearest_quarter_pow`).  Everything else about rounded sums and quotients follows
from this by comparing them with numbers that are not changed.
-/

namespace ItemMapper.Binary64

/-! ## Numbers of the format -/

/-- The number of units in one as a power of two whose exponent is not computed with. -/
theorem exists_one_eq : ∃ exponent, exponent = 1074 ∧ one = 2 ^ exponent := by
  have hshift : ∀ exponent, 1 <<< exponent = 2 ^ exponent := fun exponent => by
    rw [Nat.shiftLeft_eq, Nat.one_mul]
  exact ⟨1074, rfl, hshift 1074⟩

-- no step below is to compute the number of units
attribute [local irreducible] one

theorem one_pos : 0 < one := by
  obtain ⟨_, -, hone⟩ := exists_one_eq
  rw [hone]
  exact Nat.two_pow_pos _

/-- A short number of units at any scale has a canonical form. -/
theorem exists_canonical {n scale : Nat} (hshort : n < 2 ^ 53) (hscale : scale ≤ 2045) :
    ∃ mantissa scale', Canonical mantissa scale' ∧ n * 2 ^ scale = mantissa * 2 ^ scale' := by
  rcases Nat.eq_zero_or_pos n with rfl | hpos
  · exact ⟨0, 0, ⟨by decide, by decide, .inl rfl⟩, by simp⟩
  have hlog : n.log2 < 53 := (Nat.log2_lt hpos.ne').mpr hshort
  have hlower : 2 ^ n.log2 ≤ n := Nat.log2_self_le hpos.ne'
  have hupper : n < 2 ^ (n.log2 + 1) := Nat.lt_log2_self
  by_cases hsmall : scale ≤ 52 - n.log2
  · refine ⟨n * 2 ^ scale, 0, ⟨?_, by decide, .inl rfl⟩, by simp⟩
    calc n * 2 ^ scale < 2 ^ (n.log2 + 1) * 2 ^ scale :=
          Nat.mul_lt_mul_of_pos_right hupper (Nat.two_pow_pos _)
      _ = 2 ^ (n.log2 + 1 + scale) := (Nat.pow_add _ _ _).symm
      _ ≤ 2 ^ 53 := Nat.pow_le_pow_right (by decide) (by omega)
  -- the mantissa is filled up to 53 bits
  · refine ⟨n * 2 ^ (52 - n.log2), scale - (52 - n.log2), ⟨?_, by omega, .inr ?_⟩, ?_⟩
    · calc n * 2 ^ (52 - n.log2) < 2 ^ (n.log2 + 1) * 2 ^ (52 - n.log2) :=
            Nat.mul_lt_mul_of_pos_right hupper (Nat.two_pow_pos _)
        _ = 2 ^ (n.log2 + 1 + (52 - n.log2)) := (Nat.pow_add _ _ _).symm
        _ ≤ 2 ^ 53 := Nat.pow_le_pow_right (by decide) (by omega)
    · calc 2 ^ 52 = 2 ^ (n.log2 + (52 - n.log2)) := by congr 1; omega
        _ = 2 ^ n.log2 * 2 ^ (52 - n.log2) := Nat.pow_add _ _ _
        _ ≤ n * 2 ^ (52 - n.log2) := Nat.mul_le_mul_right _ hlower
    · rw [Nat.mul_assoc, ← Nat.pow_add, Nat.add_sub_cancel' (by omega)]

/-- A natural number of at most 53 bits is a number of the format. -/
theorem exists_canonical_natural {n : Nat} (hshort : n < 2 ^ 53) :
    ∃ mantissa scale, Canonical mantissa scale ∧ n * one = mantissa * 2 ^ scale := by
  obtain ⟨exponent, hexponent, hone⟩ := exists_one_eq
  rw [hone]
  exact exists_canonical hshort (by omega)

theorem toRat_finite {mantissa scale : Nat} (h : Canonical mantissa scale) :
    toRat (.finite false mantissa scale h) = (mantissa * 2 ^ scale : Nat) / (one : Nat) := by
  obtain ⟨exponent, hexponent, hone⟩ := exists_one_eq
  rw [hone]
  simp only [toRat, Nat.shiftLeft_eq, Bool.false_eq_true, if_false]
  rw [← hexponent, div_eq_div_iff (by positivity) (by positivity)]
  norm_cast
  rw [Nat.one_mul, Nat.mul_assoc, Nat.mul_assoc, ← Nat.pow_add, ← Nat.pow_add]
  congr 2
  omega

/-! ## Rounding between zero and the limit -/

variable {x y : Rat}

theorem num_div_den (hnonneg : 0 ≤ x) : x = (x.num.natAbs : Rat) / (x.den : Rat) := by
  have hnum : ((x.num.natAbs : Int) : Rat) = (x.num : Rat) := by
    rw [Int.natAbs_of_nonneg (Rat.num_nonneg.mpr hnonneg)]
  rw [← Int.cast_natCast, hnum, Rat.num_div_den]

/-- The rounded number in units. -/
theorem nearest_eq (hnonneg : 0 ≤ x) (hlimit : x ≤ 2 ^ 54) :
    ∃ mantissa scale, Canonical mantissa scale ∧
      mantissa * 2 ^ scale = roundUnits (x.num.natAbs * one) x.den ∧
        nearest x = (mantissa * 2 ^ scale : Nat) / (one : Nat) := by
  have hden : (0 : Rat) < x.den := by exact_mod_cast x.den_pos
  have hnum : x.num.natAbs ≤ 2 ^ 54 * x.den := by
    have hle := hlimit
    rw [num_div_den hnonneg, div_le_iff₀ hden] at hle
    exact_mod_cast hle
  -- far from where the format ends, so the result is finite
  have hrange : x.num.natAbs * one / x.den < 2 ^ 2097 := by
    obtain ⟨exponent, hexponent, hone⟩ := exists_one_eq
    rw [hone, Nat.div_lt_iff_lt_mul x.den_pos]
    calc x.num.natAbs * 2 ^ exponent ≤ 2 ^ 54 * x.den * 2 ^ exponent :=
          Nat.mul_le_mul_right _ hnum
      _ = 2 ^ (54 + exponent) * x.den := by
          rw [Nat.pow_add]
          ring
      _ < 2 ^ 2097 * x.den := by
          refine Nat.mul_lt_mul_of_pos_right (pow_lt_pow_right₀ (by decide) ?_) x.den_pos
          omega
  obtain ⟨mantissa, scale, h, hresult, hunits⟩ := ofRatio_eq_finite false hrange
  refine ⟨mantissa, scale, h, hunits, ?_⟩
  rw [nearest, decide_eq_false (not_lt.mpr hnonneg), hresult, toRat_finite]

/-- Rounding is monotone. -/
theorem nearest_mono (hnonneg : 0 ≤ x) (hle : x ≤ y) (hlimit : y ≤ 2 ^ 54) :
    nearest x ≤ nearest y := by
  obtain ⟨m, s, -, hunits, hx⟩ := nearest_eq hnonneg (hle.trans hlimit)
  obtain ⟨m', s', -, hunits', hy⟩ := nearest_eq (hnonneg.trans hle) hlimit
  rw [hx, hy, hunits, hunits']
  have hcross : x.num.natAbs * y.den ≤ y.num.natAbs * x.den := by
    have hquotients := hle
    rw [num_div_den hnonneg, num_div_den (hnonneg.trans hle), div_le_div_iff₀
      (by exact_mod_cast x.den_pos) (by exact_mod_cast y.den_pos)] at hquotients
    exact_mod_cast hquotients
  -- rounding is monotone on natural numbers of units
  have hround : roundUnits (x.num.natAbs * one) x.den ≤ roundUnits (y.num.natAbs * one) y.den := by
    refine roundUnits_mono x.den_pos y.den_pos ?_
    calc x.num.natAbs * one * y.den = x.num.natAbs * y.den * one := Nat.mul_right_comm _ _ _
      _ ≤ y.num.natAbs * x.den * one := Nat.mul_le_mul_right _ hcross
      _ = y.num.natAbs * one * x.den := Nat.mul_right_comm _ _ _
  gcongr

theorem nearest_nonneg (hnonneg : 0 ≤ x) (hlimit : x ≤ 2 ^ 54) : 0 ≤ nearest x := by
  obtain ⟨m, s, -, -, hx⟩ := nearest_eq hnonneg hlimit
  rw [hx]
  positivity

/-- A number of the format is not changed. -/
theorem nearest_of_canonical {mantissa scale : Nat} (h : Canonical mantissa scale)
    (hvalue : x = (mantissa * 2 ^ scale : Nat) / (one : Nat)) (hlimit : x ≤ 2 ^ 54) :
    nearest x = x := by
  have hone : (0 : Rat) < one := by exact_mod_cast one_pos
  have hnonneg : 0 ≤ x := by
    rw [hvalue]
    positivity
  obtain ⟨m, s, -, hunits, hx⟩ := nearest_eq hnonneg hlimit
  have hden : (0 : Rat) < x.den := by exact_mod_cast x.den_pos
  have hexact : x.num.natAbs * one = mantissa * 2 ^ scale * x.den := by
    have hsame := hvalue
    rw [num_div_den hnonneg, div_eq_div_iff hden.ne' hone.ne'] at hsame
    exact_mod_cast hsame
  rw [hx, hunits, roundUnits_of_canonical h x.den_pos hexact, ← hvalue]

/-- A short natural number times a power of two is not changed. -/
theorem nearest_mul_two_pow {n k : Nat} (hshort : n < 2 ^ 53) (hlimit : n * 2 ^ k ≤ 2 ^ 54)
    (hpower : k ≤ 54) : nearest (n * 2 ^ k : Nat) = (n * 2 ^ k : Nat) := by
  have hone : (one : Rat) ≠ 0 := by exact_mod_cast one_pos.ne'
  obtain ⟨exponent, hexponent, hpow⟩ := exists_one_eq
  obtain ⟨mantissa, scale, h, hvalue⟩ :=
    exists_canonical hshort (show k + exponent ≤ 2045 by omega)
  refine nearest_of_canonical h ?_ (by exact_mod_cast hlimit)
  rw [← hvalue, eq_div_iff hone, hpow, Nat.pow_add]
  push_cast
  ring

theorem nearest_natural {n : Nat} (hshort : n ≤ 2 ^ 53) : nearest n = n := by
  rcases Nat.lt_or_eq_of_le hshort with hlt | rfl
  · simpa using nearest_mul_two_pow (k := 0) hlt (by omega) (by decide)
  · exact nearest_mul_two_pow (n := 1) (k := 53) (by decide) (by decide) (by decide)

/-- Neither are halves. -/
theorem nearest_half {n : Nat} (hshort : n < 2 ^ 53) : nearest (n / 2) = n / 2 := by
  have hone : (one : Rat) ≠ 0 := by exact_mod_cast one_pos.ne'
  obtain ⟨exponent, hexponent, hpower⟩ := exists_one_eq
  obtain ⟨mantissa, scale, h, hvalue⟩ :=
    exists_canonical hshort (show exponent - 1 ≤ 2045 by omega)
  refine nearest_of_canonical h ?_ ?_
  · have hsplit : (2 : Rat) ^ exponent = 2 ^ (exponent - 1) * 2 := by
      rw [← pow_succ]
      congr 1
      omega
    rw [← hvalue, eq_div_iff hone, hpower]
    push_cast
    rw [hsplit]
    ring
  · have hcast : (n : Rat) ≤ 2 ^ 53 := by exact_mod_cast hshort.le
    linarith

/-- What has been rounded is not changed by rounding again. -/
theorem nearest_nearest (hnonneg : 0 ≤ x) (hlimit : x ≤ 2 ^ 54) :
    nearest (nearest x) = nearest x := by
  obtain ⟨m, s, h, -, hx⟩ := nearest_eq hnonneg hlimit
  refine nearest_of_canonical h hx ?_
  have hgreatest : nearest (2 ^ 54) = 2 ^ 54 :=
    nearest_mul_two_pow (n := 1) (k := 54) (by decide) (by decide) (by decide)
  rw [← hgreatest]
  exact nearest_mono hnonneg hlimit le_rfl

/-- Rounding does not pass a natural number. -/
theorem nearest_le_natural {n : Nat} (hshort : n ≤ 2 ^ 53) (hnonneg : 0 ≤ x) (hle : x ≤ n) :
    nearest x ≤ n := by
  rw [← nearest_natural hshort]
  refine nearest_mono hnonneg hle ?_
  exact_mod_cast hshort.trans (by decide)

/-- Rounding from above does not pass what is not changed. -/
theorem le_nearest (hnonneg : 0 ≤ x) (hfixed : nearest x = x) (hle : x ≤ y) (hlimit : y ≤ 2 ^ 54) :
    x ≤ nearest y := by
  rw [← hfixed]
  exact nearest_mono hnonneg hle hlimit

theorem nearest_quarter_pow {k : Nat} (hsmall : k ≤ 537) :
    nearest ((1 / 4) ^ k) = (1 / 4) ^ k := by
  have hone : (one : Rat) ≠ 0 := by exact_mod_cast one_pos.ne'
  obtain ⟨exponent, hexponent, hpower⟩ := exists_one_eq
  obtain ⟨mantissa, scale, h, hvalue⟩ :=
    exists_canonical (show 1 < 2 ^ 53 by decide) (show exponent - 2 * k ≤ 2045 by omega)
  refine nearest_of_canonical h ?_ ?_
  · have hsplit : (2 : Rat) ^ exponent = 2 ^ (exponent - 2 * k) * 4 ^ k := by
      rw [show (4 : Rat) = 2 ^ 2 by norm_num, ← pow_mul, ← pow_add]
      congr 1
      omega
    rw [← hvalue, Nat.one_mul, hpower]
    push_cast
    rw [hsplit, one_div, inv_pow]
    field_simp
  · calc ((1 : Rat) / 4) ^ k ≤ 1 := pow_le_one₀ (by norm_num) (by norm_num)
      _ ≤ 2 ^ 54 := by norm_num

end ItemMapper.Binary64
