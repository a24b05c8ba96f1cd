import ItemMapper.Proofs.Number.Nearest

/-!
# Rounding to the nearest integer

A finite number has one nearest integer, if halves go away from zero (`Binary64.RoundsTo`,
`Binary64.RoundsTo.unique`).  `Binary64.roundToInt64` gives this integer unless it lies beyond the
64-bit range (`Binary64.exists_roundsTo`).
-/

namespace ItemMapper.Binary64

-- no step below is to compute the number of units
attribute [local irreducible] one

/-- The integer is the nearest one to the number, and of two nearest ones the one farther from
zero. -/
structure RoundsTo (x : Binary64) (n : Int) : Prop where
  finite : x.isFinite = true
  near : |x.toRat - n| ≤ 1 / 2
  halves : |x.toRat - n| = 1 / 2 → |x.toRat| < |(n : Rat)|

namespace RoundsTo

variable {x : Binary64} {m n : Int}

theorem not_lt (hm : x.RoundsTo m) (hn : x.RoundsTo n) : ¬ m < n := by
  intro hlt
  obtain ⟨-, hlower⟩ := abs_le.mp hm.near
  obtain ⟨hupper, -⟩ := abs_le.mp hn.near
  have hsucc : n = m + 1 := by
    have hle : (n : Rat) ≤ m + 1 := by linarith
    have hle' : n ≤ m + 1 := by exact_mod_cast hle
    omega
  -- the number lies halfway between the two, so that it would be nearer to zero than both
  have hhalf : x.toRat = m + 1 / 2 := by
    rw [hsucc] at hupper
    push_cast at hupper
    linarith
  have hm' := hm.halves (by rw [hhalf]; norm_num)
  have hn' := hn.halves (by rw [hhalf, hsucc]; push_cast; norm_num)
  rw [hhalf] at hm' hn'
  rw [hsucc] at hn'
  rcases Int.lt_or_le m 0 with hneg | hnonneg
  · have hcast : (m : Rat) + 1 ≤ 0 := by exact_mod_cast hneg
    push_cast at hn'
    rw [abs_of_nonpos (by linarith), abs_of_nonpos hcast] at hn'
    linarith
  · have hcast : (0 : Rat) ≤ m := by exact_mod_cast hnonneg
    rw [abs_of_nonneg (by linarith), abs_of_nonneg hcast] at hm'
    linarith

theorem unique (hm : x.RoundsTo m) (hn : x.RoundsTo n) : m = n :=
  Int.le_antisymm (Int.not_lt.mp (hn.not_lt hm)) (Int.not_lt.mp (hm.not_lt hn))

end RoundsTo

theorem toRat_negative {mantissa scale : Nat} (h : Canonical mantissa scale) :
    toRat (.finite true mantissa scale h) = -toRat (.finite false mantissa scale h) := by
  simp only [toRat, if_true, Bool.false_eq_true, if_false]

theorem RoundsTo.negative {mantissa scale : Nat} {h : Canonical mantissa scale} {n : Int}
    (hn : RoundsTo (.finite false mantissa scale h) n) :
    RoundsTo (.finite true mantissa scale h) (-n) := by
  have hdistance : ∀ value : Rat, |-value - (-n : Int)| = |value - n| := by
    intro value
    rw [Int.cast_neg, sub_neg_eq_add, neg_add_eq_sub, abs_sub_comm]
  refine ⟨rfl, ?_, fun hhalf => ?_⟩
  · rw [toRat_negative, hdistance]
    exact hn.near
  · rw [toRat_negative, hdistance] at hhalf
    rw [toRat_negative, abs_neg, Int.cast_neg, abs_neg]
    exact hn.halves hhalf

/-- A number that is not negative is rounded by dividing its units. -/
theorem roundsTo_magnitude {mantissa scale : Nat} (h : Canonical mantissa scale) :
    RoundsTo (.finite false mantissa scale h)
      ((2 * (mantissa * 2 ^ scale) + one) / (2 * one) : Nat) := by
  obtain ⟨units, hunits⟩ : ∃ units, mantissa * 2 ^ scale = units := ⟨_, rfl⟩
  obtain ⟨magnitude, hmagnitude⟩ : ∃ magnitude, (2 * units + one) / (2 * one) = magnitude :=
    ⟨_, rfl⟩
  rw [hunits, hmagnitude]
  have hone := one_pos
  have hbelow : 2 * one * magnitude ≤ 2 * units + one := by
    rw [← hmagnitude]
    exact Nat.mul_div_le _ _
  have habove : 2 * units + one < 2 * one * (magnitude + 1) := by
    rw [← hmagnitude]
    exact Nat.lt_mul_div_succ _ (by omega)
  have hpos : (0 : Rat) < one := by exact_mod_cast hone
  have hbelow' : (2 * one * magnitude : Rat) ≤ 2 * units + one := by exact_mod_cast hbelow
  have habove' : (2 * units + one : Rat) < 2 * one * (magnitude + 1) := by exact_mod_cast habove
  have hlower : (magnitude : Rat) - 1 / 2 ≤ units / one := by
    rw [le_div_iff₀ hpos]
    linarith
  have hupper : (units : Rat) / one < magnitude + 1 / 2 := by
    rw [div_lt_iff₀ hpos]
    linarith
  have hnonneg : (0 : Rat) ≤ units / one := by positivity
  refine ⟨rfl, ?_, fun hhalf => ?_⟩
  · rw [toRat_finite, hunits, Int.cast_natCast, abs_le]
    constructor <;> linarith
  · rw [toRat_finite, hunits, Int.cast_natCast] at hhalf ⊢
    rw [abs_of_nonneg hnonneg, Nat.abs_cast]
    rcases abs_eq (by norm_num : (0 : Rat) ≤ 1 / 2) |>.mp hhalf with heq | heq <;> linarith

/-- A finite number has a nearest integer, which is given unless it lies beyond the range. -/
theorem exists_roundsTo {x : Binary64} (hfinite : x.isFinite = true) :
    ∃ n, x.RoundsTo n ∧ x.roundToInt64 = clampInt64 n := by
  cases x with
  | nan => cases hfinite
  | infinite negative => cases hfinite
  | finite negative mantissa scale h =>
      have hround := roundsTo_magnitude h
      cases negative with
      | false => exact ⟨_, hround, by simp [roundToInt64, Nat.shiftLeft_eq]⟩
      | true => exact ⟨_, hround.negative, by simp [roundToInt64, Nat.shiftLeft_eq]⟩

theorem clampInt64_eq_iff {n m : Int} (hlower : leastInt64 < m) (hupper : m < greatestInt64) :
    clampInt64 n = m ↔ n = m := by
  unfold clampInt64
  split_ifs <;> omega

end ItemMapper.Binary64
