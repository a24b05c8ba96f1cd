import ItemMapper.Proofs.Number.Nearest
import ItemMapper.Proofs.Pipeline
import ItemMapper.Typing.Resolve
import Mathlib.Algebra.Order.BigOperators.Group.List
import Mathlib.Data.List.MinMax
import Mathlib.Data.List.Perm.Basic

/-!
# Scores that stay above zero

A value takes its only candidate type exactly if the score is not zero.  Where every member fits,
exact averages are one, but the averages that values are typed with are rounded at every step.  The
running sum of ones, for example, stops at `2 ^ 53`, where adding one more is rounded away, so that
the average of a long list is below one.

How far below depends on the number of values: `Score.AtLeast size score` says that a score has
lost at most a factor of four for each doubling of `size`.  `AtLeast.average` carries this from
members to averages.  It holds because among the members there is one whose size is at most the
total divided by the number of members, and because a running sum never falls below any of its
summands.  This is shown up to `2 ^ 64` values, which is more than a machine has addresses for; in
a value that is far greater the averages could become too small for the format.
-/

namespace ItemMapper

namespace Score

open Binary64

/-! ## Running sums -/

/-- A sum of so many scores, rounded at every step. -/
structure Running (count : Nat) (total : Rat) : Prop where
  fixed : nearest total = total
  nonneg : 0 ≤ total
  le_count : total ≤ count
  le_limit : total ≤ 2 ^ 53

theorem running_zero : Running 0 0 where
  fixed := by exact_mod_cast nearest_natural (Nat.zero_le _)
  nonneg := le_rfl
  le_count := by simp
  le_limit := by norm_num

/-- At the limit one more is rounded away. -/
theorem nearest_limit : nearest (2 ^ 53 + 1) = 2 ^ 53 := by
  decide +kernel

namespace Running

variable {count : Nat} {total score : Rat}

theorem add_le (htotal : Running count total) (hone : score ≤ 1) :
    total + score ≤ 2 ^ 54 :=
  (add_le_add htotal.le_limit hone).trans (by norm_num)

/-- One more score. -/
theorem step (htotal : Running count total) (hnonneg : 0 ≤ score) (hone : score ≤ 1) :
    Running (count + 1) (nearest (total + score)) := by
  have hsum : 0 ≤ total + score := add_nonneg htotal.nonneg hnonneg
  have hlimit : nearest (total + score) ≤ 2 ^ 53 := by
    rw [← nearest_limit]
    exact nearest_mono hsum (add_le_add htotal.le_limit hone) (by norm_num)
  refine ⟨nearest_nearest hsum (htotal.add_le hone), nearest_nonneg hsum (htotal.add_le hone),
    ?_, hlimit⟩
  -- from `2 ^ 53` on the limit is the better bound
  rcases Nat.lt_or_ge (2 ^ 53) (count + 1) with hmany | hfew
  · refine hlimit.trans ?_
    exact_mod_cast hmany.le
  · refine nearest_le_natural hfew hsum ?_
    push_cast
    exact add_le_add htotal.le_count hone

theorem le_step (htotal : Running count total) (hnonneg : 0 ≤ score) (hone : score ≤ 1) :
    total ≤ nearest (total + score) :=
  le_nearest htotal.nonneg htotal.fixed (le_add_of_nonneg_right hnonneg) (htotal.add_le hone)

theorem score_le_step (htotal : Running count total) (hfixed : nearest score = score)
    (hnonneg : 0 ≤ score) (hone : score ≤ 1) : score ≤ nearest (total + score) :=
  le_nearest hnonneg hfixed (le_add_of_nonneg_left htotal.nonneg) (htotal.add_le hone)

/-- A sum of scores is not less than any of them. -/
theorem foldl {scores : List Rat}
    (hscores : ∀ score ∈ scores, nearest score = score ∧ 0 ≤ score ∧ score ≤ 1) :
    ∀ {count : Nat} {total : Rat}, Running count total →
      Running (count + scores.length)
          (scores.foldl (fun total score => nearest (total + score)) total) ∧
        (total ≤ scores.foldl (fun total score => nearest (total + score)) total) ∧
        ∀ score ∈ scores,
          score ≤ scores.foldl (fun total score => nearest (total + score)) total := by
  induction scores with
  | nil => exact fun htotal => ⟨htotal, le_rfl, by simp⟩
  | cons first rest ih =>
      intro count total htotal
      obtain ⟨hfixed, hnonneg, hone⟩ := hscores first (by simp)
      obtain ⟨hsum, hgrows, hrest⟩ :=
        ih (fun score hscore => hscores score (by simp [hscore])) (htotal.step hnonneg hone)
      refine ⟨?_, (htotal.le_step hnonneg hone).trans hgrows, ?_⟩
      · rw [List.length_cons, Nat.add_comm rest.length, ← Nat.add_assoc]
        exact hsum
      · intro score hscore
        rcases List.mem_cons.mp hscore with rfl | hscore
        · exact (htotal.score_le_step hfixed hnonneg hone).trans hgrows
        · exact hrest score hscore

end Running

/-! ## Averages -/

/-- A count is less than twice a power of two, which is at most the same power of four. -/
theorem le_four_pow_log2 {count : Nat} (hcount : 0 < count) : count ≤ 4 ^ count.log2 := by
  rcases Nat.lt_or_ge 1 count with hmany | hone
  · have hlog : 1 ≤ count.log2 := (Nat.le_log2 hcount.ne').mpr hmany
    calc count ≤ 2 ^ (count.log2 + 1) := Nat.lt_log2_self.le
      _ ≤ 2 ^ (2 * count.log2) := Nat.pow_le_pow_right (by decide) (by omega)
      _ = 4 ^ count.log2 := Nat.pow_mul 2 2 _
  · exact hone.trans (Nat.one_le_pow _ _ (by decide))

/-- A score that has lost at most a factor of four for each doubling of the size. -/
structure AtLeast (size : Nat) (score : Rat) : Prop where
  fixed : nearest score = score
  lower : (1 / 4) ^ size.log2 ≤ score
  le_one : score ≤ 1

namespace AtLeast

variable {size : Nat} {score : Rat}

theorem pos (hscore : AtLeast size score) : 0 < score :=
  lt_of_lt_of_le (by positivity) hscore.lower

theorem one (size : Nat) : AtLeast size 1 where
  fixed := by exact_mod_cast nearest_natural (show 1 ≤ 2 ^ 53 by decide)
  lower := pow_le_one₀ (by norm_num) (by norm_num)
  le_one := le_rfl

/-- A bound for a small value is one for a greater value. -/
theorem mono {greater : Nat} (hscore : AtLeast size score) (hle : size ≤ greater) :
    AtLeast greater score where
  fixed := hscore.fixed
  lower := (pow_le_pow_of_le_one (by norm_num) (by norm_num) (log2_mono hle)).trans hscore.lower
  le_one := hscore.le_one

/-- Some summand is at most the average. -/
theorem exists_mul_length_le {sizes : List Nat} (hne : sizes ≠ []) :
    ∃ size ∈ sizes, size * sizes.length ≤ sizes.sum := by
  have hlength : 0 < sizes.length := List.length_pos_of_ne_nil hne
  refine ⟨sizes.minimum_of_length_pos hlength, List.minimum_of_length_pos_mem hlength, ?_⟩
  have hsum := List.card_nsmul_le_sum sizes (sizes.minimum_of_length_pos hlength)
    fun size hsize => List.minimum_of_length_pos_le_of_mem hsize hlength
  rwa [nsmul_eq_mul, Nat.cast_id, Nat.mul_comm] at hsum

/-- Dividing by the number of members costs no more than the growth of the size allows. -/
theorem quarter_pow_le {count total : Nat} (hsize : 0 < size) (hcount : 0 < count)
    (hle : size * count ≤ total) : (1 / 4 : Rat) ^ total.log2 ≤ (1 / 4) ^ size.log2 / count := by
  have hlog : size.log2 + count.log2 ≤ total.log2 := by
    rw [Nat.le_log2 (Nat.mul_pos hsize hcount |>.trans_le hle).ne', Nat.pow_add]
    exact (Nat.mul_le_mul (Nat.log2_self_le hsize.ne') (Nat.log2_self_le hcount.ne')).trans hle
  calc (1 / 4 : Rat) ^ total.log2 ≤ (1 / 4) ^ (size.log2 + count.log2) :=
        pow_le_pow_of_le_one (by norm_num) (by norm_num) hlog
    _ = (1 / 4) ^ size.log2 / 4 ^ count.log2 := by
        rw [pow_add, one_div_pow 4 count.log2]
        ring
    _ ≤ (1 / 4) ^ size.log2 / count := by
        refine div_le_div_of_nonneg_left (by positivity) (by exact_mod_cast hcount) ?_
        exact_mod_cast le_four_pow_log2 hcount

/-- The average of scores that have lost little has lost little. -/
theorem average {sizes : List Nat} {scores : List Rat} (hall : List.Forall₂ AtLeast sizes scores)
    (hpos : ∀ size ∈ sizes, 0 < size) (hmemory : sizes.sum ≤ 2 ^ 64) :
    AtLeast (1 + sizes.sum) (average rounded scores) := by
  unfold Score.average Score.rounded
  rcases eq_or_ne scores [] with rfl | hne
  · exact one _
  have hlength : sizes.length = scores.length := hall.length_eq
  have hcount : 0 < scores.length := List.length_pos_of_ne_nil hne
  have hcountRat : (0 : Rat) < scores.length := by exact_mod_cast hcount
  have hscores : ∀ score ∈ scores, nearest score = score ∧ 0 ≤ score ∧ score ≤ 1 := by
    intro score hscore
    obtain ⟨size, -, hsize⟩ := exists_related_right hall hscore
    exact ⟨hsize.fixed, hsize.pos.le, hsize.le_one⟩
  obtain ⟨hsum, -, hmembers⟩ := Running.foldl hscores running_zero
  obtain ⟨size, hsize, hsmall⟩ :=
    exists_mul_length_le (List.length_pos_iff.mp (hlength ▸ hcount))
  obtain ⟨score, hscore, hbound⟩ := exists_related_left hall hsize
  rw [List.isEmpty_eq_false_iff.mpr hne, if_neg Bool.false_ne_true]
  generalize scores.foldl (fun total score => nearest (total + score)) 0 = total at hsum hmembers ⊢
  have hquotient : total / scores.length ≤ (1 : Nat) := by
    rw [div_le_iff₀ hcountRat, Nat.cast_one, one_mul]
    simpa using hsum.le_count
  have hnonneg : 0 ≤ total / scores.length := div_nonneg hsum.nonneg hcountRat.le
  have hlimit : total / scores.length ≤ 2 ^ 54 := hquotient.trans (by norm_num)
  -- the small member alone keeps the quotient up
  have hlower : (1 / 4) ^ sizes.sum.log2 ≤ total / scores.length := by
    rw [hlength] at hsmall
    refine (quarter_pow_le (hpos size hsize) hcount hsmall).trans ?_
    exact div_le_div_of_nonneg_right (hbound.lower.trans (hmembers score hscore)) hcountRat.le
  have hlog : sizes.sum.log2 ≤ 537 := by
    have hle := log2_mono hmemory
    rw [Nat.log2_two_pow] at hle
    omega
  have hone : nearest (total / scores.length) ≤ 1 := by
    exact_mod_cast nearest_le_natural (n := 1) (by decide) hnonneg hquotient
  have haverage : AtLeast sizes.sum (nearest (total / scores.length)) :=
    ⟨nearest_nearest hnonneg hlimit,
      le_nearest (by positivity) (nearest_quarter_pow hlog) hlower hlimit, hone⟩
  exact haverage.mono (Nat.le_add_left _ _)

/-- The order of the scores makes no difference to the bound. -/
theorem average_perm {sizes : List Nat} {scores scores' : List Rat}
    (hall : List.Forall₂ AtLeast sizes scores) (hperm : scores.Perm scores')
    (hpos : ∀ size ∈ sizes, 0 < size) (hmemory : sizes.sum ≤ 2 ^ 64) :
    AtLeast (1 + sizes.sum) (Score.average rounded scores') := by
  -- the sizes are put in the same order as the scores
  have hcomposed : Relation.Comp (List.Forall₂ AtLeast) List.Perm sizes scores' :=
    ⟨scores, hall, hperm⟩
  rw [List.forall₂_comp_perm_eq_perm_comp_forall₂] at hcomposed
  obtain ⟨sizes', hsizes, hall'⟩ := hcomposed
  rw [hsizes.sum_eq] at hmemory ⊢
  exact average hall' (fun size hsize => hpos size (hsizes.mem_iff.mpr hsize)) hmemory

end AtLeast

/-! ## The only candidate -/

/-- The best of one score that is not negative is this score. -/
theorem best_singleton {score : Rat} (hnonneg : 0 ≤ score) : best [score] = score := by
  rcases hnonneg.lt_or_eq with hpos | hzero
  · simp [best, hpos]
  · simp [best, ← hzero]

end Score

/-! ## The order of fields -/

/-- In another order fields have the same scores in that order. -/
theorem Value.fieldScores_perm {σ : Type} {round : Rat → Rat} {frame : Frame σ}
    {fields others : List (String × Value)} (hperm : fields.Perm others) :
    (Value.fieldScores round frame fields).Perm (Value.fieldScores round frame others) := by
  induction hperm with
  | nil => exact .nil
  | cons field _ ih =>
      rw [fieldScores, fieldScores]
      split
      · exact ih
      · exact ih.cons _
  | swap first second rest =>
      by_cases hfirst : first.2.isUndefined = true <;>
        by_cases hsecond : second.2.isUndefined = true <;>
          simp only [fieldScores, hfirst, hsecond, if_true]
      · exact .refl _
      · exact .refl _
      · exact .refl _
      · exact .swap _ _ _
  | trans _ _ ihfirst ihsecond => exact ihfirst.trans ihsecond

end ItemMapper
