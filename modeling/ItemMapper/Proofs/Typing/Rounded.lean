import ItemMapper.Proofs.Typing.Score

/-!
# Rounded and exact scores

Values are typed with scores that are rounded at every step.  A rounded score is above zero exactly
if the exact average is, as long as the value is not nested too deep: dividing by the number of
members over and over could otherwise become too small for the format.  How much is lost on the way
to the innermost value is its weight (`Value.weight`), and up to a weight of 537 nothing disappears
(`Value.near_score`).
-/

namespace ItemMapper

namespace Score

open Binary64

/-- A rounded score next to the exact one.  Where that is above zero, so is the rounded one, by a
quarter for each unit of weight at least. -/
structure Near (weight : Nat) (score exact : Rat) : Prop where
  fixed : nearest score = score
  nonneg : 0 ≤ score
  le_one : score ≤ 1
  exact_nonneg : 0 ≤ exact
  lower : 0 < exact → (1 / 4) ^ weight ≤ score
  zero : exact = 0 → score = 0

namespace Near

variable {weight : Nat} {score exact : Rat}

theorem pos_iff (hnear : Near weight score exact) : 0 < score ↔ 0 < exact := by
  constructor
  · intro hscore
    refine hnear.exact_nonneg.lt_of_ne fun hzero => ?_
    exact hscore.ne' (hnear.zero hzero.symm)
  · intro hexact
    exact lt_of_lt_of_le (by positivity) (hnear.lower hexact)

theorem mono {greater : Nat} (hnear : Near weight score exact) (hle : weight ≤ greater) :
    Near greater score exact where
  fixed := hnear.fixed
  nonneg := hnear.nonneg
  le_one := hnear.le_one
  exact_nonneg := hnear.exact_nonneg
  lower := fun hexact => (pow_le_pow_of_le_one (by norm_num) (by norm_num) hle).trans
    (hnear.lower hexact)
  zero := hnear.zero

theorem zero_zero (weight : Nat) : Near weight 0 0 where
  fixed := by exact_mod_cast nearest_natural (Nat.zero_le _)
  nonneg := le_rfl
  le_one := by norm_num
  exact_nonneg := le_rfl
  lower := fun hpos => absurd hpos (lt_irrefl 0)
  zero := fun _ => rfl

theorem one_one (weight : Nat) : Near weight 1 1 where
  fixed := by exact_mod_cast nearest_natural (show 1 ≤ 2 ^ 53 by decide)
  nonneg := by norm_num
  le_one := le_rfl
  exact_nonneg := by norm_num
  lower := fun _ => pow_le_one₀ (by norm_num) (by norm_num)
  zero := fun hzero => absurd hzero (by norm_num)

theorem ofBool (weight : Nat) (fits : Bool) : Near weight (Score.ofBool fits) (Score.ofBool fits) := by
  cases fits with
  | false => exact zero_zero weight
  | true => exact one_one weight

/-- The score of undeclared data of which something may be kept. -/
theorem half : Near 1 (1 / 2) (1 / 2) where
  fixed := by decide +kernel
  nonneg := by norm_num
  le_one := by norm_num
  exact_nonneg := by norm_num
  lower := fun _ => by norm_num
  zero := fun hzero => absurd hzero (by norm_num)

/-- The best of some scores is near the best exact one. -/
theorem best {scores exacts : List Rat} (hall : List.Forall₂ (Near weight) scores exacts) :
    Near weight (Score.best scores) (Score.best exacts) := by
  induction hall with
  | nil => exact zero_zero weight
  | @cons score exact _ _ hfirst _ ih =>
      rw [Score.best, Score.best]
      generalize Score.best _ = highest at ih ⊢
      generalize Score.best _ = exactly at ih ⊢
      have hscore : (if highest < score then score else highest) = max score highest := by
        rw [max_comm, max_def_lt]
      have hexact : (if exactly < exact then exact else exactly) = max exact exactly := by
        rw [max_comm, max_def_lt]
      rw [hscore, hexact]
      refine ⟨?_, ?_, max_le hfirst.le_one ih.le_one, ?_, ?_, ?_⟩
      · rcases max_choice score highest with hmax | hmax <;> rw [hmax]
        · exact hfirst.fixed
        · exact ih.fixed
      · exact hfirst.nonneg.trans (le_max_left _ _)
      · exact hfirst.exact_nonneg.trans (le_max_left _ _)
      · intro hpos
        rcases lt_max_iff.mp hpos with hpos | hpos
        · exact (hfirst.lower hpos).trans (le_max_left _ _)
        · exact (ih.lower hpos).trans (le_max_right _ _)
      · intro hzero
        have hle := hzero.le
        rw [max_le_iff] at hle
        rw [hfirst.zero (le_antisymm hle.1 hfirst.exact_nonneg),
          ih.zero (le_antisymm hle.2 ih.exact_nonneg), max_self]

end Near

/-! ## Averages -/

theorem average_id (scores : List Rat) :
    average id scores = if scores.isEmpty then 1 else scores.sum / scores.length := by
  unfold average
  congr 1
  rw [id, List.sum_eq_foldl]
  rfl

theorem foldl_zero {scores : List Rat} (hzero : ∀ score ∈ scores, score = 0) :
    scores.foldl (fun total score => nearest (total + score)) 0 = 0 := by
  have hnearest : nearest (0 + 0) = 0 := by exact_mod_cast nearest_natural (Nat.zero_le _)
  induction scores with
  | nil => rfl
  | cons score rest ih =>
      rw [List.foldl_cons, hzero score (by simp), hnearest]
      exact ih fun other hother => hzero other (by simp [hother])

/-- The rounded average of scores that are near exact ones is near the exact average. -/
theorem Near.average {weight : Nat} {scores exacts : List Rat}
    (hall : List.Forall₂ (Near weight) scores exacts)
    (hweight : weight + scores.length.log2 ≤ 537) :
    Near (weight + scores.length.log2) (average rounded scores) (average id exacts) := by
  rw [average_id]
  unfold Score.average Score.rounded
  rcases eq_or_ne scores [] with rfl | hne
  · cases hall
    exact one_one _
  have hexacts : exacts.isEmpty = false := by
    cases hall with
    | nil => exact absurd rfl hne
    | cons => rfl
  have hcount : 0 < scores.length := List.length_pos_of_ne_nil hne
  have hcountRat : (0 : Rat) < scores.length := by exact_mod_cast hcount
  have hscores : ∀ score ∈ scores, nearest score = score ∧ 0 ≤ score ∧ score ≤ 1 := by
    intro score hscore
    obtain ⟨exact, -, hnear⟩ := exists_related_left hall hscore
    exact ⟨hnear.fixed, hnear.nonneg, hnear.le_one⟩
  have hnonneg : ∀ exact ∈ exacts, 0 ≤ exact := by
    intro exact hexact
    obtain ⟨score, -, hnear⟩ := exists_related_right hall hexact
    exact hnear.exact_nonneg
  obtain ⟨hsum, -, hmembers⟩ := Running.foldl hscores running_zero
  have hzeros : exacts.sum = 0 → scores.foldl (fun total score => nearest (total + score)) 0 = 0 := by
    refine fun hsum => foldl_zero fun score hscore => ?_
    obtain ⟨exact, hexact, hnear⟩ := exists_related_left hall hscore
    exact hnear.zero (le_antisymm (hsum ▸ List.single_le_sum hnonneg exact hexact)
      hnear.exact_nonneg)
  rw [List.isEmpty_eq_false_iff.mpr hne, hexacts, if_neg Bool.false_ne_true,
    if_neg Bool.false_ne_true, ← hall.length_eq]
  generalize scores.foldl (fun total score => nearest (total + score)) 0 = total
    at hsum hmembers hzeros ⊢
  have hquotient : total / scores.length ≤ (1 : Nat) := by
    rw [div_le_iff₀ hcountRat, Nat.cast_one, one_mul]
    simpa using hsum.le_count
  have htotal : 0 ≤ total / scores.length := div_nonneg hsum.nonneg hcountRat.le
  have hlimit : total / scores.length ≤ 2 ^ 54 := hquotient.trans (by norm_num)
  refine ⟨nearest_nearest htotal hlimit, nearest_nonneg htotal hlimit, ?_,
    div_nonneg (List.sum_nonneg hnonneg) hcountRat.le, ?_, ?_⟩
  · exact_mod_cast nearest_le_natural (n := 1) (by decide) htotal hquotient
  · intro hpos
    obtain ⟨score, hscore, hbound⟩ : ∃ score ∈ scores, (1 / 4) ^ weight ≤ score := by
      have hsome : ∃ exact ∈ exacts, 0 < exact := by
        by_contra! hnone
        have hsum : exacts.sum = 0 := List.sum_eq_zero fun exact hexact =>
          le_antisymm (hnone exact hexact) (hnonneg exact hexact)
        rw [hsum, zero_div] at hpos
        exact lt_irrefl 0 hpos
      obtain ⟨exact, hexact, hexactPos⟩ := hsome
      obtain ⟨score, hscore, hnear⟩ := exists_related_right hall hexact
      exact ⟨score, hscore, hnear.lower hexactPos⟩
    refine le_nearest (by positivity) (nearest_quarter_pow hweight) ?_ hlimit
    calc (1 / 4 : Rat) ^ (weight + scores.length.log2)
        = (1 / 4) ^ weight / 4 ^ scores.length.log2 := by
          rw [pow_add, one_div_pow 4 scores.length.log2]
          ring
      _ ≤ (1 / 4) ^ weight / scores.length := by
          refine div_le_div_of_nonneg_left (by positivity) hcountRat ?_
          exact_mod_cast le_four_pow_log2 hcount
      _ ≤ total / scores.length :=
          div_le_div_of_nonneg_right (hbound.trans (hmembers score hscore)) hcountRat.le
  · intro hzero
    have hsumZero : exacts.sum = 0 := by
      rcases div_eq_zero_iff.mp hzero with hsum | hlength
      · exact hsum
      · exact absurd hlength hcountRat.ne'
    rw [hzeros hsumZero, zero_div]
    exact_mod_cast nearest_natural (Nat.zero_le _)

/-! ## The order of scores -/

/-- The order of the scores makes no difference to an exact average. -/
theorem average_id_of_perm {scores others : List Rat} (hperm : scores.Perm others) :
    average id scores = average id others := by
  rw [average_id, average_id, hperm.sum_eq, hperm.length_eq, hperm.isEmpty_eq]

/-- Zero, a half or one. -/
def IsHalves (score : Rat) : Prop :=
  ∃ n : Nat, n ≤ 2 ∧ score = n / 2

theorem isHalves_ofBool (fits : Bool) : IsHalves (Score.ofBool fits) := by
  cases fits with
  | false => exact ⟨0, by decide, by simp [Score.ofBool]⟩
  | true => exact ⟨2, by decide, by simp [Score.ofBool]⟩

theorem IsHalves.best {scores : List Rat} (hall : ∀ score ∈ scores, IsHalves score) :
    IsHalves (Score.best scores) := by
  induction scores with
  | nil => exact ⟨0, by decide, by simp [Score.best]⟩
  | cons score rest ih =>
      rw [Score.best]
      split
      · exact hall score (by simp)
      · exact ih fun other hother => hall other (by simp [hother])

/-- A sum of halves is not rounded. -/
theorem foldl_halves {scores : List Rat} (hall : ∀ score ∈ scores, IsHalves score) :
    ∀ {n : Nat}, n + 2 * scores.length < 2 ^ 53 →
      scores.foldl (fun total score => nearest (total + score)) (n / 2) = n / 2 + scores.sum := by
  induction scores with
  | nil => exact fun _ => by simp
  | cons score rest ih =>
      intro n hfew
      obtain ⟨m, hm, rfl⟩ := hall score (by simp)
      rw [List.length_cons] at hfew
      have hsum : (n : Rat) / 2 + m / 2 = (n + m : Nat) / 2 := by
        push_cast
        ring
      rw [List.foldl_cons, hsum, nearest_half (by omega),
        ih (fun other hother => hall other (by simp [hother])) (by omega), List.sum_cons, ← hsum,
        add_assoc]

/-- The order of halves makes no difference to a rounded average. -/
theorem average_rounded_of_perm {scores others : List Rat} (hperm : scores.Perm others)
    (hall : ∀ score ∈ scores, IsHalves score) (hfew : scores.length < 2 ^ 52) :
    average rounded scores = average rounded others := by
  have hsum : ∀ {scores : List Rat}, (∀ score ∈ scores, IsHalves score) →
      scores.length < 2 ^ 52 →
      scores.foldl (fun total score => nearest (total + score)) 0 = scores.sum := by
    intro scores hall hfew
    simpa using foldl_halves hall (n := 0) (by omega)
  have hothers := hsum (fun score hscore => hall score (hperm.mem_iff.mpr hscore))
    (hperm.length_eq ▸ hfew)
  unfold Score.average Score.rounded
  rw [hsum hall hfew, hothers, hperm.sum_eq, hperm.length_eq, hperm.isEmpty_eq]

end Score

/-! ## Values -/

mutual

/-- How much of a score can be lost on the way to the innermost value. -/
def Value.weight : Value → Nat
  | .list items => Value.itemsWeight items + items.length.log2
  | .set members => Value.itemsWeight members + members.length.log2
  | .map fields => Value.fieldsWeight fields + fields.length.log2
  | _ => 0

def Value.itemsWeight : List Value → Nat
  | [] => 0
  | item :: rest => max item.weight (Value.itemsWeight rest)

def Value.fieldsWeight : List (String × Value) → Nat
  | [] => 1
  | (_, value) :: rest => max value.weight (Value.fieldsWeight rest)

end

variable {σ : Type}

theorem Value.weight_le_itemsWeight {items : List Value} {item : Value} (hitem : item ∈ items) :
    item.weight ≤ itemsWeight items := by
  induction items with
  | nil => exact absurd hitem List.not_mem_nil
  | cons first rest ih =>
      rw [itemsWeight, le_max_iff]
      rcases List.mem_cons.mp hitem with rfl | hrest
      · exact .inl le_rfl
      · exact .inr (ih hrest)

theorem Value.weight_le_fieldsWeight {fields : List (String × Value)} {field : String × Value}
    (hfield : field ∈ fields) : field.2.weight ≤ fieldsWeight fields := by
  induction fields with
  | nil => exact absurd hfield List.not_mem_nil
  | cons first rest ih =>
      rw [fieldsWeight, le_max_iff]
      rcases List.mem_cons.mp hfield with rfl | hrest
      · exact .inl le_rfl
      · exact .inr (ih hrest)

theorem Value.near_scalarScore (weight : Nat) (value : Value) (type : CandidateType σ) :
    Score.Near weight (value.scalarScore type) (value.scalarScore type) :=
  .ofBool weight _

theorem Frame.near_unknownScore (frame : Frame σ) (key : String) :
    Score.Near 1 (frame.unknownScore key) (frame.unknownScore key) := by
  unfold unknownScore
  split
  · exact .zero_zero 1
  · exact .half

theorem Value.length_itemScores (round : Rat → Rat) (scope : Scope σ) (place : Place)
    (elements : List (CandidateType σ)) (items : List Value) (index : Nat) :
    (Value.itemScores round scope place elements index items).length = items.length := by
  induction items generalizing index with
  | nil => rfl
  | cons item rest ih => rw [itemScores, List.length_cons, ih, List.length_cons]

theorem Value.length_memberScores (round : Rat → Rat) (scope : Scope σ) (place : Place)
    (element : CandidateType σ) (members : List Value) :
    (Value.memberScores round scope place element members).length = members.length := by
  induction members with
  | nil => rfl
  | cons member rest ih => rw [memberScores, List.length_cons, ih, List.length_cons]

theorem Value.length_fieldScores_le (round : Rat → Rat) (frame : Frame σ)
    (fields : List (String × Value)) :
    (Value.fieldScores round frame fields).length ≤ fields.length := by
  induction fields with
  | nil => exact le_rfl
  | cons field rest ih =>
      rw [fieldScores]
      split
      · exact ih.trans (Nat.le_succ _)
      · exact Nat.succ_le_succ ih

theorem Value.one_le_fieldsWeight (fields : List (String × Value)) :
    1 ≤ Value.fieldsWeight fields := by
  induction fields with
  | nil => exact le_rfl
  | cons field rest ih =>
      rw [fieldsWeight]
      exact ih.trans (le_max_right _ _)

/-- The best score of some readings is near the best exact one if this holds for each. -/
theorem Value.near_best {value : Value} {weight : Nat} {readings : List (Reading σ)}
    (hvalue : ∀ reading : Reading σ, Score.Near weight (value.score Score.rounded reading)
      (value.score id reading)) :
    Score.Near weight (Score.best (readings.map (value.score Score.rounded)))
      (Score.best (readings.map (value.score id))) :=
  .best (List.forall₂_map_left_iff.mpr (List.forall₂_map_right_iff.mpr
    (List.forall₂_same.mpr fun reading _ => hvalue reading)))

mutual

/-- The score of a value is near the exact one, if the value is not nested too deep. -/
theorem Value.near_score : ∀ (value : Value), value.weight ≤ 537 → ∀ reading : Reading σ,
    Score.Near value.weight (value.score Score.rounded reading) (value.score id reading)
  | .list items, hweight, reading => by
      rw [Value.weight] at hweight ⊢
      simp only [Value.score]
      split
      · next elements _ =>
          have hitems := Value.near_itemScores items (by omega) reading.scope reading.place
            elements 0
          have haverage := Score.Near.average hitems (by rwa [Value.length_itemScores])
          rwa [Value.length_itemScores] at haverage
      · next element _ =>
          have hmembers := Value.near_memberScores items (by omega) reading.scope reading.place
            element
          have haverage := Score.Near.average hmembers (by rwa [Value.length_memberScores])
          rwa [Value.length_memberScores] at haverage
      · exact Value.near_scalarScore _ _ _
  | .set members, hweight, reading => by
      rw [Value.weight] at hweight ⊢
      simp only [Value.score]
      split
      · next element _ =>
          have hmembers := Value.near_memberScores members (by omega) reading.scope reading.place
            element
          have haverage := Score.Near.average hmembers (by rwa [Value.length_memberScores])
          rwa [Value.length_memberScores] at haverage
      · exact Value.near_scalarScore _ _ _
  | .map fields, hweight, reading => by
      rw [Value.weight] at hweight ⊢
      simp only [Value.score]
      split
      · next frame _ =>
          have hlog := Binary64.log2_mono (Value.length_fieldScores_le Score.rounded frame fields)
          have hfields := Value.near_fieldScores fields (by omega) frame
          exact (Score.Near.average hfields (by omega)).mono (by omega)
      · exact Value.near_scalarScore _ _ _
  | .undefined, _, _ | .null, _, _ | .bool _, _, _ | .number _, _, _ | .string _, _, _
  | .binary _, _, _ | .date _, _, _ => by
      simp only [Value.score]
      exact Value.near_scalarScore _ _ _

theorem Value.near_itemScores : ∀ (items : List Value), Value.itemsWeight items ≤ 537 →
    ∀ (scope : Scope σ) (place : Place) (elements : List (CandidateType σ)) (index : Nat),
      List.Forall₂ (Score.Near (Value.itemsWeight items))
        (Value.itemScores Score.rounded scope place elements index items)
        (Value.itemScores id scope place elements index items)
  | [], _, _, _, _, _ => .nil
  | item :: rest, hweight, scope, place, elements, index => by
      rw [Value.itemsWeight, max_le_iff] at hweight
      rw [Value.itemScores, Value.itemScores, Value.itemsWeight]
      refine .cons ?_ ((Value.near_itemScores rest hweight.2 scope place elements (index + 1)).imp
        fun _ _ hnear => hnear.mono (le_max_right _ _))
      exact Value.near_best fun reading =>
        (Value.near_score item hweight.1 reading).mono (le_max_left _ _)

theorem Value.near_memberScores : ∀ (members : List Value), Value.itemsWeight members ≤ 537 →
    ∀ (scope : Scope σ) (place : Place) (element : CandidateType σ),
      List.Forall₂ (Score.Near (Value.itemsWeight members))
        (Value.memberScores Score.rounded scope place element members)
        (Value.memberScores id scope place element members)
  | [], _, _, _, _ => .nil
  | member :: rest, hweight, scope, place, element => by
      rw [Value.itemsWeight, max_le_iff] at hweight
      rw [Value.memberScores, Value.memberScores, Value.itemsWeight]
      refine .cons ?_ ((Value.near_memberScores rest hweight.2 scope place element).imp
        fun _ _ hnear => hnear.mono (le_max_right _ _))
      exact Value.near_best fun reading =>
        (Value.near_score member hweight.1 reading).mono (le_max_left _ _)

theorem Value.near_fieldScores : ∀ (fields : List (String × Value)),
    Value.fieldsWeight fields ≤ 537 → ∀ frame : Frame σ,
      List.Forall₂ (Score.Near (Value.fieldsWeight fields))
        (Value.fieldScores Score.rounded frame fields) (Value.fieldScores id frame fields)
  | [], _, _ => .nil
  | (key, value) :: rest, hweight, frame => by
      rw [Value.fieldsWeight, max_le_iff] at hweight
      have hrest := (Value.near_fieldScores rest hweight.2 frame).imp
        fun _ _ hnear => hnear.mono (le_max_right value.weight _)
      rw [Value.fieldScores, Value.fieldScores, Value.fieldsWeight]
      split
      · exact hrest
      · refine .cons ?_ hrest
        cases frame.schema.nativeAttribute? key with
        | none => exact (frame.near_unknownScore key).mono ((Value.one_le_fieldsWeight rest).trans
            (le_max_right _ _))
        | some field =>
            exact Value.near_best fun reading =>
              (Value.near_score value hweight.1 reading).mono (le_max_left _ _)

end

end ItemMapper
