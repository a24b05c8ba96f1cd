import ItemMapper.Proofs.Typing.Apart
import ItemMapper.Proofs.Typing.Rounded

/-!
# The first candidate with the highest score

The choice is made among ways of reading a value, of which a reference to a model may have several.
A candidate type as a whole scores as the best of its readings (`Scope.fit`).  Nothing is lost by
looking at all readings at once: since those of a candidate stand together and in the order of the
candidates, the first best reading belongs to the first candidate with the highest score
(`Scope.exists_choose?_iff`).  This holds of any scores, rounded or not.

Scores lie between zero and one (`Value.proper_score`, `WireValue.proper_score`) as long as averages
of such scores do (`Score.KeepsProper`), as exact averages and rounded ones do.
-/

namespace ItemMapper

namespace Score

open Binary64

variable {α β : Type}

/-! ## The best of some scores -/

theorem best_cons (score : Rat) (rest : List Rat) : best (score :: rest) = max score (best rest) := by
  rw [best, max_comm, max_def_lt]

theorem best_nonneg (scores : List Rat) : 0 ≤ best scores := by
  induction scores with
  | nil => exact le_rfl
  | cons score rest ih =>
      rw [best_cons]
      exact ih.trans (le_max_right _ _)

theorem best_le_iff {scores : List Rat} {bound : Rat} (hbound : 0 ≤ bound) :
    best scores ≤ bound ↔ ∀ score ∈ scores, score ≤ bound := by
  induction scores with
  | nil => simpa [best] using hbound
  | cons score rest ih => rw [best_cons, max_le_iff, ih, List.forall_mem_cons]

theorem best_lt_iff {scores : List Rat} {bound : Rat} (hbound : 0 < bound) :
    best scores < bound ↔ ∀ score ∈ scores, score < bound := by
  induction scores with
  | nil => simpa [best] using hbound
  | cons score rest ih => rw [best_cons, max_lt_iff, ih, List.forall_mem_cons]

theorem best_eq_zero_iff {scores : List Rat} : best scores = 0 ↔ ∀ score ∈ scores, score ≤ 0 := by
  rw [← best_le_iff le_rfl]
  exact ⟨Eq.le, fun hle => le_antisymm hle (best_nonneg scores)⟩

/-- The best score is reached if it is not zero. -/
theorem best_eq_iff {scores : List Rat} {score : Rat} (hpos : 0 < score)
    (hbound : ∀ other ∈ scores, other ≤ score) : best scores = score ↔ score ∈ scores := by
  rw [(((best_le_iff hpos.le).mpr hbound).ge_iff_eq).symm, ← not_lt, best_lt_iff hpos]
  push Not
  constructor
  · rintro ⟨other, hother, hle⟩
    rwa [le_antisymm hle (hbound other hother)]
  · exact fun hmem => ⟨score, hmem, le_rfl⟩

/-! ## The first best alternative -/

/-- The items before have lower scores, and those after have no higher ones. -/
def FirstHighest (score : α → Rat) (items : List α) (item : α) : Prop :=
  ∃ before after, items = before ++ item :: after ∧
    (∀ other ∈ before, score other < score item) ∧ ∀ other ∈ after, score other ≤ score item

namespace FirstHighest

variable {score : α → Rat} {items : List α} {item other : α}

theorem mem (hfirst : FirstHighest score items item) : item ∈ items := by
  obtain ⟨before, after, rfl, -, -⟩ := hfirst
  simp

theorem le (hfirst : FirstHighest score items item) (hother : other ∈ items) :
    score other ≤ score item := by
  obtain ⟨before, after, rfl, hbefore, hafter⟩ := hfirst
  rcases List.mem_append.mp hother with hmem | hmem
  · exact (hbefore other hmem).le
  · rcases List.mem_cons.mp hmem with rfl | hmem
    · exact le_rfl
    · exact hafter other hmem

theorem of_head (hrest : ∀ other ∈ items, score other ≤ score item) :
    FirstHighest score (item :: items) item :=
  ⟨[], items, rfl, by simp, hrest⟩

theorem of_tail (hfirst : FirstHighest score items item) (hlower : score other < score item) :
    FirstHighest score (other :: items) item := by
  obtain ⟨before, after, rfl, hbefore, hafter⟩ := hfirst
  exact ⟨other :: before, after, rfl, List.forall_mem_cons.mpr ⟨hlower, hbefore⟩, hafter⟩

/-- The head of a list is the first highest, or it is lower and the first highest comes later. -/
theorem cons_cases (hfirst : FirstHighest score (other :: items) item) :
    other = item ∧ (∀ later ∈ items, score later ≤ score item) ∨
      score other < score item ∧ FirstHighest score items item := by
  obtain ⟨_ | ⟨first, before⟩, after, hitems, hbefore, hafter⟩ := hfirst
  · obtain ⟨rfl, rfl⟩ := List.cons.inj hitems
    exact .inl ⟨rfl, hafter⟩
  · obtain ⟨rfl, rfl⟩ := List.cons.inj hitems
    rw [List.forall_mem_cons] at hbefore
    exact .inr ⟨hbefore.1, before, after, rfl, hbefore.2, hafter⟩

/-- The first highest of two lists together is that of the first list, or that of the second. -/
theorem append_cases {first second : List α} (hfirst : FirstHighest score (first ++ second) item) :
    item ∈ first ∧ (∀ other ∈ first ++ second, score other ≤ score item) ∨
      (∀ other ∈ first, score other < score item) ∧ FirstHighest score second item := by
  induction first with
  | nil => exact .inr ⟨by simp, hfirst⟩
  | cons head rest ih =>
      rcases hfirst.cons_cases with ⟨rfl, -⟩ | ⟨hlower, htail⟩
      · exact .inl ⟨List.mem_cons_self, fun other hother => hfirst.le hother⟩
      · rcases ih htail with ⟨hmem, -⟩ | ⟨hbefore, hsecond⟩
        · exact .inl ⟨List.mem_cons_of_mem _ hmem, fun other hother => hfirst.le hother⟩
        · exact .inr ⟨List.forall_mem_cons.mpr ⟨hlower, hbefore⟩, hsecond⟩

theorem map {f : β → α} {items : List β} {item : β}
    (hfirst : FirstHighest (fun item => score (f item)) items item) :
    FirstHighest score (items.map f) (f item) := by
  obtain ⟨before, after, rfl, hbefore, hafter⟩ := hfirst
  exact ⟨before.map f, after.map f, by simp, by simpa using hbefore, by simpa using hafter⟩

theorem exists_of_map {f : β → α} {items : List β} (hfirst : FirstHighest score (items.map f) item) :
    ∃ origin, f origin = item ∧ FirstHighest (fun origin => score (f origin)) items origin := by
  obtain ⟨before, after, hitems, hbefore, hafter⟩ := hfirst
  obtain ⟨before, rest, rfl, rfl, hrest⟩ := List.map_eq_append_iff.mp hitems
  obtain ⟨origin, after, rfl, rfl, rfl⟩ := List.map_eq_cons_iff.mp hrest
  exact ⟨origin, rfl, before, after, rfl, by simpa using hbefore, by simpa using hafter⟩

/-- The first highest of two lists together is the first highest of one of them. -/
theorem of_append {first second : List α} (hfirst : FirstHighest score (first ++ second) item) :
    FirstHighest score first item ∨ FirstHighest score second item := by
  induction first with
  | nil => exact .inr hfirst
  | cons head rest ih =>
      rcases hfirst.cons_cases with ⟨rfl, hle⟩ | ⟨hlower, htail⟩
      · exact .inl (.of_head fun later hlater => hle later (List.mem_append_left _ hlater))
      · exact (ih htail).imp_left fun hrest => hrest.of_tail hlower

theorem unique (hfirst : FirstHighest score items item) (hother : FirstHighest score items other) :
    item = other := by
  induction items with
  | nil => simpa using hfirst.mem
  | cons head rest ih =>
      rcases hfirst.cons_cases with ⟨rfl, hrest⟩ | ⟨hlower, htail⟩
      · rcases hother.cons_cases with ⟨rfl, -⟩ | ⟨hless, hlast⟩
        · rfl
        · exact absurd (hrest other hlast.mem) hless.not_ge
      · rcases hother.cons_cases with ⟨rfl, hrest⟩ | ⟨-, hlast⟩
        · exact absurd (hrest item htail.mem) hlower.not_ge
        · exact ih htail hlast

end FirstHighest

theorem firstBest_eq_none_iff {alternatives : List (α × Rat)} :
    firstBest alternatives = none ↔ ∀ alternative ∈ alternatives, alternative.2 ≤ 0 := by
  refine ⟨fun hnone => ?_, firstBest_eq_none⟩
  induction alternatives with
  | nil => simp
  | cons alternative rest ih =>
      rw [firstBest] at hnone
      split at hnone
      · split at hnone <;> contradiction
      · next hrest =>
          split at hnone
          · contradiction
          · next hscore => exact List.forall_mem_cons.mpr ⟨not_lt.mp hscore, ih hrest⟩

/-- What is found is the first with the highest score, and that is above zero. -/
theorem firstHighest_of_firstBest {score : α → Rat} {items : List α} {found : α × Rat}
    (hfound : firstBest (items.map fun item => (item, score item)) = some found) :
    found.2 = score found.1 ∧ 0 < found.2 ∧ FirstHighest score items found.1 := by
  induction items generalizing found with
  | nil => simp [firstBest] at hfound
  | cons item rest ih =>
      rw [List.map_cons, firstBest] at hfound
      split at hfound
      · next other higher hrest =>
          obtain ⟨hscore, hpos, hfirst⟩ := ih hrest
          dsimp only at hscore hpos hfirst
          split at hfound
          · next hlower =>
              obtain rfl := Option.some.inj hfound
              exact ⟨hscore, hpos, hfirst.of_tail (hscore ▸ hlower)⟩
          · next hlower =>
              obtain rfl := Option.some.inj hfound
              have hle := not_lt.mp hlower
              exact ⟨rfl, hpos.trans_le hle, .of_head fun later hlater =>
                (hfirst.le hlater).trans (hscore ▸ hle)⟩
      · next hrest =>
          split at hfound
          · next hpos =>
              obtain rfl := Option.some.inj hfound
              refine ⟨rfl, hpos, .of_head fun later hlater => ?_⟩
              exact (firstBest_eq_none_iff.mp hrest _ (List.mem_map_of_mem hlater)).trans hpos.le
          · contradiction

/-! ## Scores between zero and one -/

/-- A score between zero and one. -/
structure Proper (score : Rat) : Prop where
  nonneg : 0 ≤ score
  le_one : score ≤ 1

theorem proper_ofBool (fits : Bool) : Proper (ofBool fits) := by
  cases fits with
  | false => exact ⟨le_rfl, zero_le_one⟩
  | true => exact ⟨zero_le_one, le_rfl⟩

theorem proper_best {scores : List Rat} (hall : ∀ score ∈ scores, Proper score) :
    Proper (best scores) :=
  ⟨best_nonneg scores, (best_le_iff zero_le_one).mpr fun score hscore => (hall score hscore).le_one⟩

theorem sum_le_length {scores : List Rat} (hall : ∀ score ∈ scores, Proper score) :
    scores.sum ≤ scores.length := by
  simpa using List.sum_le_card_nsmul scores 1 fun score hscore => (hall score hscore).le_one

/-- Averages of proper scores are proper if they are rounded in this way. -/
def KeepsProper (round : Rat → Rat) : Prop :=
  ∀ scores, (∀ score ∈ scores, Proper score) → Proper (average round scores)

theorem keepsProper_exact : KeepsProper id := by
  intro scores hall
  rw [average_id]
  split
  · exact ⟨zero_le_one, le_rfl⟩
  · refine ⟨div_nonneg (List.sum_nonneg fun score hscore => (hall score hscore).nonneg)
      (Nat.cast_nonneg _), div_le_one_of_le₀ (sum_le_length hall) (Nat.cast_nonneg _)⟩

/-- The rounded sum of so many scores. -/
theorem Running.sum {scores : List Rat} (hscores : ∀ score ∈ scores, Proper score) :
    ∀ {count : Nat} {total : Rat}, Running count total → Running (count + scores.length)
      (scores.foldl (fun total score => nearest (total + score)) total) := by
  induction scores with
  | nil => exact fun htotal => htotal
  | cons first rest ih =>
      intro count total htotal
      rw [List.forall_mem_cons] at hscores
      have hsum := ih hscores.2 (htotal.step hscores.1.nonneg hscores.1.le_one)
      rwa [Nat.add_right_comm, Nat.add_assoc] at hsum

/-- The quotient is between zero and one before it is rounded. -/
theorem Running.quotient {count : Nat} {total : Rat} (htotal : Running count total)
    (hcount : 0 < count) : Proper (total / count) := by
  have hpos : (0 : Rat) < count := by exact_mod_cast hcount
  exact ⟨div_nonneg htotal.nonneg hpos.le, (div_le_one₀ hpos).mpr htotal.le_count⟩

theorem average_rounded {scores : List Rat} (hne : scores ≠ []) : average rounded scores =
    nearest (scores.foldl (fun total score => nearest (total + score)) 0 / scores.length) := by
  unfold average rounded
  rw [List.isEmpty_eq_false_iff.mpr hne, if_neg Bool.false_ne_true]

theorem keepsProper_rounded : KeepsProper rounded := by
  intro scores hall
  by_cases hempty : scores = []
  · subst hempty
    exact ⟨zero_le_one, le_rfl⟩
  have hsum := Running.sum hall running_zero
  rw [Nat.zero_add] at hsum
  have hquotient := hsum.quotient (List.length_pos_of_ne_nil hempty)
  rw [average_rounded hempty]
  constructor
  · exact nearest_nonneg hquotient.nonneg (hquotient.le_one.trans (by norm_num))
  · exact_mod_cast nearest_le_natural (n := 1) (by decide) hquotient.nonneg
      (by exact_mod_cast hquotient.le_one)

/-- An exact average of proper scores is one only if all of them are. -/
theorem average_eq_one_iff {scores : List Rat} (hall : ∀ score ∈ scores, Proper score) :
    average id scores = 1 ↔ ∀ score ∈ scores, score = 1 := by
  have hsum : scores.sum = scores.length ↔ ∀ score ∈ scores, score = 1 := by
    induction scores with
    | nil => simp
    | cons score rest ih =>
        rw [List.forall_mem_cons] at hall ⊢
        rw [← ih hall.2, List.sum_cons, List.length_cons, Nat.cast_succ]
        have hrest := sum_le_length hall.2
        have hscore := hall.1.le_one
        constructor
        · intro heq
          constructor <;> linarith
        · rintro ⟨rfl, heq⟩
          linarith
  rw [average_id]
  split
  · next hempty => simp [List.isEmpty_iff.mp hempty]
  · next hne =>
      have hlength : (scores.length : Rat) ≠ 0 := by simpa using hne
      rw [div_eq_one_iff_eq hlength, hsum]

end Score

variable {σ : Type}

theorem Frame.proper_unknownScore (frame : Frame σ) (key : String) :
    Score.Proper (frame.unknownScore key) := by
  unfold unknownScore
  split <;> constructor <;> norm_num

mutual

/-- The score of a native value lies between zero and one. -/
theorem Value.proper_score {round : Rat → Rat} (hround : Score.KeepsProper round) :
    ∀ (value : Value) (reading : Reading σ), Score.Proper (value.score round reading)
  | .list items, reading => by
      simp only [Value.score]
      split
      · exact hround _ (Value.proper_itemScores hround items)
      · exact hround _ (Value.proper_memberScores hround items)
      · exact Score.proper_ofBool _
  | .set members, reading => by
      simp only [Value.score]
      split
      · exact hround _ (Value.proper_memberScores hround members)
      · exact Score.proper_ofBool _
  | .map fields, reading => by
      simp only [Value.score]
      split
      · exact hround _ (Value.proper_fieldScores hround fields)
      · exact Score.proper_ofBool _
  | .undefined, _ | .null, _ | .bool _, _ | .number _, _ | .string _, _ | .binary _, _
  | .date _, _ => by
      simp only [Value.score]
      exact Score.proper_ofBool _

theorem Value.proper_itemScores {round : Rat → Rat} (hround : Score.KeepsProper round) :
    ∀ (items : List Value) {scope : Scope σ} {place : Place} {elements : List (CandidateType σ)}
      {index : Nat}, ∀ score ∈ Value.itemScores round scope place elements index items,
        Score.Proper score
  | [], _, _, _, _ => by simp [Value.itemScores]
  | item :: rest, _, _, _, _ => by
      rw [Value.itemScores, List.forall_mem_cons]
      exact ⟨Score.proper_best (List.forall_mem_map.mpr fun reading _ =>
        item.proper_score hround reading), Value.proper_itemScores hround rest⟩

theorem Value.proper_memberScores {round : Rat → Rat} (hround : Score.KeepsProper round) :
    ∀ (members : List Value) {scope : Scope σ} {place : Place} {element : CandidateType σ},
      ∀ score ∈ Value.memberScores round scope place element members, Score.Proper score
  | [], _, _, _ => by simp [Value.memberScores]
  | member :: rest, _, _, _ => by
      rw [Value.memberScores, List.forall_mem_cons]
      exact ⟨Score.proper_best (List.forall_mem_map.mpr fun reading _ =>
        member.proper_score hround reading), Value.proper_memberScores hround rest⟩

theorem Value.proper_fieldScores {round : Rat → Rat} (hround : Score.KeepsProper round) :
    ∀ (fields : List (String × Value)) {frame : Frame σ},
      ∀ score ∈ Value.fieldScores round frame fields, Score.Proper score
  | [], _ => by simp [Value.fieldScores]
  | (key, value) :: rest, frame => by
      rw [Value.fieldScores]
      split
      · exact Value.proper_fieldScores hround rest
      · refine List.forall_mem_cons.mpr ⟨?_, Value.proper_fieldScores hround rest⟩
        split
        · exact Score.proper_best (List.forall_mem_map.mpr fun reading _ =>
            value.proper_score hround reading)
        · exact frame.proper_unknownScore key

end

mutual

/-- The score of a stored value lies between zero and one. -/
theorem WireValue.proper_score {round : Rat → Rat} (hround : Score.KeepsProper round) :
    ∀ (value : WireValue) (reading : Reading σ), Score.Proper (value.score round reading)
  | .list items, reading => by
      simp only [WireValue.score]
      split
      · exact hround _ (WireValue.proper_itemScores hround items)
      · exact Score.proper_ofBool _
  | .map fields, reading => by
      simp only [WireValue.score]
      split
      · exact hround _ (WireValue.proper_fieldScores hround fields)
      · exact Score.proper_ofBool _
  | .string _, _ | .number _, _ | .binary _, _ | .boolean _, _ | .null _, _ | .stringSet _, _
  | .numberSet _, _ | .binarySet _, _ => by
      simp only [WireValue.score]
      exact Score.proper_ofBool _

theorem WireValue.proper_itemScores {round : Rat → Rat} (hround : Score.KeepsProper round) :
    ∀ (items : List WireValue) {scope : Scope σ} {place : Place}
      {elements : List (CandidateType σ)} {index : Nat},
      ∀ score ∈ WireValue.itemScores round scope place elements index items, Score.Proper score
  | [], _, _, _, _ => by simp [WireValue.itemScores]
  | item :: rest, _, _, _, _ => by
      rw [WireValue.itemScores, List.forall_mem_cons]
      exact ⟨Score.proper_best (List.forall_mem_map.mpr fun reading _ =>
        item.proper_score hround reading), WireValue.proper_itemScores hround rest⟩

theorem WireValue.proper_fieldScores {round : Rat → Rat} (hround : Score.KeepsProper round) :
    ∀ (fields : List (String × WireValue)) {frame : Frame σ},
      ∀ score ∈ WireValue.fieldScores round frame fields, Score.Proper score
  | [], _ => by simp [WireValue.fieldScores]
  | (key, value) :: rest, frame => by
      rw [WireValue.fieldScores]
      refine List.forall_mem_cons.mpr ⟨?_, WireValue.proper_fieldScores hround rest⟩
      split
      · exact Score.proper_best (List.forall_mem_map.mpr fun reading _ =>
          value.proper_score hround reading)
      · exact frame.proper_unknownScore key

end

/-! ## The choice among candidates -/

namespace Scope

/-- How well a value fits a candidate type, given the scores of the ways to read it. -/
def fit (scope : Scope σ) (place : Place) (isDocument : Bool) (score : Reading σ → Rat)
    (type : CandidateType σ) : Rat :=
  Score.best ((scope.readings place isDocument type).map score)

variable {scope : Scope σ} {place : Place} {isDocument : Bool} {score : Reading σ → Rat}
  {types : List (CandidateType σ)} {type : CandidateType σ} {choice : Choice σ}

theorem fit_le_iff {bound : Rat} (hbound : 0 ≤ bound) :
    scope.fit place isDocument score type ≤ bound ↔
      ∀ reading ∈ scope.readings place isDocument type, score reading ≤ bound := by
  rw [fit, Score.best_le_iff hbound, List.forall_mem_map]

theorem fit_lt_iff {bound : Rat} (hbound : 0 < bound) :
    scope.fit place isDocument score type < bound ↔
      ∀ reading ∈ scope.readings place isDocument type, score reading < bound := by
  rw [fit, Score.best_lt_iff hbound, List.forall_mem_map]

theorem choices_cons {rest : List (CandidateType σ)} :
    scope.choices place (type :: rest) isDocument =
      ((scope.readings place isDocument type).map fun reading => ⟨type, reading⟩) ++
        scope.choices place rest isDocument :=
  List.flatMap_cons

/-- The first best reading belongs to the first candidate that fits best, as the readings of a
candidate stand together. -/
theorem firstHighest_type
    (hfirst : Score.FirstHighest (fun choice => score choice.reading)
      (scope.choices place types isDocument) choice) (hpos : 0 < score choice.reading) :
    scope.fit place isDocument score choice.type = score choice.reading ∧
      Score.FirstHighest (scope.fit place isDocument score) types choice.type := by
  induction types with
  | nil => simpa [choices] using hfirst.mem
  | cons type rest ih =>
      rw [choices_cons] at hfirst
      rcases hfirst.append_cases with ⟨hown, hle⟩ | ⟨hlower, hrest⟩
      · obtain ⟨reading, hreading, rfl⟩ := List.mem_map.mp hown
        have hfit : scope.fit place isDocument score type = score reading := by
          refine (Score.best_eq_iff hpos ?_).mpr (List.mem_map_of_mem hreading)
          refine List.forall_mem_map.mpr fun other hother => ?_
          exact hle ⟨type, other⟩ (List.mem_append_left _ (List.mem_map_of_mem hother))
        refine ⟨hfit, .of_head fun later hlater => ?_⟩
        refine hfit ▸ (fit_le_iff hpos.le).mpr fun other hother => ?_
        exact hle ⟨later, other⟩ (List.mem_append_right _ (mem_choices.mpr ⟨hlater, hother⟩))
      · obtain ⟨hfit, hfirst⟩ := ih hrest
        refine ⟨hfit, hfirst.of_tail (hfit ▸ (fit_lt_iff hpos).mpr fun other hother => ?_)⟩
        exact hlower ⟨type, other⟩ (List.mem_map_of_mem hother)

/-- Nothing is chosen exactly if no candidate fits at all. -/
theorem choose?_eq_none_iff :
    scope.choose? place types isDocument score = none ↔
      ∀ type ∈ types, scope.fit place isDocument score type = 0 := by
  rw [choose?, Option.map_eq_none_iff, Score.firstBest_eq_none_iff, List.forall_mem_map]
  constructor
  · intro hall type htype
    refine Score.best_eq_zero_iff.mpr (List.forall_mem_map.mpr fun reading hreading => ?_)
    exact hall ⟨type, reading⟩ (mem_choices.mpr ⟨htype, hreading⟩)
  · intro hall choice hchoice
    obtain ⟨htype, hreading⟩ := mem_choices.mp hchoice
    exact Score.best_eq_zero_iff.mp (hall _ htype) _ (List.mem_map_of_mem hreading)

/-- What is chosen is the first best choice. -/
theorem firstHighest_choice
    (hchoice : scope.choose? place types isDocument score = some choice) :
    0 < score choice.reading ∧ Score.FirstHighest (fun choice => score choice.reading)
      (scope.choices place types isDocument) choice := by
  rw [choose?, Option.map_eq_some_iff] at hchoice
  obtain ⟨found, hfound, rfl⟩ := hchoice
  obtain ⟨hscore, hpos, hfirst⟩ := Score.firstHighest_of_firstBest hfound
  exact ⟨hscore ▸ hpos, hfirst⟩

/-- Its reading is the first best one of the type. -/
theorem firstHighest_reading
    (hfirst : Score.FirstHighest (fun choice => score choice.reading)
      (scope.choices place types isDocument) choice) :
    Score.FirstHighest score (scope.readings place isDocument choice.type) choice.reading := by
  induction types with
  | nil => simpa [choices] using hfirst.mem
  | cons type rest ih =>
      rw [choices_cons] at hfirst
      rcases hfirst.of_append with hown | hrest
      · obtain ⟨reading, rfl, hreading⟩ := hown.exists_of_map
        exact hreading
      · exact ih hrest

/-- Its type is the first candidate that fits best. -/
theorem firstHighest_of_choose?
    (hchoice : scope.choose? place types isDocument score = some choice) :
    0 < scope.fit place isDocument score choice.type ∧
      Score.FirstHighest (scope.fit place isDocument score) types choice.type := by
  obtain ⟨hpos, hfirst⟩ := firstHighest_choice hchoice
  obtain ⟨hfit, hbest⟩ := firstHighest_type hfirst hpos
  exact ⟨hfit ▸ hpos, hbest⟩

theorem exists_choose?_iff :
    (∃ choice, scope.choose? place types isDocument score = some choice ∧ choice.type = type) ↔
      0 < scope.fit place isDocument score type ∧
        Score.FirstHighest (scope.fit place isDocument score) types type := by
  constructor
  · rintro ⟨choice, hchoice, rfl⟩
    exact firstHighest_of_choose? hchoice
  · rintro ⟨hpos, hfirst⟩
    cases hchoice : scope.choose? place types isDocument score with
    | none => exact absurd (choose?_eq_none_iff.mp hchoice type hfirst.mem) hpos.ne'
    | some choice => exact ⟨choice, rfl, (firstHighest_of_choose? hchoice).2.unique hfirst⟩

end Scope

end ItemMapper
