import ItemMapper.Proofs.Omission.Stripped
import ItemMapper.Proofs.Typing.Highest

/-!
# Scores without undefined parts

An undefined field does not count, but an undefined item of a list counts as zero.  Without its
undefined parts a value therefore fits every type at least as well (`Value.score_stripped`), also
where the averages are rounded (`Score.Sheds.average_le`), and exactly as well if no list in it has
an undefined item.  It then takes the same type (`Scope.agree_resolve_stripped`).  Where types are
told apart, the type that the value takes is also that of the value without its undefined parts
(`Scope.ToldApart.resolve_stripped`).

This is so for schemas that keep all undeclared data or none (`Scope.AllOrNothing`), for which it
does not matter that the items of a list move up.
-/

namespace ItemMapper

variable {σ : Type}

namespace Score

open Binary64

/-! ## Rounded averages -/

theorem best_mono {scores others : List Rat} (hall : List.Forall₂ (· ≤ ·) scores others) :
    best scores ≤ best others := by
  induction hall with
  | nil => exact le_rfl
  | cons hle _ ih =>
      rw [best_cons, best_cons]
      exact max_le_max hle ih

/-- Only zeros are left out, and what stays does not become less. -/
inductive Sheds : List Rat → List Rat → Prop
  | nil : Sheds [] []
  | keep {score other : Rat} {scores others : List Rat} (hle : score ≤ other)
      (hrest : Sheds scores others) : Sheds (score :: scores) (other :: others)
  | drop {scores others : List Rat} (hrest : Sheds scores others) : Sheds (0 :: scores) others

namespace Sheds

variable {scores others : List Rat}

theorem length_le (hsheds : Sheds scores others) : others.length ≤ scores.length := by
  induction hsheds with
  | nil => exact le_rfl
  | keep _ _ ih => exact Nat.succ_le_succ ih
  | drop _ ih => exact ih.trans (Nat.le_succ _)

/-- Zeros make no difference to a rounded sum. -/
theorem sum_le (hsheds : Sheds scores others) (hscores : ∀ score ∈ scores, Proper score)
    (hothers : ∀ score ∈ others, Proper score) :
    ∀ {count counted : Nat} {total greater : Rat}, Running count total → Running counted greater →
      total ≤ greater → scores.foldl (fun total score => nearest (total + score)) total ≤
        others.foldl (fun total score => nearest (total + score)) greater := by
  induction hsheds with
  | nil => exact fun _ _ hle => hle
  | keep hscore _ ih =>
      intro count counted total greater htotal hgreater hle
      rw [List.forall_mem_cons] at hscores hothers
      refine ih hscores.2 hothers.2 (htotal.step hscores.1.nonneg hscores.1.le_one)
        (hgreater.step hothers.1.nonneg hothers.1.le_one) ?_
      exact nearest_mono (add_nonneg htotal.nonneg hscores.1.nonneg) (add_le_add hle hscore)
        (hgreater.add_le hothers.1.le_one)
  | drop _ ih =>
      intro count counted total greater htotal hgreater hle
      rw [List.forall_mem_cons] at hscores
      rw [List.foldl_cons, add_zero, htotal.fixed]
      exact ih hscores.2 hothers htotal hgreater hle

/-- Nor do they make an average greater. -/
theorem average_le (hsheds : Sheds scores others) (hscores : ∀ score ∈ scores, Proper score)
    (hothers : ∀ score ∈ others, Proper score) :
    average rounded scores ≤ average rounded others := by
  by_cases hothersEmpty : others = []
  · subst hothersEmpty
    exact (keepsProper_rounded scores hscores).le_one
  have hcounted : 0 < others.length := List.length_pos_of_ne_nil hothersEmpty
  have hcount : 0 < scores.length := hcounted.trans_le hsheds.length_le
  have hsum := Running.sum hscores running_zero
  have hgreater := Running.sum hothers running_zero
  rw [Nat.zero_add] at hsum hgreater
  rw [average_rounded (List.length_pos_iff.mp hcount), average_rounded hothersEmpty]
  refine nearest_mono (hsum.quotient hcount).nonneg ?_
    ((hgreater.quotient hcounted).le_one.trans (by norm_num))
  have hle := hsheds.sum_le hscores hothers running_zero running_zero le_rfl
  generalize scores.foldl (fun total score => nearest (total + score)) 0 = total at hsum hle ⊢
  generalize others.foldl (fun total score => nearest (total + score)) 0 = greater
    at hgreater hle ⊢
  calc total / scores.length
      ≤ total / others.length := by
        refine div_le_div_of_nonneg_left hsum.nonneg (by exact_mod_cast hcounted) ?_
        exact_mod_cast hsheds.length_le
    _ ≤ greater / others.length := div_le_div_of_nonneg_right hle (Nat.cast_nonneg _)

end Sheds

end Score

/-! ## Scalars -/

/-- A value without members. -/
def Value.isScalar : Value → Bool
  | .undefined | .list _ | .set _ | .map _ => false
  | _ => true

/-- A constant of this type, if it is one, is a scalar. -/
def CandidateType.ScalarConstant (type : CandidateType σ) : Prop :=
  ∀ value, type = .constant value → value.isScalar = true

namespace Value

variable {type : CandidateType σ} (hconstant : type.ScalarConstant)

include hconstant

theorem scalarScore_stripped (value : Value) :
    value.stripped.scalarScore type = value.scalarScore type := by
  cases type with
  | constant expected =>
      have hscalar := hconstant expected rfl
      cases value with
      | list items => cases expected <;> first | rfl | contradiction
      | set members => cases expected <;> first | rfl | contradiction
      | map fields => cases expected <;> first | rfl | contradiction
      | _ => rfl
  | primitive kind => cases kind <;> cases value <;> rfl
  | _ => cases value <;> rfl

theorem scalarScore_undefined : Value.undefined.scalarScore type = 0 := by
  cases type with
  | constant expected =>
      have hscalar := hconstant expected rfl
      cases expected <;> first | rfl | contradiction
  | primitive kind => cases kind <;> rfl
  | _ => rfl

end Value

/-! ## Schemas -/

namespace Scope

/-- Every root schema that can be reached keeps all undeclared data or none, and constants are
scalars.  The schemas are those that can be built, so that sets hold scalars. -/
structure AllOrNothing (start : Scope σ) : Prop where
  wellFormed : ∀ scope schema, start.Reaches scope schema → schema.WellFormed
  keepUnknown : ∀ scope schema, start.Reaches scope schema →
    scope.root.keepUnknown = .disabled ∨ scope.root.keepUnknown = .everything
  scalarSets : ∀ scope element, start.Uses scope (.set element) → element.isSetElement = true
  scalarConstants : ∀ scope type, start.Uses scope type → type.ScalarConstant

namespace AllOrNothing

variable {start scope : Scope σ} (hstart : start.AllOrNothing)

include hstart

theorem unknownMatch_eq {schema : Schema σ} (hreaches : start.Reaches scope schema)
    (near far : Place) : scope.unknownMatch near = scope.unknownMatch far := by
  unfold unknownMatch
  rcases hstart.keepUnknown scope schema hreaches with hkeep | hkeep <;> rw [hkeep] <;> rfl

theorem unknownScore_eq {schema : Schema σ} (hreaches : start.Reaches scope schema)
    (near far : Place) (key : String) :
    Frame.unknownScore ⟨scope, near, schema⟩ key = Frame.unknownScore ⟨scope, far, schema⟩ key := by
  unfold Frame.unknownScore
  rw [hstart.unknownMatch_eq hreaches (near.child key) (far.child key)]

/-- All places are alike. -/
theorem blindTo : start.reach.BlindTo fun _ _ => True where
  wellFormed := hstart.wellFormed
  scalarSets := hstart.scalarSets
  child := fun _ _ => trivial
  enter := fun _ => trivial
  restart := fun _ => trivial
  unknownMatch := fun _ _ _ hreaches => hstart.unknownMatch_eq hreaches _ _

end AllOrNothing

/-- Two choices differ only in the places where the value is read. -/
abbrev SameChoice (start : Scope σ) : Choice σ → Choice σ → Prop :=
  start.reach.SameChoice fun _ _ => True

/-- From all places a type leads to the same document, or to none. -/
theorem enter?_anywhere (scope : Scope σ) (type : CandidateType σ) (near far : Place) :
    (∃ inner schema nearer farther, scope.Opens type inner schema ∧
      scope.enter? near type = some ⟨inner, nearer, schema⟩ ∧
        scope.enter? far type = some ⟨inner, farther, schema⟩) ∨
      scope.enter? near type = none ∧ scope.enter? far type = none := by
  have hplaces : (fun _ _ => True : Place → Place → Prop) near far := trivial
  rcases enter?_at (fun _ _ => True) (fun _ => trivial) hplaces scope type with
    ⟨inner, schema, nearer, farther, hopens, hnear, hfar, -⟩ | hnone
  · exact .inl ⟨inner, schema, nearer, farther, hopens, hnear, hfar⟩
  · exact .inr hnone

/-- The types of an attribute can be reached if its schema can be. -/
theorem Reaches.uses_of_nativeAttribute? {start scope : Scope σ} {schema : Schema σ}
    (hreaches : start.Reaches scope schema) {key : String} {field : Attribute σ}
    (hfield : schema.nativeAttribute? key = some field) :
    ∀ type ∈ field.types, start.Uses scope type :=
  fun _ htype => .attribute hreaches (SchemaOf.mem_of_nativeAttribute? hfield) htype

section Readings

variable {start scope : Scope σ} {types : List (CandidateType σ)}
  (huses : ∀ type ∈ types, start.Uses scope type)

include huses

theorem choices_anywhere (near far : Place) (isDocument : Bool) :
    List.Forall₂ start.SameChoice (scope.choices near types isDocument)
      (scope.choices far types isDocument) := by
  have hsteps : Place.Compatible fun _ _ => True :=
    ⟨fun _ _ => trivial, fun _ => trivial, fun _ => trivial⟩
  exact choices_at hsteps trivial huses isDocument

theorem readings_anywhere (near far : Place) (isDocument : Bool) :
    List.Forall₂ (start.reach.SameReading fun _ _ => True)
      (types.flatMap (scope.readings near isDocument))
      (types.flatMap (scope.readings far isDocument)) := by
  rw [readings_eq_map, readings_eq_map, List.forall₂_map_left_iff, List.forall₂_map_right_iff]
  exact (choices_anywhere huses near far isDocument).imp fun _ _ hsame => hsame.reading

end Readings

end Scope

/-! ## Scores of values -/

namespace Value

/-- Without its undefined parts the value fits every type at least as well, and as well as before
if no list has an undefined item. -/
def GainsScore (start : Scope σ) (value : Value) : Prop :=
  ∀ scope type near far, start.Uses scope type →
    value.score Score.rounded ⟨scope, near, type⟩ ≤
        value.stripped.score Score.rounded ⟨scope, far, type⟩ ∧
      (value.ListsDefined → value.score Score.rounded ⟨scope, near, type⟩ =
        value.stripped.score Score.rounded ⟨scope, far, type⟩)

variable {start scope : Scope σ} {types : List (CandidateType σ)}

theorem GainsScore.of_sameReading {value : Value} (hvalue : value.GainsScore start)
    {reading other : Reading σ} (hsame : start.reach.SameReading (fun _ _ => True) reading other) :
    value.score Score.rounded reading ≤ value.stripped.score Score.rounded other ∧
      (value.ListsDefined →
        value.score Score.rounded reading = value.stripped.score Score.rounded other) := by
  obtain ⟨inner, place, type⟩ := reading
  obtain ⟨_, away, _⟩ := other
  obtain ⟨rfl, rfl, hreached, -⟩ := hsame
  exact hvalue _ _ _ _ hreached

theorem GainsScore.best {value : Value} (hvalue : value.GainsScore start)
    (huses : ∀ type ∈ types, start.Uses scope type) (near far : Place) :
    Score.best ((types.flatMap (scope.readings near value.isDocument)).map
        (value.score Score.rounded)) ≤
      Score.best ((types.flatMap (scope.readings far value.stripped.isDocument)).map
        (value.stripped.score Score.rounded)) ∧
    (value.ListsDefined →
      Score.best ((types.flatMap (scope.readings near value.isDocument)).map
          (value.score Score.rounded)) =
        Score.best ((types.flatMap (scope.readings far value.stripped.isDocument)).map
          (value.stripped.score Score.rounded))) := by
  rw [isDocument_stripped]
  have hreadings := Scope.readings_anywhere huses near far value.isDocument
  constructor
  · refine Score.best_mono ?_
    rw [List.forall₂_map_left_iff, List.forall₂_map_right_iff]
    exact hreadings.imp fun _ _ hsame => (hvalue.of_sameReading hsame).1
  · intro hdefined
    congr 1
    refine map_eq_map_of_related (fun reading other hsame => ?_) hreadings
    exact (hvalue.of_sameReading hsame).2 hdefined

/-- An undefined item counts as zero. -/
theorem best_undefined (hstart : start.AllOrNothing)
    (huses : ∀ type ∈ types, start.Uses scope type) (place : Place) :
    Score.best ((types.flatMap (scope.readings place Value.undefined.isDocument)).map
      (Value.undefined.score Score.rounded)) = 0 := by
  refine Score.best_eq_zero (List.forall_mem_map.mpr fun reading hreading => ?_)
  have hsame := Scope.readings_anywhere huses place place Value.undefined.isDocument
  obtain ⟨_, -, hreached⟩ := exists_related_left hsame hreading
  rw [score, scalarScore_undefined (hstart.scalarConstants _ _ hreached.reached)]
  all_goals simp

section Members

variable {element : CandidateType σ} (hconstant : element.ScalarConstant)

include hconstant

theorem map_scalarScore_stripped (members : List Value) :
    (strippedMembers members).map (fun member => Score.best [member.scalarScore element]) =
      members.map fun member => Score.best [member.scalarScore element] := by
  induction members with
  | nil => rfl
  | cons member rest ih =>
      rw [strippedMembers, List.map_cons, List.map_cons, scalarScore_stripped hconstant, ih]

theorem sheds_scalarScore (items : List Value) :
    Score.Sheds (items.map fun item => Score.best [item.scalarScore element])
      ((strippedItems items).map fun item => Score.best [item.scalarScore element]) := by
  induction items with
  | nil => exact .nil
  | cons item rest ih =>
      by_cases hundefined : item.isUndefined = true
      · obtain rfl := eq_undefined hundefined
        rw [strippedItems_cons_of_undefined rfl, List.map_cons, scalarScore_undefined hconstant]
        exact .drop ih
      · rw [strippedItems_cons_of_defined (by simpa using hundefined), List.map_cons,
          List.map_cons, scalarScore_stripped hconstant]
        exact .keep le_rfl ih

end Members

mutual

theorem score_stripped {start : Scope σ} (hstart : start.AllOrNothing) :
    ∀ value : Value, value.GainsScore start
  | .list items => by
      intro scope type near far huses
      cases type with
      | array elements =>
          have helements : ∀ type ∈ elements, start.Uses scope type :=
            fun _ htype => .element huses htype
          have hitems := itemScores_stripped hstart items helements near far 0 0
          simp only [stripped, score]
          constructor
          · exact hitems.1.average_le (proper_itemScores Score.keepsProper_rounded _)
              (proper_itemScores Score.keepsProper_rounded _)
          · exact fun hdefined => by rw [hitems.2 hdefined]
      | set element =>
          have helement := hstart.scalarSets scope element huses
          have hconstant : element.ScalarConstant := by
            rintro value rfl
            cases helement
          simp only [stripped, score]
          constructor
          · refine Score.Sheds.average_le ?_ (proper_memberScores Score.keepsProper_rounded _)
              (proper_memberScores Score.keepsProper_rounded _)
            rw [memberScores_eq_map _ helement, memberScores_eq_map _ helement]
            exact sheds_scalarScore hconstant items
          · intro hdefined
            rw [strippedItems_eq fun item hitem => (hdefined.forall_mem item hitem).1,
              memberScores_eq_map _ helement, memberScores_eq_map _ helement,
              map_scalarScore_stripped hconstant]
      | _ =>
          have hsame := scalarScore_stripped (hstart.scalarConstants _ _ huses) (.list items)
          simp only [stripped, score] at hsame ⊢
          exact ⟨hsame.ge, fun _ => hsame.symm⟩
  | .set members => by
      intro scope type near far huses
      cases type with
      | set element =>
          have helement := hstart.scalarSets scope element huses
          have hconstant : element.ScalarConstant := by
            rintro value rfl
            cases helement
          simp only [stripped, score, memberScores_eq_map _ helement,
            map_scalarScore_stripped hconstant]
          exact ⟨le_rfl, fun _ => trivial⟩
      | _ =>
          have hsame := scalarScore_stripped (hstart.scalarConstants _ _ huses) (.set members)
          simp only [stripped, score] at hsame ⊢
          exact ⟨hsame.ge, fun _ => hsame.symm⟩
  | .map fields => by
      intro scope type near far huses
      simp only [stripped, score, Reading.enter?]
      obtain ⟨inner, schema, nearer, farther, hopens, hnear, hfar⟩ | ⟨hnear, hfar⟩ :=
        scope.enter?_anywhere type near far
      · have hfields := fieldScores_stripped hstart fields (.inside huses hopens) nearer farther
        simp only [hnear, hfar]
        constructor
        · exact hfields.1.average_le (proper_fieldScores Score.keepsProper_rounded _)
            (proper_fieldScores Score.keepsProper_rounded _)
        · exact fun hdefined => by rw [hfields.2 hdefined]
      · have hsame := scalarScore_stripped (hstart.scalarConstants _ _ huses) (.map fields)
        simp only [stripped, hnear, hfar] at hsame ⊢
        exact ⟨hsame.ge, fun _ => hsame.symm⟩
  | .undefined | .null | .bool _ | .number _ | .string _ | .binary _ | .date _ => by
      intro scope type near far huses
      simp only [stripped, score]
      exact ⟨le_rfl, fun _ => trivial⟩

theorem itemScores_stripped {start : Scope σ} (hstart : start.AllOrNothing) :
    ∀ (items : List Value) {scope : Scope σ} {elements : List (CandidateType σ)},
      (∀ type ∈ elements, start.Uses scope type) → ∀ (near far : Place) (first second : Nat),
        Score.Sheds (itemScores Score.rounded scope near elements first items)
            (itemScores Score.rounded scope far elements second (strippedItems items)) ∧
          (ItemsDefined items → itemScores Score.rounded scope near elements first items =
            itemScores Score.rounded scope far elements second (strippedItems items))
  | [], _, _, _, _, _, _, _ => ⟨.nil, fun _ => rfl⟩
  | item :: rest, scope, elements, helements, near, far, first, second => by
      by_cases hundefined : item.isUndefined = true
      · obtain rfl := eq_undefined hundefined
        have hrest := itemScores_stripped hstart rest helements near far (first + 1) second
        rw [strippedItems_cons_of_undefined rfl, itemScores, best_undefined hstart helements]
        exact ⟨.drop hrest.1, fun hdefined => absurd hdefined.1 (by simp [isUndefined])⟩
      · have hrest := itemScores_stripped hstart rest helements near far (first + 1) (second + 1)
        have hbest := (score_stripped hstart item).best helements (near.item first)
          (far.item second)
        rw [strippedItems_cons_of_defined (by simpa using hundefined), itemScores, itemScores]
        exact ⟨.keep hbest.1 hrest.1, fun hdefined =>
          congrArg₂ _ (hbest.2 hdefined.2.1) (hrest.2 hdefined.2.2)⟩

theorem fieldScores_stripped {start : Scope σ} (hstart : start.AllOrNothing) :
    ∀ (fields : List (String × Value)) {scope : Scope σ} {schema : Schema σ},
      start.Reaches scope schema → ∀ near far : Place,
        Score.Sheds (fieldScores Score.rounded ⟨scope, near, schema⟩ fields)
            (fieldScores Score.rounded ⟨scope, far, schema⟩ (strippedFields fields)) ∧
          (FieldsDefined fields → fieldScores Score.rounded ⟨scope, near, schema⟩ fields =
            fieldScores Score.rounded ⟨scope, far, schema⟩ (strippedFields fields))
  | [], _, _, _, _, _ => ⟨.nil, fun _ => rfl⟩
  | (key, value) :: rest, scope, schema, hreaches, near, far => by
      have hrest := fieldScores_stripped hstart rest hreaches near far
      by_cases hundefined : value.isUndefined = true
      · rw [strippedFields_cons_of_undefined hundefined, fieldScores, if_pos hundefined]
        exact ⟨hrest.1, fun hdefined => hrest.2 hdefined.2⟩
      · have hdefined : value.isUndefined = false := by simpa using hundefined
        rw [strippedFields_cons_of_defined hdefined, fieldScores, fieldScores,
          isUndefined_stripped, if_neg hundefined, if_neg hundefined]
        dsimp only
        cases hfield : schema.nativeAttribute? key with
        | none =>
            have hunknown := hstart.unknownScore_eq hreaches near far key
            exact ⟨.keep hunknown.le hrest.1, fun hlists =>
              congrArg₂ _ hunknown (hrest.2 hlists.2)⟩
        | some field =>
            have hbest := (score_stripped hstart value).best
              (hreaches.uses_of_nativeAttribute? hfield) (near.child key) (far.child key)
            exact ⟨.keep hbest.1 hrest.1, fun hlists =>
              congrArg₂ _ (hbest.2 hlists.1) (hrest.2 hlists.2)⟩

end

end Value

/-! ## The chosen type -/

namespace Scope

variable {start scope : Scope σ} {types : List (CandidateType σ)} {value : Value}
  {near : Place}

/-- Where no list has an undefined item, the same type is chosen without undefined fields. -/
theorem agree_resolve_stripped (hstart : start.AllOrNothing)
    (huses : ∀ type ∈ types, start.Uses scope type) (hdefined : value.ListsDefined)
    (near far : Place) :
    Except.Agree start.SameChoice (scope.resolve near types value)
      (scope.resolve far types value.stripped) := by
  refine agree_resolve ?_
  rw [Value.isDocument_stripped]
  exact (choices_anywhere huses near far value.isDocument).imp fun _ _ hsame =>
    ⟨hsame, ((Value.score_stripped hstart value).of_sameReading hsame.reading).2 hdefined⟩

/-- A type that is chosen stays chosen, if no other one takes such a value. -/
theorem ToldApart.resolve_stripped (hapart : scope.ToldApart types) (hstart : start.AllOrNothing)
    (huses : ∀ type ∈ types, start.Uses scope type) {choice : Choice σ}
    (hresolve : scope.resolve near types value = .ok choice) (far : Place) :
    ∃ other, scope.resolve far types value.stripped = .ok other ∧
      start.SameChoice choice other := by
  obtain ⟨hchoice, hscore⟩ := hapart.resolve_iff.mp hresolve
  obtain ⟨other, hother, hsame⟩ :=
    exists_related_left (choices_anywhere huses near far value.isDocument) hchoice
  refine ⟨other, hapart.resolve_iff.mpr ⟨by rwa [Value.isDocument_stripped], ?_⟩, hsame⟩
  exact hscore.trans_le
    ((Value.score_stripped hstart value).of_sameReading hsame.reading).1

end Scope

end ItemMapper
