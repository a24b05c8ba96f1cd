import ItemMapper.Proofs.Plain.Codec

/-!
# Types that are told apart

A type takes native values of some kinds and holds stored values of some kinds; a score above zero
shows that the value is of such a kind (`Value.mem_takes_of_score`, `WireValue.mem_holds_of_score`).
Types are told apart if no two of them share a kind.  Then at most one of them scores above zero,
so that the choice of a type does not depend on the order of the candidates or on how the scores
compare: it is the one candidate that fits (`Scope.ToldApart.resolve_iff`), and its score is the
best one (`Scope.ToldApart.best_eq`).  A native value and the value that it is stored as are read in
the same way as soon as one type has the kinds of both.

A reference to a model stands for several types where it may be a hash key, so what is told apart
are the readings of the candidates (`Scope.ToldApart`).  A single candidate that is no reference is
always told apart.
-/

namespace ItemMapper

variable {σ : Type}

/-! ## Kinds of values -/

namespace CandidateType

/-- The kinds of native values that have a type, by name. -/
def takes : CandidateType σ → List String
  | .primitive kind => [kind.typeName]
  | .date _ => ["date", "number"]
  | .object _ | .self | .model _ => ["object"]
  | .array _ => ["array"]
  | .set _ => ["set", "array"]
  | .combine _ _ => ["string"]
  | .constant value => [value.typeName]

/-- The kinds of stored values that have a type. -/
def holds : CandidateType σ → List WireType
  | .primitive .string | .combine _ _ | .date .iso => [.string]
  | .primitive .number | .date .milliseconds | .date .seconds => [.number]
  | .primitive .binary => [.binary]
  | .primitive .boolean => [.boolean]
  | .primitive .null => [.null]
  | .object _ | .self | .model _ => [.map]
  | .array _ => [.list]
  | .set element => element.setElement?.toList.map SetElement.wireType
  | .constant value => value.natural?.toList.map WireValue.wireType

/-- No value is of both types, on either side. -/
structure Apart (first second : CandidateType σ) : Prop where
  takes : first.takes.Disjoint second.takes
  holds : first.holds.Disjoint second.holds

theorem Apart.symm {first second : CandidateType σ} (hapart : first.Apart second) :
    second.Apart first :=
  ⟨hapart.takes.symm, hapart.holds.symm⟩

end CandidateType

theorem Score.ofBool_pos {fits : Bool} : 0 < ofBool fits ↔ fits = true := by
  cases fits <;> simp [ofBool]

theorem Score.ofBool_ne_zero {fits : Bool} : ofBool fits ≠ 0 ↔ fits = true := by
  cases fits <;> simp [ofBool]

theorem Value.typeName_eq_of_equal {a b : Value} (hequal : a.equal b = true) :
    a.typeName = b.typeName := by
  cases a <;> cases b <;> simp_all [Value.equal, Value.typeName]

theorem Value.mem_takes_of_scalarScore {value : Value} {type : CandidateType σ}
    (hscore : value.scalarScore type ≠ 0) : value.typeName ∈ type.takes := by
  unfold Value.scalarScore at hscore
  rw [Score.ofBool_ne_zero] at hscore
  cases type with
  | constant expected =>
      have hequal : expected.equal value = true := hscore
      simp [CandidateType.takes, Value.typeName_eq_of_equal hequal]
  | primitive kind => cases kind <;> cases value <;> simp_all [CandidateType.takes] <;> rfl
  | _ => cases value <;> simp_all [CandidateType.takes, Value.typeName]

theorem WireValue.mem_holds_of_scalarScore {stored : WireValue} {type : CandidateType σ}
    (hscore : 0 < stored.scalarScore type) : stored.wireType ∈ type.holds := by
  unfold WireValue.scalarScore at hscore
  rw [Score.ofBool_pos] at hscore
  cases type with
  | constant expected =>
      have hnatural : expected.natural? = some stored := by simpa using hscore
      simp [CandidateType.holds, hnatural]
  | set element =>
      obtain ⟨kind, hkind, hset⟩ := (Option.any_eq_true _ _).mp hscore
      have hwire : stored.wireType = kind.wireType := by simpa [WireValue.isSetOf] using hset
      simp [CandidateType.holds, hkind, hwire]
  | date storage =>
      cases storage <;> cases stored <;>
        simp_all [CandidateType.holds, WireValue.date?, WireValue.wireType]
  | primitive kind =>
      cases kind <;> cases stored <;> simp_all [CandidateType.holds, WireValue.wireType]
  | _ => cases stored <;> simp_all [CandidateType.holds, WireValue.wireType]

/-- The type of a document takes documents. -/
theorem Scope.mem_of_enter? {scope : Scope σ} {place : Place} {type : CandidateType σ}
    {frame : Frame σ} (henter : scope.enter? place type = some frame) :
    type.takes = ["object"] ∧ type.holds = [.map] := by
  cases type <;> simp_all [Scope.enter?, CandidateType.takes, CandidateType.holds]

namespace Value

variable {value : Value} {reading : Reading σ} {round : Rat → Rat}

/-- A value that has a score is of a kind that the type takes. -/
theorem mem_takes_of_score_ne_zero (hscore : value.score round reading ≠ 0) :
    value.typeName ∈ reading.type.takes := by
  cases value with
  | map fields =>
      rw [Value.score] at hscore
      split at hscore
      case h_1 frame henter => simp [(Scope.mem_of_enter? henter).1, Value.typeName]
      case h_2 => exact mem_takes_of_scalarScore hscore
  | list items =>
      rw [Value.score] at hscore
      split at hscore
      case h_1 elements htype => simp [htype, CandidateType.takes, Value.typeName]
      case h_2 element htype => simp [htype, CandidateType.takes, Value.typeName]
      case h_3 => exact mem_takes_of_scalarScore hscore
  | set members =>
      rw [Value.score] at hscore
      split at hscore
      case h_1 element htype => simp [htype, CandidateType.takes, Value.typeName]
      case h_2 => exact mem_takes_of_scalarScore hscore
  | _ => exact mem_takes_of_scalarScore (by simpa [Value.score] using hscore)

/-- A value that fits a type is of a kind that the type takes. -/
theorem mem_takes_of_score (hscore : 0 < value.score round reading) :
    value.typeName ∈ reading.type.takes :=
  mem_takes_of_score_ne_zero hscore.ne'

end Value

/-- A stored value that fits a type is of a kind that the type holds. -/
theorem WireValue.mem_holds_of_score {stored : WireValue} {reading : Reading σ} {round : Rat → Rat}
    (hscore : 0 < stored.score round reading) : stored.wireType ∈ reading.type.holds := by
  cases stored with
  | map fields =>
      rw [WireValue.score] at hscore
      split at hscore
      case h_1 frame henter => simp [(Scope.mem_of_enter? henter).2, WireValue.wireType]
      case h_2 => exact mem_holds_of_scalarScore hscore
  | list items =>
      rw [WireValue.score] at hscore
      split at hscore
      case h_1 elements htype => simp [htype, CandidateType.holds, WireValue.wireType]
      case h_2 => exact mem_holds_of_scalarScore hscore
  | _ => exact mem_holds_of_scalarScore (by simpa [WireValue.score] using hscore)

/-! ## At most one score above zero -/

namespace Score

variable {α : Type}

theorem firstBest_eq_none {alternatives : List (α × Rat)}
    (hnone : ∀ alternative ∈ alternatives, alternative.2 ≤ 0) : firstBest alternatives = none := by
  induction alternatives with
  | nil => rfl
  | cons alternative rest ih =>
      obtain ⟨first, score⟩ := alternative
      have hscore : ¬ 0 < score := not_lt.mpr (hnone (first, score) (by simp))
      rw [firstBest, ih fun other hother => hnone other (by simp [hother])]
      simp [hscore]

/-- An alternative is the first best if it is the only one above zero. -/
theorem firstBest_eq_some {alternatives : List (α × Rat)} {best : α × Rat}
    (honly : alternatives.Pairwise fun a b => ¬ (0 < a.2 ∧ 0 < b.2)) (hbest : best ∈ alternatives)
    (hpos : 0 < best.2) : firstBest alternatives = some best := by
  induction alternatives with
  | nil => simp at hbest
  | cons alternative rest ih =>
      obtain ⟨hfirst, hrest⟩ := List.pairwise_cons.mp honly
      rcases List.mem_cons.mp hbest with rfl | hbest
      · have hnone : firstBest rest = none := by
          apply firstBest_eq_none
          exact fun other hother => not_lt.mp fun habove => hfirst other hother ⟨hpos, habove⟩
        rw [firstBest, hnone]
        simp [hpos]
      · have hzero : alternative.2 ≤ 0 := not_lt.mp fun habove => hfirst best hbest ⟨habove, hpos⟩
        rw [firstBest, ih hrest hbest]
        simp [hzero.trans_lt hpos]

theorem pos_of_firstBest {alternatives : List (α × Rat)} {best : α × Rat}
    (hbest : firstBest alternatives = some best) : 0 < best.2 := by
  induction alternatives generalizing best with
  | nil => simp [firstBest] at hbest
  | cons alternative rest ih =>
      obtain ⟨first, score⟩ := alternative
      rw [firstBest] at hbest
      split at hbest
      case h_1 other higher hrest =>
        have hhigher : 0 < higher := ih hrest
        split at hbest
        case isTrue =>
          obtain rfl := Option.some.inj hbest
          exact hhigher
        case isFalse hge =>
          obtain rfl := Option.some.inj hbest
          exact hhigher.trans_le (not_lt.mp hge)
      case h_2 =>
        split at hbest
        case isTrue hpos =>
          obtain rfl := Option.some.inj hbest
          exact hpos
        case isFalse => simp at hbest

theorem best_eq_zero {scores : List Rat} (hnone : ∀ score ∈ scores, score ≤ 0) :
    best scores = 0 := by
  induction scores with
  | nil => rfl
  | cons score rest ih =>
      rw [best, ih fun other hother => hnone other (by simp [hother])]
      simp [not_lt.mpr (hnone score (by simp))]

/-- A score is the best if it is the only one above zero. -/
theorem best_eq {scores : List Rat} {score : Rat}
    (honly : scores.Pairwise fun a b => ¬ (0 < a ∧ 0 < b)) (hscore : score ∈ scores)
    (hpos : 0 < score) : best scores = score := by
  induction scores with
  | nil => simp at hscore
  | cons first rest ih =>
      obtain ⟨hfirst, hrest⟩ := List.pairwise_cons.mp honly
      rcases List.mem_cons.mp hscore with rfl | hscore
      · have hzero : best rest = 0 := by
          apply best_eq_zero
          exact fun other hother => not_lt.mp fun habove => hfirst other hother ⟨hpos, habove⟩
        rw [best, hzero]
        simp [hpos]
      · have hzero : first ≤ 0 := not_lt.mp fun habove => hfirst score hscore ⟨habove, hpos⟩
        rw [best, ih hrest hscore]
        simp [not_lt.mpr (hzero.trans hpos.le)]

end Score

/-! ## The choice among told-apart types -/

namespace Scope

variable {scope : Scope σ} {place : Place} {types : List (CandidateType σ)} {value : Value}
  {stored : WireValue} {isDocument : Bool} {choice other : Choice σ}

theorem mem_choices : choice ∈ scope.choices place types isDocument ↔
    choice.type ∈ types ∧ choice.reading ∈ scope.readings place isDocument choice.type := by
  obtain ⟨type, reading⟩ := choice
  simp only [choices, List.mem_flatMap, List.mem_map, Choice.mk.injEq]
  constructor
  · rintro ⟨_, htype, _, hreading, rfl, rfl⟩
    exact ⟨htype, hreading⟩
  · rintro ⟨htype, hreading⟩
    exact ⟨type, htype, reading, hreading, rfl, rfl⟩

theorem readings_eq_map : types.flatMap (scope.readings place isDocument) =
    (scope.choices place types isDocument).map Choice.reading := by
  simp [choices, List.map_flatMap, Function.comp_def]

/-- What is chosen scores above zero. -/
theorem of_choose? {score : Reading σ → Rat}
    (hchoice : scope.choose? place types isDocument score = some choice) :
    choice ∈ scope.choices place types isDocument ∧ 0 < score choice.reading := by
  obtain ⟨best, hbest, rfl⟩ := Option.map_eq_some_iff.mp hchoice
  obtain ⟨candidate, hcandidate, rfl⟩ := List.mem_map.mp (Score.mem_of_firstBest hbest)
  exact ⟨hcandidate, Score.pos_of_firstBest hbest⟩

theorem resolve_eq_ok_iff : scope.resolve place types value = .ok choice ↔
    scope.choose? place types value.isDocument (value.score Score.rounded) = some choice := by
  unfold resolve
  cases scope.choose? place types value.isDocument (value.score Score.rounded) <;> simp

theorem mem_of_resolveStored (hchoice : scope.resolveStored place types stored = .ok choice) :
    choice.type ∈ types := by
  unfold resolveStored at hchoice
  split at hchoice
  · next hchoose =>
      obtain rfl := Except.ok.inj hchoice
      exact (mem_choices.mp (of_choose? hchoose).1).1
  · simp at hchoice

theorem pos_of_resolveStored (hchoice : scope.resolveStored place types stored = .ok choice) :
    0 < stored.score Score.rounded choice.reading := by
  unfold resolveStored at hchoice
  split at hchoice
  · next hchoose =>
      obtain rfl := Except.ok.inj hchoice
      exact (of_choose? hchoose).2
  · simp at hchoice

/-- No value has two of the types, whatever place it is looked at. -/
def ToldApart (scope : Scope σ) (types : List (CandidateType σ)) : Prop :=
  ∀ place isDocument, (scope.choices place types isDocument).Pairwise fun first second =>
    first.reading.type.Apart second.reading.type

/-- A type that is no reference to a model is always told apart from the others. -/
theorem toldApart_singleton {type : CandidateType σ} (htype : ∀ name, type ≠ .model name) :
    scope.ToldApart [type] := by
  intro place isDocument
  simp [choices, readings_of_ne_model htype]

namespace ToldApart

variable (hapart : scope.ToldApart types)

include hapart

theorem apart_of_ne (hchoice : choice ∈ scope.choices place types isDocument)
    (hother : other ∈ scope.choices place types isDocument) (hne : choice ≠ other) :
    choice.reading.type.Apart other.reading.type := by
  have hsymm : Std.Symm fun first second : Choice σ =>
      first.reading.type.Apart second.reading.type := ⟨fun _ _ h => h.symm⟩
  exact (hapart place isDocument).forall hchoice hother hne

/-- Two choices with a common kind of native values are the same. -/
theorem eq_of_takes (hchoice : choice ∈ scope.choices place types isDocument)
    (hother : other ∈ scope.choices place types isDocument) {name : String}
    (hname : name ∈ choice.reading.type.takes) (hotherName : name ∈ other.reading.type.takes) :
    choice = other := by
  by_contra hne
  exact (hapart.apart_of_ne hchoice hother hne).takes hname hotherName

/-- So are two choices with a common kind of stored values. -/
theorem eq_of_holds (hchoice : choice ∈ scope.choices place types isDocument)
    (hother : other ∈ scope.choices place types isDocument) {kind : WireType}
    (hkind : kind ∈ choice.reading.type.holds) (hotherKind : kind ∈ other.reading.type.holds) :
    choice = other := by
  by_contra hne
  exact (hapart.apart_of_ne hchoice hother hne).holds hkind hotherKind

theorem pairwise_score (round : Rat → Rat) :
    (scope.choices place types value.isDocument).Pairwise fun first second =>
      ¬ (0 < value.score round first.reading ∧ 0 < value.score round second.reading) := by
  refine (hapart place value.isDocument).imp fun hpair hscores => ?_
  exact hpair.takes (Value.mem_takes_of_score hscores.1) (Value.mem_takes_of_score hscores.2)

theorem pairwise_storedScore (round : Rat → Rat) :
    (scope.choices place types stored.isDocument).Pairwise fun first second =>
      ¬ (0 < stored.score round first.reading ∧ 0 < stored.score round second.reading) := by
  refine (hapart place stored.isDocument).imp fun hpair hscores => ?_
  exact hpair.holds (WireValue.mem_holds_of_score hscores.1)
    (WireValue.mem_holds_of_score hscores.2)

/-- A value takes the one type that it fits. -/
theorem resolve_iff : scope.resolve place types value = .ok choice ↔
    choice ∈ scope.choices place types value.isDocument ∧
      0 < value.score Score.rounded choice.reading := by
  rw [resolve_eq_ok_iff]
  refine ⟨of_choose?, fun hchoice => ?_⟩
  rw [choose?, Score.firstBest_eq_some (List.pairwise_map.mpr (hapart.pairwise_score Score.rounded))
    (List.mem_map.mpr ⟨choice, hchoice.1, rfl⟩) hchoice.2]
  rfl

theorem resolveStored_iff : scope.resolveStored place types stored = .ok choice ↔
    choice ∈ scope.choices place types stored.isDocument ∧
      0 < stored.score Score.rounded choice.reading := by
  have hchoose : scope.resolveStored place types stored = .ok choice ↔
      scope.choose? place types stored.isDocument (stored.score Score.rounded) = some choice := by
    unfold resolveStored
    cases scope.choose? place types stored.isDocument (stored.score Score.rounded) <;> simp
  rw [hchoose]
  refine ⟨of_choose?, fun hchoice => ?_⟩
  rw [choose?, Score.firstBest_eq_some
    (List.pairwise_map.mpr (hapart.pairwise_storedScore Score.rounded))
    (List.mem_map.mpr ⟨choice, hchoice.1, rfl⟩) hchoice.2]
  rfl

/-- The best score of a value is that of the type that it takes. -/
theorem best_eq (hchoice : choice ∈ scope.choices place types value.isDocument)
    (hpos : 0 < value.score Score.rounded choice.reading) :
    Score.best ((types.flatMap (scope.readings place value.isDocument)).map
      (value.score Score.rounded)) = value.score Score.rounded choice.reading := by
  rw [readings_eq_map, List.map_map]
  exact Score.best_eq (List.pairwise_map.mpr (hapart.pairwise_score Score.rounded))
    (List.mem_map.mpr ⟨choice, hchoice, rfl⟩) hpos

theorem bestStored_eq (hchoice : choice ∈ scope.choices place types stored.isDocument)
    (hpos : 0 < stored.score Score.rounded choice.reading) :
    Score.best ((types.flatMap (scope.readings place stored.isDocument)).map
      (stored.score Score.rounded)) = stored.score Score.rounded choice.reading := by
  rw [readings_eq_map, List.map_map]
  exact Score.best_eq (List.pairwise_map.mpr (hapart.pairwise_storedScore Score.rounded))
    (List.mem_map.mpr ⟨choice, hchoice, rfl⟩) hpos

/-- A stored list has the list type among them. -/
theorem eq_of_resolveStored_list {items : List WireValue} {elements : List (CandidateType σ)}
    (harray : .array elements ∈ types)
    (hchoice : scope.resolveStored place types (.list items) = .ok choice) :
    choice = ⟨.array elements, ⟨scope, place, .array elements⟩⟩ := by
  obtain ⟨hmem, hpos⟩ := hapart.resolveStored_iff.mp hchoice
  have hholds := WireValue.mem_holds_of_score hpos
  exact hapart.eq_of_holds hmem (mem_choices.mpr ⟨harray, List.mem_singleton_self _⟩) hholds
    (List.mem_singleton_self _)

/-- So has a native list. -/
theorem eq_of_resolve_list {items : List Value} {elements : List (CandidateType σ)}
    (harray : .array elements ∈ types)
    (hchoice : scope.resolve place types (.list items) = .ok choice) :
    choice = ⟨.array elements, ⟨scope, place, .array elements⟩⟩ := by
  obtain ⟨hmem, hpos⟩ := hapart.resolve_iff.mp hchoice
  exact hapart.eq_of_takes hmem (mem_choices.mpr ⟨harray, List.mem_singleton_self _⟩)
    (Value.mem_takes_of_score hpos) (List.mem_singleton_self _)

/-- A stored map has the type of a document among them. -/
theorem eq_of_resolveStored_map {fields : List (String × WireValue)} {type : CandidateType σ}
    {frame : Frame σ} (htype : type ∈ types) (henter : scope.enter? place type = some frame)
    (hchoice : scope.resolveStored place types (.map fields) = .ok choice) :
    choice = ⟨type, ⟨scope, place, type⟩⟩ := by
  obtain ⟨hmem, hpos⟩ := hapart.resolveStored_iff.mp hchoice
  have hother : (⟨type, ⟨scope, place, type⟩⟩ : Choice σ) ∈ scope.choices place types true :=
    mem_choices.mpr ⟨htype, by simp [readings_document]⟩
  exact hapart.eq_of_holds hmem hother (WireValue.mem_holds_of_score hpos)
    (by simp [(mem_of_enter? henter).2, WireValue.wireType])

/-- So has a native map. -/
theorem eq_of_resolve_map {fields : List (String × Value)} {type : CandidateType σ}
    {frame : Frame σ} (htype : type ∈ types) (henter : scope.enter? place type = some frame)
    (hchoice : scope.resolve place types (.map fields) = .ok choice) :
    choice = ⟨type, ⟨scope, place, type⟩⟩ := by
  obtain ⟨hmem, hpos⟩ := hapart.resolve_iff.mp hchoice
  have hother : (⟨type, ⟨scope, place, type⟩⟩ : Choice σ) ∈ scope.choices place types true :=
    mem_choices.mpr ⟨htype, by simp [readings_document]⟩
  exact hapart.eq_of_takes hmem hother (Value.mem_takes_of_score hpos)
    (by simp [(mem_of_enter? henter).1, Value.typeName])

/-- A stored map that has a type is a document, if one of the types is that of a document. -/
theorem enter?_of_resolveStored_map {fields : List (String × WireValue)} {type : CandidateType σ}
    {inner : Scope σ} {schema : Schema σ} (htype : type ∈ types)
    (hopens : scope.Opens type inner schema)
    (hchoice : scope.resolveStored place types (.map fields) = .ok choice) :
    ∃ entered, scope.enter? place choice.type = some ⟨inner, entered, schema⟩ := by
  obtain ⟨entered, henter⟩ := hopens.enter? place
  obtain rfl := hapart.eq_of_resolveStored_map htype henter hchoice
  exact ⟨entered, henter⟩

omit hapart in
/-- The first type shares no kind with the others, and these are told apart as well. -/
theorem of_cons {first : CandidateType σ} {rest : List (CandidateType σ)}
    (hapart : scope.ToldApart (first :: rest)) :
    scope.ToldApart rest ∧ ∀ place isDocument,
      ∀ choice ∈ scope.choices place [first] isDocument,
        ∀ other ∈ scope.choices place rest isDocument,
          choice.reading.type.Apart other.reading.type := by
  have happend : ∀ place isDocument, scope.choices place (first :: rest) isDocument =
      scope.choices place [first] isDocument ++ scope.choices place rest isDocument := by
    simp [choices]
  constructor
  · intro place isDocument
    have hpairs := hapart place isDocument
    rw [happend, List.pairwise_append] at hpairs
    exact hpairs.2.1
  · intro place isDocument
    have hpairs := hapart place isDocument
    rw [happend, List.pairwise_append] at hpairs
    exact hpairs.2.2

end ToldApart

/-! ## Schemas whose types are told apart -/

/-- The candidate types of every attribute and of every list that can be reached are told apart.
The schemas are those that can be built. -/
structure Discerning (start : Scope σ) : Prop where
  wellFormed : ∀ scope schema, start.Reaches scope schema → schema.WellFormed
  attributes : ∀ scope schema, start.Reaches scope schema →
    ∀ field ∈ schema.attributes, scope.ToldApart field.types
  elements : ∀ scope elements, start.Uses scope (.array elements) → scope.ToldApart elements

end Scope

end ItemMapper
