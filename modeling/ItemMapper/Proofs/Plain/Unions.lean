import ItemMapper.Proofs.Plain.Reading
import ItemMapper.Proofs.Typing.Matching

/-!
# Unions of types

An attribute with several candidate types takes a value as the first candidate that fits best, and
as no other one: if that candidate turns out not to take the value, the next best is not tried.  So
a union takes a value exactly as the candidate that it chooses would take it alone
(`Value.convertsTo_iff_chosen`, `WireValue.readsAs_iff_chosen`), and a candidate that would take the
value alone helps only if none fits better.

`Scope.union_takes` says when a union takes what one of its members takes, whatever their order:
exactly if every member that fits best takes it.  Documents that have more in common with a type
that refuses them than with one that takes them are refused.  This can not happen to values without
members, nor where the members of the union are told apart by the kind of value.
-/

namespace ItemMapper

variable {σ : Type}

open Pipeline

/-! ## The choice among fewer candidates -/

namespace Score.FirstHighest

variable {α : Type} {score : α → Rat} {first second : List α} {item : α}

/-- What is first highest of two lists together is so of the first list, if it stands there. -/
theorem of_append_left (hfirst : FirstHighest score (first ++ second) item) (hmem : item ∈ first) :
    FirstHighest score first item := by
  induction first with
  | nil => simp at hmem
  | cons head rest ih =>
      rcases hfirst.cons_cases with ⟨rfl, hrest⟩ | ⟨hlower, htail⟩
      · exact .of_head fun other hother => hrest other (List.mem_append_left _ hother)
      · rcases List.mem_cons.mp hmem with rfl | hmem
        · exact absurd hlower (lt_irrefl _)
        · exact (ih htail hmem).of_tail hlower

end Score.FirstHighest

theorem Score.exists_firstHighest {α : Type} (score : α → Rat) {items : List α} (hne : items ≠ []) :
    ∃ item, FirstHighest score items item := by
  induction items with
  | nil => exact absurd rfl hne
  | cons head rest ih =>
      rcases eq_or_ne rest [] with rfl | hrest
      · exact ⟨head, .of_head (by simp)⟩
      · obtain ⟨item, hfirst⟩ := ih hrest
        rcases lt_or_ge (score head) (score item) with hlower | hge
        · exact ⟨item, hfirst.of_tail hlower⟩
        · exact ⟨head, .of_head fun other hother => (hfirst.le hother).trans hge⟩

namespace Scope

variable {scope : Scope σ} {place : Place} {isDocument : Bool} {score : Reading σ → Rat}
  {types : List (CandidateType σ)} {type : CandidateType σ} {choice : Choice σ} {value : Value}
  {stored : WireValue}

theorem choose?_eq_some_iff :
    scope.choose? place types isDocument score = some choice ↔ 0 < score choice.reading ∧
      Score.FirstHighest (fun choice => score choice.reading) (scope.choices place types isDocument)
        choice := by
  have hchosen : ∀ {other}, scope.choose? place types isDocument score = some other →
      0 < score other.reading ∧ Score.FirstHighest (fun choice => score choice.reading)
        (scope.choices place types isDocument) other := by
    intro other hother
    obtain ⟨found, hfound, rfl⟩ := Option.map_eq_some_iff.mp hother
    obtain ⟨hscore, hpos, hfirst⟩ := Score.firstHighest_of_firstBest hfound
    exact ⟨hscore ▸ hpos, hfirst⟩
  refine ⟨hchosen, fun ⟨hpos, hfirst⟩ => ?_⟩
  cases hother : scope.choose? place types isDocument score with
  | some other => rw [(hchosen hother).2.unique hfirst]
  | none =>
      obtain ⟨htype, hreading⟩ := mem_choices.mp hfirst.mem
      have hzero := choose?_eq_none_iff.mp hother _ htype
      exact absurd (Score.best_eq_zero_iff.mp hzero _ (List.mem_map_of_mem hreading)) hpos.not_ge

/-- What is chosen among several candidates is chosen where its type is the only one. -/
theorem choose?_alone (hchoice : scope.choose? place types isDocument score = some choice) :
    scope.choose? place [choice.type] isDocument score = some choice := by
  rw [choose?_eq_some_iff] at hchoice ⊢
  refine ⟨hchoice.1, ?_⟩
  obtain ⟨-, hfirst⟩ := hchoice
  induction types with
  | nil => simpa [choices] using hfirst.mem
  | cons type rest ih =>
      rw [choices_cons] at hfirst
      rcases hfirst.append_cases with ⟨hown, -⟩ | ⟨-, hrest⟩
      · have htype : choice.type = type := by
          obtain ⟨_, -, rfl⟩ := List.mem_map.mp hown
          rfl
        have hself : scope.choices place [type] isDocument =
            (scope.readings place isDocument type).map fun reading => ⟨type, reading⟩ := by
          simp [choices]
        rw [htype, hself]
        exact hfirst.of_append_left hown
      · exact ih hrest

theorem exists_choose?_alone (hfit : 0 < scope.fit place isDocument score type) :
    ∃ choice, scope.choose? place [type] isDocument score = some choice := by
  have hfirst : Score.FirstHighest (scope.fit place isDocument score) [type] type :=
    .of_head (by simp)
  obtain ⟨choice, hchoice, -⟩ := exists_choose?_iff.mpr ⟨hfit, hfirst⟩
  exact ⟨choice, hchoice⟩

/-- A candidate that fits at all is among the choices. -/
theorem exists_choice_of_fit (htype : type ∈ types)
    (hfit : 0 < scope.fit place isDocument score type) :
    ∃ choice ∈ scope.choices place types isDocument, choice.type = type ∧
      0 < score choice.reading := by
  obtain ⟨choice, hchoice⟩ := exists_choose?_alone hfit
  obtain ⟨hmem, hpos⟩ := of_choose? hchoice
  obtain ⟨hsame, hreading⟩ := mem_choices.mp hmem
  obtain rfl := List.mem_singleton.mp hsame
  exact ⟨choice, mem_choices.mpr ⟨htype, hreading⟩, rfl, hpos⟩

theorem resolve_alone (hchoice : scope.resolve place types value = .ok choice) :
    scope.resolve place [choice.type] value = .ok choice := by
  rw [resolve_eq_ok_iff] at hchoice ⊢
  exact choose?_alone hchoice

theorem resolveStored_eq_ok_iff : scope.resolveStored place types stored = .ok choice ↔
    scope.choose? place types stored.isDocument (stored.score Score.rounded) = some choice := by
  unfold resolveStored
  cases scope.choose? place types stored.isDocument (stored.score Score.rounded) <;> simp

theorem resolveStored_alone (hchoice : scope.resolveStored place types stored = .ok choice) :
    scope.resolveStored place [choice.type] stored = .ok choice := by
  rw [resolveStored_eq_ok_iff] at hchoice ⊢
  exact choose?_alone hchoice

end Scope

/-! ## What a union makes of a value -/

namespace Value

variable {value : Value} {scope : Scope σ} {place : Place} {types : List (CandidateType σ)}
  {stored : Option WireValue}

/-- How a value is stored is a matter of the choice alone, not of the other candidates. -/
theorem exists_convertsTo_iff (value : Value) (scope : Scope σ) (place : Place) (before : σ)
    (hdefined : value.isUndefined = false) :
    ∃ stores : Choice σ → Option WireValue → Prop, ∀ types stored,
      value.ConvertsTo scope place types stored ↔
        ∃ choice, scope.resolve place types value = .ok choice ∧ stores choice stored := by
  cases value with
  | undefined => cases hdefined
  | list items => exact ⟨_, fun types stored => convertsTo_list_iff before⟩
  | map fields => exact ⟨_, fun types stored => convertsTo_map_iff before⟩
  | _ => exact ⟨_, fun types stored => convertsTo_leaf_iff before hdefined (by simp) (by simp)⟩

/-- A union stores a value as the chosen candidate alone would. -/
theorem convertsTo_iff_chosen (before : σ) (hdefined : value.isUndefined = false) :
    value.ConvertsTo scope place types stored ↔
      ∃ choice, scope.resolve place types value = .ok choice ∧
        value.ConvertsTo scope place [choice.type] stored := by
  obtain ⟨stores, hstores⟩ := exists_convertsTo_iff value scope place before hdefined
  rw [hstores]
  refine exists_congr fun choice => and_congr_right fun hchoice => ?_
  rw [hstores, Scope.resolve_alone hchoice]
  simp

/-- A value is taken at a place as one of some types, with the plain options. -/
def TakenAs (value : Value) (scope : Scope σ) (place : Place) (types : List (CandidateType σ)) :
    Prop :=
  ∃ stored, value.ConvertsTo scope place types stored

theorem takenAs_undefined (scope : Scope σ) (place : Place) (types : List (CandidateType σ)) :
    undefined.TakenAs scope place types :=
  ⟨none, fun _ _ => by simp [Value.writer]⟩

end Value

namespace WireValue

variable {stored : WireValue} {scope : Scope σ} {place : Place} {types : List (CandidateType σ)}
  {value : Value}

theorem exists_readsAs_iff (stored : WireValue) (scope : Scope σ) (place : Place) (before : σ) :
    ∃ reads : Choice σ → Value → Prop, ∀ types value,
      stored.ReadsAs scope place types value ↔
        ∃ choice, scope.resolveStored place types stored = .ok choice ∧ reads choice value := by
  cases stored with
  | list items => exact ⟨_, fun types value => readsAs_list_iff before⟩
  | map fields => exact ⟨_, fun types value => readsAs_map_iff before⟩
  | _ => exact ⟨_, fun types value => readsAs_leaf_iff before (by simp) (by simp)⟩

/-- A union reads a stored value as the chosen candidate alone would. -/
theorem readsAs_iff_chosen (before : σ) :
    stored.ReadsAs scope place types value ↔
      ∃ choice, scope.resolveStored place types stored = .ok choice ∧
        stored.ReadsAs scope place [choice.type] value := by
  obtain ⟨reads, hreads⟩ := exists_readsAs_iff stored scope place before
  rw [hreads]
  refine exists_congr fun choice => and_congr_right fun hchoice => ?_
  rw [hreads, Scope.resolveStored_alone hchoice]
  simp

/-- A stored value is taken at a place as one of some types, with the plain options. -/
def TakenAs (stored : WireValue) (scope : Scope σ) (place : Place)
    (types : List (CandidateType σ)) : Prop :=
  ∃ value, stored.ReadsAs scope place types value

end WireValue

/-! ## Committed choice -/

/-- A list of candidates takes a value if the first of those that fit best does.  Of the others
nothing is asked. -/
def Commits (fit : CandidateType σ → Rat) (takes : List (CandidateType σ) → Prop) : Prop :=
  ∀ types, takes types ↔ ∃ type, 0 < fit type ∧ Score.FirstHighest fit types type ∧ takes [type]

namespace Commits

variable {fit : CandidateType σ → Rat} {takes : List (CandidateType σ) → Prop}
  {types : List (CandidateType σ)} {type : CandidateType σ}

theorem of_chosen {scope : Scope σ} {place : Place} {isDocument : Bool} {score : Reading σ → Rat}
    (htakes : ∀ types, takes types ↔ ∃ choice,
      scope.choose? place types isDocument score = some choice ∧ takes [choice.type]) :
    Commits (scope.fit place isDocument score) takes := by
  intro types
  rw [htakes]
  constructor
  · rintro ⟨choice, hchoice, htaken⟩
    obtain ⟨hpos, hfirst⟩ := Scope.firstHighest_of_choose? hchoice
    exact ⟨choice.type, hpos, hfirst, htaken⟩
  · rintro ⟨type, hpos, hfirst, htaken⟩
    obtain ⟨choice, hchoice, rfl⟩ := Scope.exists_choose?_iff.mpr ⟨hpos, hfirst⟩
    exact ⟨choice, hchoice, htaken⟩

variable (hcommits : Commits fit takes)

include hcommits

theorem pos (htaken : takes [type]) : 0 < fit type := by
  obtain ⟨other, hpos, hfirst, -⟩ := (hcommits _).mp htaken
  obtain rfl := List.mem_singleton.mp hfirst.mem
  exact hpos

/-- Where some member takes the value, a union takes it in every order exactly if every member that
fits best does. -/
theorem perm_iff (hmember : ∃ type ∈ types, takes [type]) :
    (∀ order, order.Perm types → takes order) ↔
      ∀ type ∈ types, (∀ other ∈ types, fit other ≤ fit type) → takes [type] := by
  constructor
  · intro horders type htype hbest
    -- a best member is chosen where it stands first
    obtain ⟨before, after, rfl⟩ := List.append_of_mem htype
    obtain ⟨chosen, -, hfirst, htaken⟩ :=
      (hcommits _).mp (horders (type :: (before ++ after)) List.perm_middle.symm)
    have hhead : Score.FirstHighest fit (type :: (before ++ after)) type :=
      .of_head fun other hother =>
        hbest other (List.perm_middle.mem_iff.mpr (List.mem_cons_of_mem _ hother))
    rwa [hfirst.unique hhead] at htaken
  · intro hbest order horder
    obtain ⟨member, hmem, htaken⟩ := hmember
    have hne : order ≠ [] := List.ne_nil_of_mem (horder.mem_iff.mpr hmem)
    obtain ⟨chosen, hfirst⟩ := Score.exists_firstHighest fit hne
    have hle : ∀ other ∈ types, fit other ≤ fit chosen :=
      fun other hother => hfirst.le (horder.mem_iff.mpr hother)
    exact (hcommits _).mpr ⟨chosen, (hcommits.pos htaken).trans_le (hle member hmem), hfirst,
      hbest chosen (horder.mem_iff.mp hfirst.mem) hle⟩

/-- A union takes what any of its members takes if every member takes what fits it. -/
theorem perm_of_fit (htakes : ∀ type ∈ types, 0 < fit type → takes [type])
    (hmember : ∃ type ∈ types, takes [type]) : ∀ order, order.Perm types → takes order := by
  refine (hcommits.perm_iff hmember).mpr fun type htype hbest => htakes type htype ?_
  obtain ⟨member, hmem, htaken⟩ := hmember
  exact (hcommits.pos htaken).trans_le (hbest member hmem)

/-- So it does if at most one member fits. -/
theorem perm_of_apart (hapart : ∀ type ∈ types, ∀ other ∈ types, 0 < fit type → 0 < fit other →
      type = other) (hmember : ∃ type ∈ types, takes [type]) :
    ∀ order, order.Perm types → takes order := by
  obtain ⟨member, hmem, htaken⟩ := hmember
  refine hcommits.perm_of_fit (fun type htype hpos => ?_) ⟨member, hmem, htaken⟩
  exact hapart member hmem type htype (hcommits.pos htaken) hpos ▸ htaken

end Commits

theorem Value.commits (value : Value) (scope : Scope σ) (place : Place) (before : σ)
    (hdefined : value.isUndefined = false) :
    Commits (value.fit Score.rounded scope place) (value.TakenAs scope place) := by
  refine .of_chosen fun types => ?_
  simp only [TakenAs, ← Scope.resolve_eq_ok_iff]
  constructor
  · rintro ⟨stored, hstored⟩
    obtain ⟨choice, hchoice, halone⟩ := (convertsTo_iff_chosen before hdefined).mp hstored
    exact ⟨choice, hchoice, stored, halone⟩
  · rintro ⟨choice, hchoice, stored, halone⟩
    exact ⟨stored, (convertsTo_iff_chosen before hdefined).mpr ⟨choice, hchoice, halone⟩⟩

theorem WireValue.commits (stored : WireValue) (scope : Scope σ) (place : Place) (before : σ) :
    Commits (stored.fit Score.rounded scope place) (stored.TakenAs scope place) := by
  refine .of_chosen fun types => ?_
  simp only [TakenAs, ← Scope.resolveStored_eq_ok_iff]
  constructor
  · rintro ⟨value, hvalue⟩
    obtain ⟨choice, hchoice, halone⟩ := (readsAs_iff_chosen before).mp hvalue
    exact ⟨choice, hchoice, value, halone⟩
  · rintro ⟨choice, hchoice, value, halone⟩
    exact ⟨value, (readsAs_iff_chosen before).mpr ⟨choice, hchoice, halone⟩⟩

/-! ## Values that every fitting type takes -/

/-- A list, a set or a map. -/
def Value.isContainer : Value → Bool
  | .list _ | .set _ | .map _ => true
  | _ => false

/-- A stored list, set or map. -/
def WireValue.isContainer : WireValue → Bool
  | .list _ | .map _ | .stringSet _ | .numberSet _ | .binarySet _ => true
  | _ => false

theorem Value.exists_encodeAs {value : Value} {reading : Reading σ}
    (hplain : value.isContainer = false)
    (hdate : ∀ number, value = .number number → value.date?.isSome = true)
    (hscore : 0 < value.score Score.rounded reading) :
    ∃ stored, value.encodeAs reading = .ok stored := by
  have htakes := mem_takes_of_score hscore
  have hencode : value.encodeAs reading = reading.encodeScalar value := by
    cases value <;> simp_all [Value.encodeAs, isContainer]
  rw [hencode]
  unfold Reading.encodeScalar
  cases htype : reading.type with
  | date storage =>
      have hsome : value.date?.isSome = true := by
        cases value <;> simp_all [CandidateType.takes, typeName, Value.date?]
      obtain ⟨instant, hinstant⟩ := Option.isSome_iff_exists.mp hsome
      exact ⟨some (.ofDate instant storage), by simp only [hinstant]⟩
  | object _ | self | model _ | array _ | set _ =>
      cases value <;> simp_all [CandidateType.takes, typeName, isContainer]
  | primitive _ | combine _ _ | constant _ => exact ⟨_, rfl⟩

/-- A value without members is taken by every type that it fits; a number also as a date, if it is
one. -/
theorem Value.takenAs_of_fit {value : Value} {scope : Scope σ} {place : Place}
    {type : CandidateType σ} (before : σ) (hplain : value.isContainer = false)
    (hdate : ∀ number, value = .number number → value.date?.isSome = true)
    (hfit : 0 < value.fit Score.rounded scope place type) : value.TakenAs scope place [type] := by
  cases hdefined : value.isUndefined with
  | true =>
      obtain rfl := eq_undefined hdefined
      exact takenAs_undefined scope place [type]
  | false =>
      obtain ⟨choice, hchoice⟩ := Scope.exists_choose?_alone hfit
      obtain ⟨stored, hstored⟩ := exists_encodeAs hplain hdate (Scope.of_choose? hchoice).2
      refine ⟨stored, (convertsTo_leaf_iff before hdefined ?_ ?_).mpr
        ⟨choice, Scope.resolve_eq_ok_iff.mpr hchoice, hstored⟩⟩
      · rintro items rfl
        cases hplain
      · rintro fields rfl
        cases hplain

theorem WireValue.exists_decodeLeaf {stored : WireValue} {reading : Reading σ}
    (hplain : stored.isContainer = false) (hscore : 0 < stored.score Score.rounded reading) :
    ∃ value, stored.decodeLeaf reading = .ok value := by
  have hholds := mem_holds_of_score hscore
  unfold decodeLeaf
  cases htype : reading.type with
  | date storage =>
      have hsome : (stored.date? storage).isSome = true := by
        cases stored <;>
          simp_all [WireValue.score, WireValue.scalarScore, Score.ofBool_pos, isContainer]
      obtain ⟨instant, hinstant⟩ := Option.isSome_iff_exists.mp hsome
      simp [hinstant]
  | set element =>
      rw [htype, CandidateType.holds, List.mem_map] at hholds
      obtain ⟨kind, -, hkind⟩ := hholds
      cases stored <;> cases kind <;> simp_all [wireType, SetElement.wireType, isContainer]
      all_goals split at hkind <;> contradiction
  | _ => exact ⟨_, rfl⟩

/-- A stored value without members is taken by every type that it fits. -/
theorem WireValue.takenAs_of_fit {stored : WireValue} {scope : Scope σ} {place : Place}
    {type : CandidateType σ} (before : σ) (hplain : stored.isContainer = false)
    (hfit : 0 < stored.fit Score.rounded scope place type) : stored.TakenAs scope place [type] := by
  obtain ⟨choice, hchoice⟩ := Scope.exists_choose?_alone hfit
  obtain ⟨value, hvalue⟩ := exists_decodeLeaf hplain (Scope.of_choose? hchoice).2
  refine ⟨value, (readsAs_leaf_iff before ?_ ?_).mpr
    ⟨choice, Scope.resolveStored_eq_ok_iff.mpr hchoice, hvalue⟩⟩
  · rintro items rfl
    cases hplain
  · rintro fields rfl
    cases hplain

/-! ## Unions -/

namespace Scope

variable {scope : Scope σ} {place : Place} {types : List (CandidateType σ)} {value : Value}
  {stored : WireValue}

/-- Of members that are told apart at most one fits. -/
theorem ToldApart.eq_of_fit (hapart : scope.ToldApart types) : ∀ type ∈ types, ∀ other ∈ types,
    0 < value.fit Score.rounded scope place type →
      0 < value.fit Score.rounded scope place other → type = other := by
  intro type htype other hother hfit hotherFit
  obtain ⟨choice, hchoice, rfl, hpos⟩ := exists_choice_of_fit htype hfit
  obtain ⟨last, hlast, rfl, hlastPos⟩ := exists_choice_of_fit hother hotherFit
  rw [hapart.eq_of_takes hchoice hlast (Value.mem_takes_of_score hpos)
    (Value.mem_takes_of_score hlastPos)]

theorem ToldApart.eq_of_storedFit (hapart : scope.ToldApart types) : ∀ type ∈ types,
    ∀ other ∈ types, 0 < stored.fit Score.rounded scope place type →
      0 < stored.fit Score.rounded scope place other → type = other := by
  intro type htype other hother hfit hotherFit
  obtain ⟨choice, hchoice, rfl, hpos⟩ := exists_choice_of_fit htype hfit
  obtain ⟨last, hlast, rfl, hlastPos⟩ := exists_choice_of_fit hother hotherFit
  rw [hapart.eq_of_holds hchoice hlast (WireValue.mem_holds_of_score hpos)
    (WireValue.mem_holds_of_score hlastPos)]

/-- What some member of a union takes alone, the union takes in every order of its members exactly
if every member that fits best takes it alone.  That is so where the members are told apart by the
kind of value, and for values without members, of which a number has to be a date to be taken as
one.  The same holds of stored values. -/
theorem union_takes (scope : Scope σ) (place : Place) (types : List (CandidateType σ))
    (value : Value) (stored : WireValue) (before : σ) :
    ((∃ type ∈ types, value.TakenAs scope place [type]) →
      ((∀ order, order.Perm types → value.TakenAs scope place order) ↔
        ∀ type ∈ types, (∀ other ∈ types, value.fit Score.rounded scope place other ≤
          value.fit Score.rounded scope place type) → value.TakenAs scope place [type]) ∧
      (scope.ToldApart types ∨ (value.isContainer = false ∧
          ∀ number, value = .number number → value.date?.isSome = true) →
        ∀ order, order.Perm types → value.TakenAs scope place order)) ∧
    ((∃ type ∈ types, stored.TakenAs scope place [type]) →
      ((∀ order, order.Perm types → stored.TakenAs scope place order) ↔
        ∀ type ∈ types, (∀ other ∈ types, stored.fit Score.rounded scope place other ≤
          stored.fit Score.rounded scope place type) → stored.TakenAs scope place [type]) ∧
      (scope.ToldApart types ∨ stored.isContainer = false →
        ∀ order, order.Perm types → stored.TakenAs scope place order)) := by
  constructor
  · intro hmember
    cases hdefined : value.isUndefined with
    | true =>
        obtain rfl := Value.eq_undefined hdefined
        have htaken : ∀ types, Value.undefined.TakenAs scope place types :=
          fun types => Value.takenAs_undefined scope place types
        simp [htaken]
    | false =>
        have hcommits := value.commits scope place before hdefined
        refine ⟨hcommits.perm_iff hmember, ?_⟩
        rintro (hapart | ⟨hplain, hdate⟩)
        · exact hcommits.perm_of_apart hapart.eq_of_fit hmember
        · exact hcommits.perm_of_fit
            (fun type _ hfit => Value.takenAs_of_fit before hplain hdate hfit) hmember
  · intro hmember
    have hcommits := stored.commits scope place before
    refine ⟨hcommits.perm_iff hmember, ?_⟩
    rintro (hapart | hplain)
    · exact hcommits.perm_of_apart hapart.eq_of_storedFit hmember
    · exact hcommits.perm_of_fit (fun type _ hfit => WireValue.takenAs_of_fit before hplain hfit)
        hmember

end Scope

/-! ### People and companies -/

namespace CandidateType

/-- A person has a name. -/
def person : CandidateType Unit :=
  .object ⟨[.plain "name" [.primitive .string]], .disabled, none⟩

/-- A company has a name, a number of people and a town. -/
def company : CandidateType Unit :=
  .object ⟨[.plain "name" [.primitive .string], .plain "size" [.primitive .number],
    .plain "town" [.primitive .string]], .disabled, none⟩

end CandidateType

/-- The scope of an account, which is owned by a person or a company. -/
def Scope.account : Scope Unit :=
  ⟨⟨[]⟩, ⟨[.plain "owner" [.person, .company]], .disabled, none⟩⟩

def Place.owner : Place := Place.root.child "owner"

def Value.owner (size : Value) : Value :=
  .map [("name", .string "Ada"), ("size", size), ("town", .string "Turin")]

def WireValue.owner (size : WireValue) : WireValue :=
  .map [("name", .string "Ada"), ("size", size), ("town", .string "Turin")]

theorem Value.takenAs_of_isSome {value : Value} {scope : Scope Unit} {place : Place}
    {types : List (CandidateType Unit)}
    (hvalue : (value.writer (default : Setting Unit).make (default : Setting Unit).writing scope
      place types).value?.isSome = true) : value.TakenAs scope place types := by
  obtain ⟨stored, hstored⟩ := Option.isSome_iff_exists.mp hvalue
  exact ⟨stored, (convertsTo_of_yields default (yields_of_value? hstored)).2⟩

theorem Value.not_takenAs_of_none {value : Value} {scope : Scope Unit} {place : Place}
    {types : List (CandidateType Unit)}
    (hvalue : (value.writer (default : Setting Unit).make (default : Setting Unit).writing scope
      place types).value? = none) : ¬ value.TakenAs scope place types := by
  rintro ⟨stored, hstored⟩
  cases (hstored default ()).value?_eq.symm.trans hvalue

theorem WireValue.takenAs_of_isSome {stored : WireValue} {scope : Scope Unit} {place : Place}
    {types : List (CandidateType Unit)}
    (hstored : (stored.reader .plain scope place types).value?.isSome = true) :
    stored.TakenAs scope place types := by
  obtain ⟨value, hvalue⟩ := Option.isSome_iff_exists.mp hstored
  exact ⟨value, (readsAs_of_yields (yields_of_value? hvalue)).2⟩

theorem WireValue.not_takenAs_of_none {stored : WireValue} {scope : Scope Unit} {place : Place}
    {types : List (CandidateType Unit)}
    (hstored : (stored.reader .plain scope place types).value? = none) :
    ¬ stored.TakenAs scope place types := by
  rintro ⟨value, hvalue⟩
  cases (hvalue ()).value?_eq.symm.trans hstored

namespace Scope

/-- An owner with a number of people is taken as a person or a company, in either order. -/
theorem union_takes_owner :
    (∃ type ∈ [.person, .company],
      (Value.owner (.number (.ofInt 3))).TakenAs account .owner [type]) ∧
    (∀ order : List (CandidateType Unit), order.Perm [.person, .company] →
      (Value.owner (.number (.ofInt 3))).TakenAs account .owner order) ∧
    (∃ type ∈ [.person, .company], (WireValue.owner (.number "3")).TakenAs account .owner [type]) ∧
    (∀ order : List (CandidateType Unit), order.Perm [.person, .company] →
      (WireValue.owner (.number "3")).TakenAs account .owner order) := by
  have hnative : ∀ type ∈ [.person, .company],
      (Value.owner (.number (.ofInt 3))).TakenAs account .owner [type] := by
    simp only [List.mem_cons, List.not_mem_nil, or_false, forall_eq_or_imp, forall_eq]
    exact ⟨Value.takenAs_of_isSome (by decide +kernel), Value.takenAs_of_isSome (by decide +kernel)⟩
  have hstored : ∀ type ∈ [.person, .company],
      (WireValue.owner (.number "3")).TakenAs account .owner [type] := by
    simp only [List.mem_cons, List.not_mem_nil, or_false, forall_eq_or_imp, forall_eq]
    exact ⟨WireValue.takenAs_of_isSome (by decide +kernel),
      WireValue.takenAs_of_isSome (by decide +kernel)⟩
  have hmember := hnative _ List.mem_cons_self
  have hmemberStored := hstored _ List.mem_cons_self
  obtain ⟨htakes, htakesStored⟩ := union_takes account .owner [.person, .company]
    (.owner (.number (.ofInt 3))) (.owner (.number "3")) ()
  exact ⟨⟨_, List.mem_cons_self, hmember⟩,
    (htakes ⟨_, List.mem_cons_self, hmember⟩).1.mpr fun type htype _ => hnative type htype,
    ⟨_, List.mem_cons_self, hmemberStored⟩,
    (htakesStored ⟨_, List.mem_cons_self, hmemberStored⟩).1.mpr
      fun type htype _ => hstored type htype⟩

/-- With a text for the number of people the owner would be taken as a person, of whom only the
name is kept.  It fits a company better, and so it is refused on either side. -/
theorem union_refuses_owner :
    (Value.owner (.string "large")).TakenAs account .owner [.person] ∧
    ¬ (Value.owner (.string "large")).TakenAs account .owner [.person, .company] ∧
    (WireValue.owner (.string "large")).TakenAs account .owner [.person] ∧
    ¬ (WireValue.owner (.string "large")).TakenAs account .owner [.person, .company] :=
  ⟨Value.takenAs_of_isSome (by decide +kernel), Value.not_takenAs_of_none (by decide +kernel),
    WireValue.takenAs_of_isSome (by decide +kernel),
    WireValue.not_takenAs_of_none (by decide +kernel)⟩

end Scope

end ItemMapper
