import ItemMapper.Proofs.Pipeline
import Mathlib.Data.Option.Basic

/-!
# Computations that agree

Two computations agree if both fail, or if both succeed with related values; errors may differ.
For pipelines this is asked from every state of the application, and both must then leave the same
state behind.  Computations that are put together in the same way from parts that agree agree: this
is said once for each way of putting them together.
-/

namespace ItemMapper

variable {σ α β γ δ : Type}

namespace Except

variable {related : α → β → Prop} {first : Except MapperError α} {second : Except MapperError β}

/-- Both fail, or both succeed with related values. -/
def Agree (related : α → β → Prop) (first : Except MapperError α) (second : Except MapperError β) :
    Prop :=
  Option.Rel related first.toOption second.toOption

theorem Agree.ok {value : α} {other : β} (hrelated : related value other) :
    Agree related (.ok value) (.ok other) :=
  .some hrelated

theorem Agree.error (cause other : MapperError) :
    Agree related (.error cause : Except MapperError α) (.error other : Except MapperError β) :=
  .none

/-- The two ways in which computations agree. -/
theorem Agree.cases (hagree : Agree related first second) :
    (∃ value other, first = .ok value ∧ second = .ok other ∧ related value other) ∨
      ∃ cause other, first = .error cause ∧ second = .error other := by
  cases first with
  | error cause =>
      cases second with
      | error other => exact .inr ⟨cause, other, rfl, rfl⟩
      | ok other => cases hagree
  | ok value =>
      cases second with
      | error other => cases hagree
      | ok other =>
          cases hagree with
          | some hrelated => exact .inl ⟨value, other, rfl, rfl, hrelated⟩

theorem Agree.bind {next : α → Except MapperError γ} {after : β → Except MapperError δ}
    {result : γ → δ → Prop} (hfirst : Agree related first second)
    (hnext : ∀ value other, related value other → Agree result (next value) (after other)) :
    Agree result (first >>= next) (second >>= after) := by
  obtain ⟨value, other, rfl, rfl, hrelated⟩ | ⟨cause, other, rfl, rfl⟩ := hfirst.cases
  · exact hnext value other hrelated
  · exact .error cause other

theorem Agree.mono {weaker : α → β → Prop} (hagree : Agree related first second)
    (himp : ∀ value other, related value other → weaker value other) :
    Agree weaker first second := by
  obtain ⟨value, other, rfl, rfl, hrelated⟩ | ⟨cause, other, rfl, rfl⟩ := hagree.cases
  · exact .ok (himp value other hrelated)
  · exact .error cause other

theorem Agree.trans {third : Except MapperError γ} {next : β → γ → Prop} {result : α → γ → Prop}
    (hfirst : Agree related first second) (hsecond : Agree next second third)
    (hcompose : ∀ value middle other, related value middle → next middle other →
      result value other) : Agree result first third := by
  obtain ⟨value, middle, rfl, rfl, hrelated⟩ | ⟨cause, between, rfl, rfl⟩ := hfirst.cases
  · obtain ⟨_, other, hsame, rfl, hnext⟩ | ⟨_, _, hfails, -⟩ := hsecond.cases
    · obtain rfl := Except.ok.inj hsame
      exact .ok (hcompose _ _ _ hrelated hnext)
    · cases hfails
  · obtain ⟨_, _, hfails, -⟩ | ⟨_, other, -, rfl⟩ := hsecond.cases
    · cases hfails
    · exact .error cause other

theorem Agree.refl (result : Except MapperError α) : Agree Eq result result := by
  cases result with
  | error cause => exact .error cause cause
  | ok value => exact .ok rfl

theorem Agree.mapM {step : α → Except MapperError γ} {other : β → Except MapperError δ}
    {result : γ → δ → Prop} {items : List α} {others : List β}
    (hitems : List.Forall₂ (fun item counterpart => Agree result (step item) (other counterpart))
      items others) :
    Agree (List.Forall₂ result) (items.mapM step) (others.mapM other) := by
  induction hitems with
  | nil => exact .ok .nil
  | cons hitem _ ih =>
      rw [List.mapM_cons, List.mapM_cons]
      refine hitem.bind fun value counterpart hvalue => ih.bind fun values counterparts hvalues => ?_
      exact .ok (.cons hvalue hvalues)

theorem Agree.mapM_eq {step : α → Except MapperError γ} {other : β → Except MapperError γ}
    {items : List α} {others : List β}
    (hitems : List.Forall₂ (fun item counterpart => Agree Eq (step item) (other counterpart))
      items others) : Agree Eq (items.mapM step) (others.mapM other) :=
  (Agree.mapM hitems).mono fun _ _ hall => List.forall₂_eq_eq_eq ▸ hall

theorem Agree.foldlM {step : α → γ → Except MapperError α} {other : β → δ → Except MapperError β}
    {items : List γ} {others : List δ}
    (hitems : List.Forall₂ (fun item counterpart => ∀ given given', related given given' →
      Agree related (step given item) (other given' counterpart)) items others) :
    ∀ {given given'}, related given given' →
      Agree related (items.foldlM step given) (others.foldlM other given') := by
  induction hitems with
  | nil => exact fun hgiven => .ok hgiven
  | cons hitem _ ih =>
      intro given given' hgiven
      rw [List.foldlM_cons, List.foldlM_cons]
      exact (hitem _ _ hgiven).bind fun _ _ hmiddle => ih hmiddle

/-- Both folds run over the same list. -/
theorem Agree.foldlM_same {step : α → γ → Except MapperError α} {other : β → γ → Except MapperError β}
    {items : List γ} (hitems : ∀ item ∈ items, ∀ given given', related given given' →
      Agree related (step given item) (other given' item)) {given : α} {given' : β}
    (hgiven : related given given') :
    Agree related (items.foldlM step given) (items.foldlM other given') :=
  Agree.foldlM (List.forall₂_same.mpr hitems) hgiven

/-- Where results agree, the same successes are seen. -/
theorem Agree.eq_ok_iff {first second : Except MapperError α} (hagree : Agree Eq first second)
    {value : α} : first = .ok value ↔ second = .ok value := by
  obtain ⟨_, _, rfl, rfl, rfl⟩ | ⟨cause, other, rfl, rfl⟩ := hagree.cases <;> simp

end Except

namespace Pipeline

variable {related : α → β → Prop} {first : Pipeline σ α} {second : Pipeline σ β}

/-- What a step gives from a state on, with the state that it leaves, if it succeeds. -/
def outcome (step : Pipeline σ α) (before : σ) : Option (α × σ) :=
  let result := Id.run ((ExceptT.run step).run before)
  result.1.toOption.map fun value => (value, result.2)

theorem outcome_eq_some {before after : σ} {value : α} {step : Pipeline σ α} :
    step.outcome before = some (value, after) ↔ Yields step before value after := by
  rw [outcome, Yields]
  rcases Id.run ((ExceptT.run step).run before) with ⟨cause | found, between⟩ <;>
    simp [Except.toOption]

/-- From every state both steps fail, or both succeed with related values and leave the same
state. -/
def Agree (related : α → β → Prop) (first : Pipeline σ α) (second : Pipeline σ β) : Prop :=
  ∀ before, Option.Rel (fun result other => related result.1 other.1 ∧ result.2 = other.2)
    (first.outcome before) (second.outcome before)

theorem outcome_bind (step : Pipeline σ α) (next : α → Pipeline σ γ) (before : σ) :
    (step >>= next).outcome before =
      (step.outcome before).bind fun result => (next result.1).outcome result.2 := by
  refine Option.ext fun ⟨value, after⟩ => ?_
  rw [Option.bind_eq_some_iff, outcome_eq_some, yields_bind, Prod.exists]
  exact exists_congr fun middle => exists_congr fun between =>
    and_congr outcome_eq_some.symm outcome_eq_some.symm

namespace Agree

theorem ofExcept {result : Except MapperError α} {other : Except MapperError β}
    (hagree : Except.Agree related result other) :
    Agree (σ := σ) related (.ofExcept result) (.ofExcept other) := by
  intro before
  obtain ⟨value, found, rfl, rfl, hrelated⟩ | ⟨cause, last, rfl, rfl⟩ := hagree.cases
  · exact .some ⟨hrelated, rfl⟩
  · exact .none

theorem pure {value : α} {other : β} (hrelated : related value other) :
    Agree (σ := σ) related (Pure.pure value) (Pure.pure other) :=
  fun _ => .some ⟨hrelated, rfl⟩

theorem throw (cause other : MapperError) :
    Agree (σ := σ) related (MonadExcept.throw cause) (MonadExcept.throw other) :=
  fun _ => .none

theorem bind {next : α → Pipeline σ γ} {after : β → Pipeline σ δ} {result : γ → δ → Prop}
    (hfirst : Agree related first second)
    (hnext : ∀ value other, related value other → Agree result (next value) (after other)) :
    Agree result (first >>= next) (second >>= after) := by
  intro before
  rw [outcome_bind, outcome_bind]
  generalize hvalue : first.outcome before = value
  generalize hother : second.outcome before = other
  have hrel := hfirst before
  rw [hvalue, hother] at hrel
  cases hrel with
  | none => exact .none
  | @some value other hrelated =>
      obtain ⟨hsame, hstate⟩ := hrelated
      rw [Option.bind_some, Option.bind_some, hstate]
      exact hnext _ _ hsame _

/-- Where both steps fail, it does not matter what would come next. -/
theorem throw_bind {result : γ → δ → Prop} (cause other : MapperError) (next : α → Pipeline σ γ)
    (after : β → Pipeline σ δ) :
    Agree result (MonadExcept.throw cause >>= next) (MonadExcept.throw other >>= after) := by
  intro before
  rw [outcome_bind, outcome_bind]
  exact .none

theorem mono {weaker : α → β → Prop} (hagree : Agree related first second)
    (himp : ∀ value other, related value other → weaker value other) :
    Agree weaker first second := by
  intro before
  refine Option.Rel.rec (motive := fun value other _ => Option.Rel _ value other) ?_ .none
    (hagree before)
  exact fun hrelated => .some ⟨himp _ _ hrelated.1, hrelated.2⟩

theorem refl (step : Pipeline σ α) : Agree Eq step step := by
  intro before
  cases step.outcome before with
  | none => exact .none
  | some result => exact .some ⟨rfl, rfl⟩

theorem mapM {step : α → Pipeline σ γ} {other : β → Pipeline σ δ} {result : γ → δ → Prop}
    {items : List α} {others : List β}
    (hitems : List.Forall₂ (fun item counterpart => Agree result (step item) (other counterpart))
      items others) :
    Agree (List.Forall₂ result) (items.mapM step) (others.mapM other) := by
  induction hitems with
  | nil => exact .pure .nil
  | cons hitem _ ih =>
      rw [List.mapM_cons, List.mapM_cons]
      refine hitem.bind fun value counterpart hvalue => ih.bind fun values counterparts hvalues => ?_
      exact .pure (.cons hvalue hvalues)

theorem mapM_eq {step : α → Pipeline σ γ} {other : β → Pipeline σ γ} {items : List α}
    {others : List β}
    (hitems : List.Forall₂ (fun item counterpart => Agree Eq (step item) (other counterpart))
      items others) : Agree Eq (items.mapM step) (others.mapM other) :=
  (mapM hitems).mono fun _ _ hall => List.forall₂_eq_eq_eq ▸ hall

theorem foldlM {step : α → γ → Pipeline σ α} {other : β → δ → Pipeline σ β}
    {items : List γ} {others : List δ}
    (hitems : List.Forall₂ (fun item counterpart => ∀ given given', related given given' →
      Agree related (step given item) (other given' counterpart)) items others) :
    ∀ {given given'}, related given given' →
      Agree related (items.foldlM step given) (others.foldlM other given') := by
  induction hitems with
  | nil => exact fun hgiven => .pure hgiven
  | cons hitem _ ih =>
      intro given given' hgiven
      rw [List.foldlM_cons, List.foldlM_cons]
      exact (hitem _ _ hgiven).bind fun _ _ hmiddle => ih hmiddle

/-- Both folds run over the same list. -/
theorem foldlM_same {step : α → γ → Pipeline σ α} {other : β → γ → Pipeline σ β} {items : List γ}
    (hitems : ∀ item ∈ items, ∀ given given', related given given' →
      Agree related (step given item) (other given' item)) {given : α} {given' : β}
    (hgiven : related given given') :
    Agree related (items.foldlM step given) (items.foldlM other given') :=
  foldlM (List.forall₂_same.mpr hitems) hgiven

/-- Both results are collected from the same list. -/
theorem mapM_same {step other : α → Pipeline σ γ} {items : List α}
    (hitems : ∀ item ∈ items, Agree Eq (step item) (other item)) :
    Agree Eq (items.mapM step) (items.mapM other) :=
  mapM_eq (List.forall₂_same.mpr hitems)

/-- A run of the first step has a run of the second one beside it. -/
theorem exists_yields (hagree : Agree related first second) {before after : σ} {value : α}
    (hrun : Yields first before value after) :
    ∃ other, Yields second before other after ∧ related value other := by
  have hrel := hagree before
  rw [outcome_eq_some.mpr hrun] at hrel
  generalize hother : second.outcome before = found at hrel
  cases hrel with
  | @some _ result hrelated =>
      obtain ⟨other, last⟩ := result
      obtain ⟨hvalue, rfl⟩ := hrelated
      exact ⟨other, outcome_eq_some.mp hother, hvalue⟩

/-- Where steps agree, the same runs are seen. -/
theorem yields_iff {first second : Pipeline σ α} (hagree : Agree Eq first second) {before after : σ}
    {value : α} : Yields first before value after ↔ Yields second before value after := by
  rw [← outcome_eq_some, ← outcome_eq_some]
  generalize hvalue : first.outcome before = found
  generalize hother : second.outcome before = other
  have hrel := hagree before
  rw [hvalue, hother] at hrel
  cases hrel with
  | none => rfl
  | some hrelated => rw [Prod.ext hrelated.1 hrelated.2]

/-- Steps that see the same runs agree. -/
theorem of_yields_iff {first second : Pipeline σ α} (hruns : ∀ before value after,
    Yields first before value after ↔ Yields second before value after) : Agree Eq first second := by
  intro before
  have hsame : first.outcome before = second.outcome before := by
    ext ⟨value, after⟩
    rw [outcome_eq_some, outcome_eq_some, hruns]
  rw [hsame]
  exact refl second before

end Agree

theorem run_ofHook (path : String) (hook : Fallible σ α) (before : σ) :
    Id.run ((ExceptT.run (ofHook path hook)).run before) =
      ((hook before).1.mapError (MapperError.hook path), (hook before).2) := by
  unfold ofHook
  rw [ExceptT.run_mk, StateT.run_bind]
  rcases hresult : hook before with ⟨text | value, after⟩ <;>
    simp [ExceptT.run, StateT.run, hresult, Except.mapError] <;> rfl

/-- A function of the application agrees with itself, whatever path its error names. -/
theorem Agree.ofHook (path other : String) (hook : Fallible σ α) :
    Agree Eq (Pipeline.ofHook path hook) (Pipeline.ofHook other hook) := by
  intro before
  simp only [outcome, run_ofHook]
  rcases hook before with ⟨text | value, after⟩
  · exact .none
  · exact .some ⟨rfl, rfl⟩

end Pipeline

end ItemMapper
