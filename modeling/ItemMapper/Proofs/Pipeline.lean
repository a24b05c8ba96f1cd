import ItemMapper.Marshal.Pipeline
import Mathlib.Data.List.Forall2

/-!
# Successful runs

A pipeline passes on the state of the application and stops at the first failure.  What a claim
says of an operation that succeeds is said of a run: `step.Yields before value after` means that
`step`, started in the state `before`, ends in the state `after` with `value`.

A run of several steps is taken apart by the equivalences below, one for each way in which steps
are put together: `yields_bind` for one step after another, `yields_mapM_cons` for the same step on
each item of a list.  The computations without the application are those of `Except`, which the
`_eq_ok` lemmas take apart in the same way.
-/

namespace ItemMapper

variable {σ α β ε : Type}

/-! ## Related lists -/

theorem exists_related_left {related : α → β → Prop} {items : List α} {values : List β}
    (hall : List.Forall₂ related items values) {item : α} (hitem : item ∈ items) :
    ∃ value ∈ values, related item value := by
  induction hall with
  | nil => simp at hitem
  | cons hrelated _ ih =>
      rcases List.mem_cons.mp hitem with rfl | hitem
      · exact ⟨_, by simp, hrelated⟩
      · obtain ⟨value, hvalue, hvalueRelated⟩ := ih hitem
        exact ⟨value, by simp [hvalue], hvalueRelated⟩

theorem exists_related_right {related : α → β → Prop} {items : List α} {values : List β}
    (hall : List.Forall₂ related items values) {value : β} (hvalue : value ∈ values) :
    ∃ item ∈ items, related item value :=
  exists_related_left hall.flip hvalue

theorem exists_forall₂ {related : α → β → Prop} {items : List α}
    (hitems : ∀ item ∈ items, ∃ value, related item value) :
    ∃ values, List.Forall₂ related items values := by
  induction items with
  | nil => exact ⟨[], .nil⟩
  | cons item rest ih =>
      obtain ⟨value, hvalue⟩ := hitems item (by simp)
      obtain ⟨values, hvalues⟩ := ih fun other hother => hitems other (by simp [hother])
      exact ⟨value :: values, .cons hvalue hvalues⟩

/-- Items are related to what is related to the values that they are related to. -/
theorem forall₂_comp {γ : Type} {first : α → β → Prop} {second : β → γ → Prop} {items : List α}
    {values : List β} {results : List γ} (hfirst : List.Forall₂ first items values)
    (hsecond : List.Forall₂ second values results) :
    List.Forall₂ (fun item result => ∃ value, first item value ∧ second value result) items
      results := by
  induction hfirst generalizing results with
  | nil =>
      cases hsecond
      exact .nil
  | cons hitem _ ih =>
      cases hsecond with
      | cons hvalue hrest => exact .cons ⟨_, hitem, hvalue⟩ (ih hrest)

theorem map_eq_map_of_related {γ : Type} {related : α → β → Prop} {f : α → γ} {g : β → γ}
    (hsame : ∀ item value, related item value → f item = g value) {items : List α}
    {values : List β} (hall : List.Forall₂ related items values) : items.map f = values.map g := by
  induction hall with
  | nil => rfl
  | cons hrelated _ ih => rw [List.map_cons, List.map_cons, hsame _ _ hrelated, ih]

/-! ## The same steps -/

section Monad

variable {m : Type → Type} [Monad m] {items : List α}

/-- Steps that are the same for each item are so for the list. -/
theorem mapM_congr [LawfulMonad m] {step other : α → m β}
    (hsame : ∀ item ∈ items, step item = other item) : items.mapM step = items.mapM other := by
  induction items with
  | nil => rfl
  | cons item rest ih =>
      rw [List.forall_mem_cons] at hsame
      rw [List.mapM_cons, List.mapM_cons, hsame.1, ih hsame.2]

theorem foldlM_congr {step other : β → α → m β}
    (hsame : ∀ item ∈ items, ∀ given, step given item = other given item) (given : β) :
    items.foldlM step given = items.foldlM other given := by
  induction items generalizing given with
  | nil => rfl
  | cons item rest ih =>
      rw [List.forall_mem_cons] at hsame
      rw [List.foldlM_cons, List.foldlM_cons, hsame.1]
      exact congrArg _ (funext fun middle => ih hsame.2 middle)

end Monad

/-! ## Computations without the application -/

section Except

theorem Except.bind_eq_ok {first : Except ε α} {next : α → Except ε β} {value : β} :
    (first >>= next) = .ok value ↔ ∃ middle, first = .ok middle ∧ next middle = .ok value := by
  cases first with
  | error cause => simp [bind, Except.bind]
  | ok middle => simp [bind, Except.bind]

/-- What follows a result matters for the results that there are. -/
theorem Except.bind_congr_of_ok {first : Except ε α} {next other : α → Except ε β}
    (hsame : ∀ value, first = .ok value → next value = other value) :
    first >>= next = first >>= other := by
  cases first with
  | error cause => rfl
  | ok value => exact hsame value rfl

@[simp] theorem Except.pure_eq_ok {given value : α} :
    (pure given : Except ε α) = .ok value ↔ given = value := by
  simp [pure, Except.pure]

@[simp] theorem Except.throw_eq_ok {cause : ε} {value : α} :
    (throw cause : Except ε α) = .ok value ↔ False := by
  simp [throw, throwThe, MonadExceptOf.throw]

theorem Except.toOption_eq_some {result : Except ε α} {value : α} :
    result.toOption = some value ↔ result = .ok value := by
  cases result <;> simp [Except.toOption]

/-- A check that is made before something else succeeds if nothing is thrown. -/
theorem Except.check_eq_ok {condition : Prop} [Decidable condition] {cause : ε} {next : Except ε α}
    {value : α} :
    (if condition then throw cause >>= fun _ : Unit => next else next) = .ok value ↔
      ¬ condition ∧ next = .ok value := by
  split <;> simp_all [Except.bind_eq_ok]

theorem Except.forM_eq_ok {step : α → Except ε Unit} {items : List α} :
    items.forM step = .ok () ↔ ∀ item ∈ items, step item = .ok () := by
  induction items with
  | nil => simp [List.forM]
  | cons item rest ih =>
      have hcons : (item :: rest).forM step = (step item >>= fun _ => rest.forM step) := rfl
      rw [hcons, Except.bind_eq_ok, List.forall_mem_cons, ← ih]
      exact ⟨fun ⟨_, hitem, hrest⟩ => ⟨hitem, hrest⟩, fun ⟨hitem, hrest⟩ => ⟨(), hitem, hrest⟩⟩

/-- Mapping a list succeeds exactly when each item of it does. -/
theorem Except.mapM_eq_ok {step : α → Except ε β} :
    ∀ {items : List α} {values : List β},
      items.mapM step = .ok values ↔ List.Forall₂ (fun item value => step item = .ok value)
        items values := by
  intro items
  induction items with
  | nil => intro values; cases values <;> simp
  | cons item rest ih =>
      intro values
      simp only [List.mapM_cons, Except.bind_eq_ok, Except.pure_eq_ok, ih]
      constructor
      · rintro ⟨value, hvalue, others, hothers, rfl⟩
        exact .cons hvalue hothers
      · rintro (_ | ⟨hvalue, hothers⟩)
        exact ⟨_, hvalue, _, hothers, rfl⟩

/-- What every step keeps, a fold over a list keeps. -/
theorem Except.of_foldlM {step : β → α → Except ε β} {kept : β → Prop} {items : List α}
    (hstep : ∀ item ∈ items, ∀ given value, kept given → step given item = .ok value →
      kept value) :
    ∀ {given value : β}, kept given → items.foldlM step given = .ok value → kept value := by
  induction items with
  | nil =>
      intro given value hgiven hrun
      obtain rfl := Except.pure_eq_ok.mp hrun
      exact hgiven
  | cons item rest ih =>
      intro given value hgiven hrun
      rw [List.foldlM_cons, Except.bind_eq_ok] at hrun
      obtain ⟨middle, hmiddle, hrest⟩ := hrun
      exact ih (fun other hother => hstep other (by simp [hother]))
        (hstep item (by simp) _ _ hgiven hmiddle) hrest

end Except

/-! ## Pipelines -/

namespace Pipeline

/-- The step, started in the state `before`, succeeds with `value` and leaves the state `after`. -/
def Yields (step : Pipeline σ α) (before : σ) (value : α) (after : σ) : Prop :=
  Id.run ((ExceptT.run step).run before) = (.ok value, after)

@[simp] theorem yields_pure {given value : α} {before after : σ} :
    Yields (pure given) before value after ↔ given = value ∧ before = after := by
  show (Except.ok given, before) = (Except.ok value, after) ↔ _
  simp

@[simp] theorem yields_throw {cause : MapperError} {value : α} {before after : σ} :
    Yields (throw cause) before value after ↔ False := by
  show (Except.error cause, before) = (Except.ok value, after) ↔ _
  simp

@[simp] theorem yields_ofExcept {result : Except MapperError α} {value : α} {before after : σ} :
    Yields (ofExcept result) before value after ↔ result = .ok value ∧ before = after := by
  show (result, before) = (Except.ok value, after) ↔ _
  simp

/-- One step after another starts where the first one ended, unless that fails. -/
theorem run_bind (first : Pipeline σ α) (next : α → Pipeline σ β) (before : σ) :
    Id.run ((ExceptT.run (first >>= next)).run before) =
      match Id.run ((ExceptT.run first).run before) with
      | (.ok middle, between) => Id.run ((ExceptT.run (next middle)).run between)
      | (.error cause, between) => (.error cause, between) := by
  simp only [bind, ExceptT.bind, ExceptT.run, ExceptT.mk, StateT.run, StateT.bind, Id.run]
  rcases first before with ⟨cause | middle, between⟩ <;> rfl

/-- One step after another succeeds when both do, the second from where the first one ended. -/
theorem yields_bind {first : Pipeline σ α} {next : α → Pipeline σ β} {value : β}
    {before after : σ} :
    Yields (first >>= next) before value after ↔
      ∃ middle between, Yields first before middle between ∧
        Yields (next middle) between value after := by
  simp only [Yields, run_bind]
  rcases Id.run ((ExceptT.run first).run before) with ⟨cause | middle, between⟩
  · simp
  · simp only [Prod.mk.injEq, Except.ok.injEq]
    constructor
    · intro hnext
      exact ⟨middle, between, ⟨rfl, rfl⟩, hnext⟩
    · rintro ⟨_, _, ⟨rfl, rfl⟩, hnext⟩
      exact hnext

/-- Runs follow one another. -/
theorem Yields.bind {first : Pipeline σ α} {next : α → Pipeline σ β} {middle : α} {value : β}
    {before between after : σ} (hfirst : Yields first before middle between)
    (hnext : Yields (next middle) between value after) : Yields (first >>= next) before value after :=
  yields_bind.mpr ⟨middle, between, hfirst, hnext⟩

/-- What follows a step matters for the values that the step can have. -/
theorem bind_congr_of_yields {first : Pipeline σ α} {next other : α → Pipeline σ β}
    (hsame : ∀ value before after, Yields first before value after → next value = other value) :
    first >>= next = first >>= other := by
  refine funext fun before => ?_
  simp only [bind, ExceptT.bind, ExceptT.mk, StateT.bind]
  rcases hfirst : first before with ⟨cause | middle, between⟩
  · rfl
  · exact congrFun (hsame middle before between hfirst) between

theorem yields_pure_self {value : α} {before : σ} : Yields (pure value) before value before :=
  yields_pure.mpr ⟨rfl, rfl⟩

/-- A step that is one of two, and what follows it in both cases. -/
theorem yields_ite_bind {condition : Prop} [Decidable condition] {yes no : Pipeline σ α}
    {next : α → Pipeline σ β} {value : β} {before after : σ} :
    Yields (if condition then yes >>= next else no >>= next) before value after ↔
      ∃ middle between, Yields (if condition then yes else no) before middle between ∧
        Yields (next middle) between value after := by
  split <;> exact yields_bind

/-- A check that is made before something else succeeds if nothing is thrown. -/
theorem yields_check {condition : Prop} [Decidable condition] {cause : MapperError}
    {next : Pipeline σ α} {value : α} {before after : σ} :
    Yields (if condition then throw cause >>= fun _ : Unit => next else next) before value after ↔
      ¬ condition ∧ Yields next before value after := by
  split <;> simp_all

@[simp] theorem yields_mapM_nil {step : α → Pipeline σ β} {values : List β} {before after : σ} :
    Yields ([].mapM step) before values after ↔ values = [] ∧ before = after := by
  simp [eq_comm]

theorem yields_mapM_cons {step : α → Pipeline σ β} {item : α} {rest : List α} {values : List β}
    {before after : σ} :
    Yields ((item :: rest).mapM step) before values after ↔
      ∃ value between others, Yields (step item) before value between ∧
        Yields (rest.mapM step) between others after ∧ values = value :: others := by
  simp only [List.mapM_cons, yields_bind, yields_pure]
  constructor
  · rintro ⟨value, between, hvalue, others, _, hothers, rfl, rfl⟩
    exact ⟨value, between, others, hvalue, hothers, rfl⟩
  · rintro ⟨value, between, others, hvalue, hothers, rfl⟩
    exact ⟨value, between, hvalue, others, after, hothers, rfl, rfl⟩

/-- What every successful run of a step relates, the runs over a list relate item by item. -/
theorem Yields.forall₂_mapM {step : α → Pipeline σ β} {related : α → β → Prop}
    (hstep : ∀ item value before after, Yields (step item) before value after →
      related item value) :
    ∀ {items : List α} {values : List β} {before after : σ},
      Yields (items.mapM step) before values after → List.Forall₂ related items values := by
  intro items
  induction items with
  | nil =>
      intro values before after hrun
      obtain ⟨rfl, -⟩ := yields_mapM_nil.mp hrun
      exact .nil
  | cons item rest ih =>
      intro values before after hrun
      obtain ⟨value, between, others, hvalue, hothers, rfl⟩ := yields_mapM_cons.mp hrun
      exact .cons (hstep _ _ _ _ hvalue) (ih hothers)

/-- What the runs of every step keep, a run over a list keeps. -/
theorem Yields.of_foldlM {step : β → α → Pipeline σ β} {kept : β → Prop} {items : List α}
    (hstep : ∀ item ∈ items, ∀ given before value after, kept given →
      Yields (step given item) before value after → kept value) :
    ∀ {given value : β} {before after : σ}, kept given →
      Yields (items.foldlM step given) before value after → kept value := by
  induction items with
  | nil =>
      intro given value before after hgiven hrun
      obtain ⟨rfl, -⟩ := yields_pure.mp hrun
      exact hgiven
  | cons item rest ih =>
      intro given value before after hgiven hrun
      rw [List.foldlM_cons] at hrun
      obtain ⟨middle, between, hmiddle, hrest⟩ := yields_bind.mp hrun
      exact ih (fun other hother => hstep other (by simp [hother]))
        (hstep item (by simp) _ _ _ _ hgiven hmiddle) hrest

/-- A step that leaves the state alone does so for each item of a list. -/
theorem yields_mapM_of_forall {step : α → Pipeline σ β} {f : α → β} {before : σ} {items : List α}
    (hstep : ∀ item ∈ items, Yields (step item) before (f item) before) :
    Yields (items.mapM step) before (items.map f) before := by
  induction items with
  | nil => exact yields_mapM_nil.mpr ⟨rfl, rfl⟩
  | cons item rest ih =>
      exact yields_mapM_cons.mpr ⟨_, _, _, hstep item (by simp),
        ih fun other hother => hstep other (by simp [hother]), rfl⟩

theorem yields_foldlM_of_forall {step : β → α → Pipeline σ β} {f : β → α → β} {before : σ}
    {items : List α}
    (hstep : ∀ item ∈ items, ∀ given, Yields (step given item) before (f given item) before) :
    ∀ given, Yields (items.foldlM step given) before (items.foldl f given) before := by
  induction items with
  | nil => exact fun _ => yields_pure_self
  | cons item rest ih =>
      intro given
      rw [List.foldlM_cons, List.foldl_cons]
      apply (hstep item (by simp) given).bind
      exact ih (fun other hother => hstep other (by simp [hother])) _

/-! ## Runs without an application -/

/-- The value of a step that needs no application, if it succeeds. -/
def value? (step : Pipeline Unit α) : Option α :=
  (Id.run ((ExceptT.run step).run ())).1.toOption

theorem yields_of_value? {step : Pipeline Unit α} {value : α} (hvalue : step.value? = some value) :
    Yields step () value () := by
  rw [value?, Except.toOption_eq_some] at hvalue
  exact Prod.ext hvalue rfl

theorem Yields.value?_eq {step : Pipeline Unit α} {value : α} {before after : Unit}
    (hrun : Yields step before value after) : step.value? = some value := by
  rw [value?, Except.toOption_eq_some]
  exact congrArg Prod.fst hrun

end Pipeline

end ItemMapper
