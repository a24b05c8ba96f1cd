import ItemMapper.Proofs.Expression.Faults
import ItemMapper.Proofs.Marshal.Drafts
import ItemMapper.Proofs.Plain.Assignments
import ItemMapper.Proofs.Reading.Documents

/-!
# How reading and writing fail

`Pipeline.Fails` is the counterpart of `Pipeline.Yields`.  What a run can fail for is put together
from what its steps can fail for (`Pipeline.FailsOnly`), where a step needs to be looked at only
after those before it have succeeded.

The stages of writing fail for causes of their own, a function of the application or a missing
source, say, and never for the type of a value; only the values that are encoded in the end do.
`Drafts.failsOnly_write` keeps the two apart.
-/

namespace ItemMapper

variable {σ α β : Type}

/-- A fold fails only at one of its items. -/
theorem Except.exists_of_foldlM_eq_error {ε : Type} {step : β → α → Except ε β} {items : List α}
    {cause : ε} : ∀ {given : β}, items.foldlM step given = .error cause →
      ∃ item ∈ items, ∃ middle, step middle item = .error cause := by
  induction items with
  | nil =>
      intro given hfold
      simp at hfold
  | cons item rest ih =>
      intro given hfold
      rw [List.foldlM_cons] at hfold
      rcases Except.bind_eq_error.mp hfold with hitem | ⟨middle, -, hrest⟩
      · exact ⟨item, by simp, given, hitem⟩
      · obtain ⟨other, hother, found, hcause⟩ := ih hrest
        exact ⟨other, by simp [hother], found, hcause⟩

namespace Pipeline

/-- The step, started in the state `before`, fails for this cause. -/
def Fails (step : Pipeline σ α) (before : σ) (cause : MapperError) : Prop :=
  (Id.run ((ExceptT.run step).run before)).1 = .error cause

/-- All failures of a step, from any state, are of this kind. -/
def FailsOnly (kind : MapperError → Prop) (step : Pipeline σ α) : Prop :=
  ∀ before cause, Fails step before cause → kind cause

theorem fails_or_yields (step : Pipeline σ α) (before : σ) :
    (∃ cause, Fails step before cause) ∨ ∃ value after, Yields step before value after := by
  unfold Fails Yields
  rcases Id.run ((ExceptT.run step).run before) with ⟨cause | value, after⟩
  · exact .inl ⟨cause, rfl⟩
  · exact .inr ⟨value, after, rfl⟩

theorem Fails.not_yields {step : Pipeline σ α} {before after : σ} {cause : MapperError} {value : α}
    (hfails : Fails step before cause) : ¬ Yields step before value after := by
  intro hyields
  rw [Fails, hyields] at hfails
  contradiction

@[simp] theorem fails_pure {value : α} {before : σ} {cause : MapperError} :
    Fails (pure value) before cause ↔ False := by
  show (Except.ok value : Except MapperError α) = .error cause ↔ _
  simp

@[simp] theorem fails_throw {given cause : MapperError} {before : σ} :
    Fails (throw given : Pipeline σ α) before cause ↔ given = cause := by
  show (Except.error given : Except MapperError α) = .error cause ↔ _
  simp

@[simp] theorem fails_ofExcept {result : Except MapperError α} {before : σ} {cause : MapperError} :
    Fails (ofExcept result) before cause ↔ result = .error cause :=
  Iff.rfl

/-- One step after another fails with the first one, or with the second one where the first one
ended. -/
theorem fails_bind {first : Pipeline σ α} {next : α → Pipeline σ β} {before : σ}
    {cause : MapperError} :
    Fails (first >>= next) before cause ↔ Fails first before cause ∨
      ∃ middle between, Yields first before middle between ∧ Fails (next middle) between cause := by
  simp only [Fails, Yields, run_bind]
  rcases Id.run ((ExceptT.run first).run before) with ⟨cause | middle, between⟩
  · simp
  · simp only [Prod.mk.injEq, Except.ok.injEq, reduceCtorEq, false_or]
    constructor
    · exact fun hnext => ⟨middle, between, ⟨rfl, rfl⟩, hnext⟩
    · rintro ⟨_, _, ⟨rfl, rfl⟩, hnext⟩
      exact hnext

/-- A function of the application fails with a text. -/
theorem exists_text_of_fails_ofHook {path : String} {hook : Fallible σ α} {before : σ}
    {cause : MapperError} (hfails : Fails (ofHook path hook) before cause) :
    ∃ text, cause = .hook path text := by
  have hrun : (Id.run ((ExceptT.run (ofHook path hook)).run before)).1 =
      (Id.run ((ExceptT.run hook).run before)).1.mapError (.hook path) := by
    simp only [ofHook, ExceptT.run, ExceptT.mk, StateT.run, bind, StateT.bind, Id.run]
    rcases hook before with ⟨text | value, after⟩ <;> rfl
  rw [Fails, hrun] at hfails
  cases hresult : (Id.run ((ExceptT.run hook).run before)).1 with
  | error text =>
      rw [hresult] at hfails
      exact ⟨text, (Except.error.inj hfails).symm⟩
  | ok value =>
      rw [hresult] at hfails
      cases hfails

namespace FailsOnly

variable {kind other : MapperError → Prop}

theorem mono {step : Pipeline σ α} (hkind : ∀ cause, kind cause → other cause)
    (hstep : FailsOnly kind step) : FailsOnly other step :=
  fun before cause hfails => hkind cause (hstep before cause hfails)

theorem pure (value : α) : FailsOnly kind (Pure.pure value : Pipeline σ α) :=
  fun _ _ hfails => (fails_pure.mp hfails).elim

theorem throw {cause : MapperError} (hcause : kind cause) :
    FailsOnly kind (MonadExcept.throw cause : Pipeline σ α) :=
  fun _ _ hfails => fails_throw.mp hfails ▸ hcause

theorem ofExcept {result : Except MapperError α}
    (hresult : ∀ cause, result = .error cause → kind cause) :
    FailsOnly kind (Pipeline.ofExcept result : Pipeline σ α) :=
  fun _ cause hfails => hresult cause (fails_ofExcept.mp hfails)

theorem bind {first : Pipeline σ α} {next : α → Pipeline σ β} (hfirst : FailsOnly kind first)
    (hnext : ∀ before middle between, Yields first before middle between →
      FailsOnly kind (next middle)) : FailsOnly kind (first >>= next) := by
  intro before cause hfails
  rcases fails_bind.mp hfails with hfails | ⟨middle, between, hmiddle, hfails⟩
  · exact hfirst before cause hfails
  · exact hnext before middle between hmiddle between cause hfails

theorem mapM {step : α → Pipeline σ β} {items : List α}
    (hstep : ∀ item ∈ items, FailsOnly kind (step item)) : FailsOnly kind (items.mapM step) := by
  induction items with
  | nil => exact .pure []
  | cons item rest ih =>
      rw [List.forall_mem_cons] at hstep
      rw [List.mapM_cons]
      exact hstep.1.bind fun _ value _ _ => (ih hstep.2).bind fun _ values _ _ => .pure _

theorem foldlM {step : β → α → Pipeline σ β} {items : List α}
    (hstep : ∀ item ∈ items, ∀ given, FailsOnly kind (step given item)) :
    ∀ given, FailsOnly kind (items.foldlM step given) := by
  induction items with
  | nil => exact fun given => .pure given
  | cons item rest ih =>
      rw [List.forall_mem_cons] at hstep
      intro given
      rw [List.foldlM_cons]
      exact (hstep.1 given).bind fun _ middle _ _ => ih hstep.2 middle

end FailsOnly

end Pipeline

open Pipeline

/-! ## The functions of the application -/

theorem failsOnly_applyModifiers (modifiers : List (Modifier σ)) (path : String) (value : Value) :
    FailsOnly (fun cause => ¬ cause.IsMismatch) (applyModifiers modifiers path value) := by
  refine .foldlM (fun modifier _ value _ _ hfails => ?_) value
  obtain ⟨text, rfl⟩ := exists_text_of_fails_ofHook hfails
  simp [MapperError.IsMismatch]

theorem failsOnly_evaluateDefault (now : Instant) (field : Attribute σ) (document : Document)
    (path : String) :
    FailsOnly (fun cause => ¬ cause.IsMismatch) (evaluateDefault now field document path) := by
  unfold evaluateDefault
  split
  · exact .pure _
  · exact .pure _
  · next compute _ =>
      intro before cause hfails
      rcases fails_bind.mp hfails with hcompute | ⟨_, _, -, hsome⟩
      · exact (by cases hcompute)
      · exact (fails_pure.mp hsome).elim
  · next compute _ =>
      refine .bind (fun before cause hfails => ?_) fun _ _ _ _ => .pure _
      obtain ⟨text, rfl⟩ := exists_text_of_fails_ofHook hfails
      simp [MapperError.IsMismatch]
  · split
    · exact .pure _
    · exact .throw (by simp [MapperError.IsMismatch])

theorem failsOnly_checkValue (options : MarshalOptions) (field : Attribute σ) (value : Value)
    (path : String) :
    FailsOnly (fun cause => ¬ cause.IsMismatch) (checkValue options field value path) := by
  have hvalidation : ∀ cause, ¬ (MapperError.validation cause).IsMismatch := by
    simp [MapperError.IsMismatch]
  unfold checkValue
  extract_lets validated
  have hvalidate : FailsOnly (fun cause => ¬ cause.IsMismatch) (validated ()) := by
    dsimp only [validated]
    split
    · split
      · refine .bind (fun before cause hfails => by cases hfails) fun _ _ _ _ => ?_
        split
        · exact .throw (hvalidation _)
        · exact .pure ()
      · exact .pure ()
    · exact .pure ()
  split
  · split
    · split
      · exact .bind (.throw (hvalidation _)) fun _ _ _ _ => hvalidate
      · exact hvalidate
    · exact hvalidate
  · exact hvalidate

/-! ## The stages of writing -/

namespace Drafts

variable {make : Value → Draft σ} {writing : Writing} {schema : Schema σ} {frame : Frame σ}
  {kind : MapperError → Prop}

theorem failsOnly_fill (place : Place) (drafts : Fields (Draft σ)) (field : Attribute σ) :
    FailsOnly (fun cause => ¬ cause.IsMismatch) (fill make writing place drafts field) := by
  unfold fill
  extract_lets path modified
  have hmodified : ∀ filled, FailsOnly (fun cause => ¬ cause.IsMismatch) (modified filled) := by
    intro filled
    dsimp only [modified]
    split
    · split
      · exact (failsOnly_applyModifiers _ _ _).bind fun _ _ _ _ => .pure _
      · exact .pure _
    · exact .pure _
  split
  · refine (failsOnly_evaluateDefault _ _ _ _).bind fun _ found _ _ => ?_
    cases found with
    | none => exact hmodified _
    | some value => exact hmodified _
  · exact hmodified _

theorem not_isMismatch_of_combine {place : Place} {drafts : Fields (Draft σ)}
    {field : Attribute σ} {cause : MapperError}
    (hcombine : combine make place drafts field = .error cause) : ¬ cause.IsMismatch := by
  unfold combine at hcombine
  split at hcombine
  · contradiction
  · dsimp only at hcombine
    split at hcombine
    · obtain rfl := Except.error.inj hcombine
      simp [MapperError.IsMismatch]
    · split at hcombine
      · contradiction
      · rcases Except.bind_eq_error.mp hcombine with hjoin | ⟨_, -, hok⟩
        · rcases Except.bind_eq_error.mp hjoin with htexts | ⟨_, -, hok⟩
          · obtain ⟨value, -, hvalue⟩ := Except.exists_of_mapM_eq_error htexts
            split at hvalue
            · contradiction
            · obtain rfl := Except.error.inj hvalue
              simp [MapperError.IsMismatch]
          · cases hok
        · cases hok

/-- No stage before the attributes are encoded fails for the type of a value. -/
theorem failsOnly_settle (make : Value → Draft σ) (writing : Writing) (schema : Schema σ)
    (place : Place) (fields : List (String × Draft σ)) :
    FailsOnly (fun cause => ¬ cause.IsMismatch) (settle make writing schema place fields) := by
  refine .bind (.foldlM (fun field _ drafts => failsOnly_fill place drafts field) _)
    fun _ drafts _ _ => ?_
  split
  · refine .ofExcept fun cause hcombine => ?_
    obtain ⟨field, -, given, hfield⟩ := Except.exists_of_foldlM_eq_error hcombine
    exact not_isMismatch_of_combine hfield
  · exact .pure _

/-- Encoding an attribute fails like its checks, or like the value that is written. -/
theorem failsOnly_encodeAttribute {drafts : Fields (Draft σ)} {field : Attribute σ}
    (hmissing : ∀ given : Option (Draft σ), isMissing writing.options.required given = true →
      ∀ path, kind (.validation (.missing path)))
    (hcheck : ∀ value path, FailsOnly kind (checkValue writing.options field value path))
    (hwrite : ∀ draft, defined? drafts field.name = some draft →
      FailsOnly kind (draft.write frame.scope (frame.place.child field.name) field.types)) :
    FailsOnly kind (encodeAttribute writing frame drafts field) := by
  unfold encodeAttribute
  extract_lets place encoded
  have hencoded : FailsOnly kind (encoded ()) := by
    dsimp only [encoded]
    cases hdraft : defined? drafts field.name with
    | none => exact .pure _
    | some draft =>
        exact (hcheck _ _).bind fun _ _ _ _ => (hwrite draft hdraft).bind fun _ _ _ _ => .pure _
  split
  · next hrequired =>
      exact .bind (.throw (hmissing _ (Bool.and_eq_true_iff.mp hrequired).2 _))
        fun _ _ _ _ => hencoded
  · exact hencoded

end Drafts

end ItemMapper
