import ItemMapper.Proofs.Unchecked.Reading

/-!
# Mappers without the check of types

With the check of types switched off, what fits none of its types takes its natural form, and a
mapper fails for a type only where the chosen type refuses a value (`Mapper.unchecked_fails_iff`):
a number that is no date, a set with a member of another kind, a list that is the key of a
referenced model, or a stored set of dates with a member that is none.
-/

namespace ItemMapper

variable {σ : Type}

open Pipeline

/-! ## Values without a type -/

/-- A value that has none of the types takes its natural form. -/
theorem Value.writer_of_misfit {writing : Writing} (hcheck : writing.options.typeCheck = false)
    (make : Value → Draft σ) {value : Value} {scope : Scope σ} {place : Place}
    {types : List (CandidateType σ)} {cause : MapperError}
    (hmisfit : scope.resolve place types value = .error cause) :
    value.writer make writing scope place types = pure value.natural? := by
  cases value with
  | undefined => rfl
  | _ => simp [writer, writeChosen, hmisfit, hcheck]

/-- So does a stored one. -/
theorem WireValue.reader_of_misfit {options : MarshalOptions} (hcheck : options.typeCheck = false)
    {stored : WireValue} {scope : Scope σ} {place : Place} {types : List (CandidateType σ)}
    {cause : MapperError} (hmisfit : scope.resolveStored place types stored = .error cause) :
    stored.reader options scope place types = pure stored.natural := by
  cases stored <;> simp [reader, readChosen, hmisfit, hcheck]

/-! ## Mappers -/

namespace Mapper

theorem fails_read_iff {mapper : Mapper σ} {options : MarshalOptions} {now : Instant} {item : Item}
    {before : σ} {cause : MapperError} : Fails (mapper.read options now item) before cause ↔
      Fails (mapper.scope.frame.read options item) before cause := by
  rw [Mapper.read, fails_bind]
  simp

/-- Without the check of types, writing and reading fail for a type only if there is a refused value
in the document or the item; where no function of the application takes part, they do so exactly
then.  A value that has none of its types takes its natural form. -/
theorem unchecked_fails_iff (mapper : Mapper σ) (options : MarshalOptions) (now : Instant)
    (depth : Nat) (before : σ) (hcheck : options.typeCheck = false) :
    (∀ document cause, Fails (mapper.write ⟨options, now, depth⟩ document) before cause →
      cause.IsMismatch → mapper.scope.frame.HoldsRefused ⟨options, now, depth⟩ document) ∧
    (∀ document, (∃ cause, cause.IsMismatch ∧
        Fails (mapper.write ⟨.unchecked, now, depth⟩ document) before cause) ↔
      mapper.scope.frame.HoldsRefused ⟨.unchecked, now, depth⟩ document) ∧
    (∀ item cause, Fails (mapper.read options now item) before cause → cause.IsMismatch →
      mapper.scope.frame.ReadsRefused item) ∧
    (options.modifiers = false → ∀ item,
      (∃ cause, cause.IsMismatch ∧ Fails (mapper.read options now item) before cause) ↔
        mapper.scope.frame.ReadsRefused item) ∧
    (∀ (make : Value → Draft σ) (value : Value) (scope : Scope σ) place types,
      (∃ cause, scope.resolve place types value = .error cause) →
        Yields (value.writer make ⟨options, now, depth⟩ scope place types) before value.natural?
          before) ∧
    ∀ (stored : WireValue) (scope : Scope σ) place types,
      (∃ cause, scope.resolveStored place types stored = .error cause) →
        Yields (stored.reader options scope place types) before stored.natural before := by
  refine ⟨fun document cause hfails hmismatch => ?_, fun document => ⟨?_, fun hrefused => ?_⟩,
    fun item cause hfails hmismatch => ?_, fun hmodifiers item => ⟨?_, fun hrefused => ?_⟩,
    fun make value scope place types hmisfit => ?_, fun stored scope place types hmisfit => ?_⟩
  · exact Frame.failsOnly_write hcheck _ document before cause hfails hmismatch
  · rintro ⟨cause, -, hfails⟩
    exact (Frame.failsOnly_write_unchecked _ document before cause hfails).2
  · obtain ⟨cause, hfails⟩ := hrefused.exists_fails before
    exact ⟨cause, (Frame.failsOnly_write_unchecked _ document before cause hfails).1, hfails⟩
  · exact Frame.failsOnly_read hcheck _ item before cause (fails_read_iff.mp hfails) hmismatch
  · rintro ⟨cause, hmismatch, hfails⟩
    exact Frame.failsOnly_read hcheck _ item before cause (fails_read_iff.mp hfails) hmismatch
  · obtain ⟨cause, hfails⟩ := hrefused.exists_fails before
    exact ⟨cause, (Frame.failsOnly_read_unmodified hcheck hmodifiers _ item before cause hfails).1,
      fails_read_iff.mpr hfails⟩
  · obtain ⟨cause, hcause⟩ := hmisfit
    rw [Value.writer_of_misfit hcheck make hcause]
    exact yields_pure_self
  · obtain ⟨cause, hcause⟩ := hmisfit
    rw [WireValue.reader_of_misfit hcheck hcause]
    exact yields_pure_self

end Mapper

/-! ### Errands -/

/-- An errand is due at some time, and there are days on which nobody works on it. -/
def SchemaOf.errand : Schema Unit where
  attributes := [.plain "due" [.date .milliseconds], .plain "holidays" [.set (.date .iso)]]
  keepUnknown := .disabled
  timestamps := none

def Mapper.errand : Mapper Unit :=
  ⟨⟨[⟨"Errand", .errand, none⟩]⟩, ⟨"Errand", .errand, none⟩⟩

/-- An errand that is due at this time. -/
def Document.errand (due : Value) : Document :=
  [("due", due)]

/-- A time that many milliseconds after the beginning of 1970. -/
def Value.due (millis : Int) : Value := .number (.ofInt millis)

/-- A stored errand with these holidays. -/
def Item.errand (holidays : WireValue) : Item :=
  [("holidays", holidays)]

namespace Mapper

theorem exists_fails_of_none {α : Type} {step : Pipeline Unit α} (hnone : step.value? = none) :
    ∃ cause, Fails step () cause := by
  refine (fails_or_yields step ()).resolve_right ?_
  rintro ⟨value, after, hrun⟩
  cases hrun.value?_eq.symm.trans hnone

/-- An errand that is due soon is stored and read as it is, and there is no refused value in it. -/
theorem unchecked_fails_iff_errand :
    MarshalOptions.unchecked.typeCheck = false ∧
    Yields (errand.write ⟨.unchecked, .epoch, 0⟩ (.errand (.string "soon"))) ()
      [("due", .string "soon")] () ∧
    ¬ errand.scope.frame.HoldsRefused ⟨.unchecked, .epoch, 0⟩ (Document.errand (.string "soon")) ∧
    Yields (errand.read .unchecked .epoch (.errand (.string "none"))) ()
      (some [("holidays", .string "none")]) () ∧
    ¬ errand.scope.frame.ReadsRefused (.errand (.string "none")) := by
  obtain ⟨-, hwrite, -, hread, -⟩ := unchecked_fails_iff errand .unchecked .epoch 0 () rfl
  have hwritten : Yields (errand.write ⟨.unchecked, .epoch, 0⟩ (.errand (.string "soon"))) ()
      [("due", .string "soon")] () := yields_of_value? (by decide +kernel)
  have hloaded : Yields (errand.read .unchecked .epoch (.errand (.string "none"))) ()
      (some [("holidays", .string "none")]) () := yields_of_value? rfl
  refine ⟨rfl, hwritten, fun hrefused => ?_, hloaded, fun hrefused => ?_⟩
  · obtain ⟨cause, -, hfails⟩ := (hwrite _).mpr hrefused
    exact hfails.not_yields hwritten
  · obtain ⟨cause, -, hfails⟩ := (hread rfl _).mpr hrefused
    exact hfails.not_yields hloaded

/-- An errand that is due after the last date, or with a holiday that is none, fails for a type even
without the check of types. -/
theorem errand_fails_unchecked :
    MarshalOptions.unchecked.typeCheck = false ∧
    (∃ cause, cause.IsMismatch ∧
      Fails (errand.write ⟨.unchecked, .epoch, 0⟩ (.errand (.due 10000000000000000))) () cause) ∧
    ∃ cause, cause.IsMismatch ∧
      Fails (errand.read .unchecked .epoch (.errand (.stringSet ["Easter"]))) () cause := by
  refine ⟨rfl, ?_, ?_⟩
  · obtain ⟨cause, hfails⟩ := exists_fails_of_none (show (errand.write ⟨.unchecked, .epoch, 0⟩
      (.errand (.due 10000000000000000))).value? = none by decide +kernel)
    exact ⟨cause, (Frame.failsOnly_write_unchecked _ _ _ cause hfails).1, hfails⟩
  · obtain ⟨cause, hfails⟩ := exists_fails_of_none (show (errand.read .unchecked .epoch
      (.errand (.stringSet ["Easter"]))).value? = none by rfl)
    exact ⟨cause, (Frame.failsOnly_read_unmodified rfl rfl _ _ _ cause
      (fails_read_iff.mp hfails)).1, hfails⟩

end Mapper

end ItemMapper
