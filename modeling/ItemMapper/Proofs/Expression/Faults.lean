import ItemMapper.Expression.Predicate
import ItemMapper.Proofs.Plain.Codec

/-!
# What a comparison can fail with

A comparison of a condition that compiles or not has a path and operands of the user, and only
these can be at fault: the path is malformed or names no attribute, or an operand is of a wrong kind
or has no stored form (`MapperError.OfComparison`).  A path fails as `follow` goes along it, and the
stored form of a value fails only where a value fits none of its types, at any depth
(`Value.isMismatch_of_encodeAs`).
-/

namespace ItemMapper

variable {σ α β ε : Type}

/-! ## Failed computations -/

theorem Except.bind_eq_error {first : Except ε α} {next : α → Except ε β} {cause : ε} :
    (first >>= next) = .error cause ↔
      first = .error cause ∨ ∃ middle, first = .ok middle ∧ next middle = .error cause := by
  cases first <;> simp [bind, Except.bind]

@[simp] theorem Except.pure_eq_error {given : α} {cause : ε} :
    (pure given : Except ε α) = .error cause ↔ False := by
  simp [pure, Except.pure]

/-- Mapping a list fails only where one of its items does. -/
theorem Except.exists_of_mapM_eq_error {step : α → Except ε β} {items : List α} {cause : ε}
    (hmap : items.mapM step = .error cause) : ∃ item ∈ items, step item = .error cause := by
  induction items with
  | nil => simp at hmap
  | cons item rest ih =>
      simp only [List.mapM_cons, Except.bind_eq_error, Except.pure_eq_error, and_false, exists_false,
        or_false] at hmap
      rcases hmap with hitem | ⟨_, _, hrest⟩
      · exact ⟨item, by simp, hitem⟩
      · obtain ⟨other, hother, hcause⟩ := ih hrest
        exact ⟨other, by simp [hother], hcause⟩

/-! ## Stored forms -/

/-- A value fits none of its types. -/
def MapperError.IsMismatch (cause : MapperError) : Prop :=
  ∃ path expected actual, cause = .typeMismatch path expected actual

theorem Scope.isMismatch_of_resolve {scope : Scope σ} {place : Place}
    {types : List (CandidateType σ)} {value : Value} {cause : MapperError}
    (hresolve : scope.resolve place types value = .error cause) : cause.IsMismatch := by
  unfold Scope.resolve at hresolve
  split at hresolve
  · cases hresolve
  · exact ⟨_, _, _, (Except.error.inj hresolve).symm⟩

theorem Reading.isMismatch_of_encodeSet {reading : Reading σ} {element : CandidateType σ}
    {members : List Value} {cause : MapperError}
    (hencode : reading.encodeSet element members = .error cause) : cause.IsMismatch := by
  unfold Reading.encodeSet at hencode
  split at hencode
  · rename_i kind _
    cases hkind : kind.encode _ with
    | ok stored =>
        rw [hkind] at hencode
        cases hencode
    | error member =>
        rw [hkind] at hencode
        exact ⟨_, _, _, (Except.error.inj hencode).symm⟩
  · cases hencode
  · exact ⟨_, _, _, (Except.error.inj hencode).symm⟩

theorem Reading.isMismatch_of_encodeScalar {reading : Reading σ} {value : Value}
    {cause : MapperError} (hencode : reading.encodeScalar value = .error cause) :
    cause.IsMismatch := by
  unfold Reading.encodeScalar at hencode
  split at hencode <;> try cases hencode
  · split at hencode
    · cases hencode
    · exact ⟨_, _, _, (Except.error.inj hencode).symm⟩
  all_goals first
    | exact Reading.isMismatch_of_encodeSet hencode
    | exact ⟨_, _, _, rfl⟩

/-- Only the type and the value at hand can be at fault, if that is so for the chosen reading. -/
theorem Scope.isMismatch_of_encode_of {scope : Scope σ} {place : Place}
    {types : List (CandidateType σ)} {value : Value} {cause : MapperError}
    (hvalue : ∀ {reading : Reading σ}, value.encodeAs reading = .error cause → cause.IsMismatch)
    (hencode : scope.encode place types value = .error cause) : cause.IsMismatch := by
  unfold Scope.encode at hencode
  split at hencode
  · cases hencode
  · rcases Except.bind_eq_error.mp hencode with hchoice | ⟨choice, -, hchosen⟩
    · exact Scope.isMismatch_of_resolve hchoice
    · exact hvalue hchosen

namespace Value

mutual

/-- Encoding fails where a value, at any depth, fits none of its types. -/
theorem isMismatch_of_encodeAs : ∀ (value : Value) {reading : Reading σ} {cause : MapperError},
    value.encodeAs reading = .error cause → cause.IsMismatch
  | .list items, reading, cause, hencode => by
      rw [encodeAs] at hencode
      split at hencode
      · rcases Except.bind_eq_error.mp hencode with hitems | ⟨_, _, hnone⟩
        · exact isMismatch_of_encodeItems items hitems
        · cases hnone
      · exact Reading.isMismatch_of_encodeScalar hencode
  | .map fields, reading, cause, hencode => by
      rw [encodeAs] at hencode
      split at hencode
      · rcases Except.bind_eq_error.mp hencode with hfields | ⟨_, _, hnone⟩
        · exact isMismatch_of_encodeFields fields hfields
        · cases hnone
      · exact Reading.isMismatch_of_encodeScalar hencode
  | .undefined, _, _, hencode | .null, _, _, hencode | .bool _, _, _, hencode
  | .number _, _, _, hencode | .string _, _, _, hencode | .binary _, _, _, hencode
  | .date _, _, _, hencode | .set _, _, _, hencode => by
      simp only [encodeAs] at hencode
      exact Reading.isMismatch_of_encodeScalar hencode

theorem isMismatch_of_encodeItems {scope : Scope σ} {place : Place}
    {elements : List (CandidateType σ)} : ∀ (items : List Value) {index : Nat}
    {cause : MapperError}, encodeItems scope place elements index items = .error cause →
      cause.IsMismatch
  | [], _, _, hencode => by cases hencode
  | item :: rest, index, _, hencode => by
      rw [encodeItems_cons] at hencode
      rcases Except.bind_eq_error.mp hencode with hitem | ⟨_, _, hothers⟩
      · exact Scope.isMismatch_of_encode_of (isMismatch_of_encodeAs item) hitem
      · rcases Except.bind_eq_error.mp hothers with hrest | ⟨_, _, hnone⟩
        · exact isMismatch_of_encodeItems rest hrest
        · cases hnone

theorem isMismatch_of_encodeFields {frame : Frame σ} : ∀ (fields : List (String × Value))
    {cause : MapperError}, encodeFields frame fields = .error cause → cause.IsMismatch
  | [], _, hencode => by cases hencode
  | (key, value) :: rest, _, hencode => by
      rw [encodeFields_cons] at hencode
      rcases Except.bind_eq_error.mp hencode with hfield | ⟨_, _, hothers⟩
      · rw [Frame.encodeField] at hfield
        split at hfield
        · rcases Except.bind_eq_error.mp hfield with hvalue | ⟨_, _, hnone⟩
          · exact Scope.isMismatch_of_encode_of (isMismatch_of_encodeAs value) hvalue
          · cases hnone
        · cases hfield
      · rcases Except.bind_eq_error.mp hothers with hrest | ⟨_, _, hnone⟩
        · exact isMismatch_of_encodeFields rest hrest
        · cases hnone

end

end Value

theorem Scope.isMismatch_of_encode {scope : Scope σ} {place : Place}
    {types : List (CandidateType σ)} {value : Value} {cause : MapperError}
    (hencode : scope.encode place types value = .error cause) : cause.IsMismatch :=
  isMismatch_of_encode_of (Value.isMismatch_of_encodeAs value) hencode

/-! ## Paths -/

/-- What can be wrong with the path or with an operand of a comparison. -/
inductive MapperError.OfComparison : MapperError → Prop
  | badPath (path : String) : OfComparison (.parameter (.badPath path))
  | unknownAttribute (path : String) : OfComparison (.unknownAttribute path)
  | typeMismatch (path : String) (expected : List String) (actual : String) :
      OfComparison (.typeMismatch path expected actual)
  | emptyOperand (path : String) : OfComparison (.ofCondition (.emptyOperand path))

/-- A path fails as it is followed, part by part. -/
theorem PathPosition.ofComparison_of_follow {path : String} {cause : MapperError} :
    ∀ {parts : List String} {position : PathPosition σ} {segments : List Segment}
      {last : Option (Attribute σ)},
      follow path parts position segments last = .error cause → cause.OfComparison
  | [], position, segments, last, hfollow => by simp [follow] at hfollow
  | part :: rest, position, segments, last, hfollow => by
      simp only [follow] at hfollow
      split at hfollow
      · cases hfollow; exact .badPath path
      · split at hfollow
        · split at hfollow
          · exact ofComparison_of_follow hfollow
          · split at hfollow
            · cases hfollow
            · cases hfollow; exact .unknownAttribute path
        · split at hfollow
          · split at hfollow
            · cases hfollow; exact .unknownAttribute path
            · exact ofComparison_of_follow hfollow
          · split at hfollow
            · split at hfollow
              · exact ofComparison_of_follow hfollow
              · split at hfollow
                · cases hfollow
                · cases hfollow; exact .unknownAttribute path
            · cases hfollow; exact .unknownAttribute path

/-! ## Comparisons -/

theorem Scope.ofComparison_of_operand {scope : Scope σ} {path : String}
    {types : Option (List (CandidateType σ))} {value : Value} {cause : MapperError}
    (hoperand : scope.operand path types value = .error cause) : cause.OfComparison := by
  unfold operand at hoperand
  cases types with
  | some types =>
      rcases Except.bind_eq_error.mp hoperand with hencode | ⟨_ | stored, _, hnone⟩
      · obtain ⟨place, expected, actual, rfl⟩ := isMismatch_of_encode hencode
        exact .typeMismatch place expected actual
      · cases hnone
        exact .emptyOperand path
      · cases hnone
  | none =>
      rcases Except.bind_eq_error.mp hoperand with hnatural | ⟨_ | stored, _, hnone⟩
      · cases hnatural
      · cases hnone
        exact .emptyOperand path
      · cases hnone

/-- A comparison that has as many operands as its operator takes fails only for its path or for one
of its operands: neither is there too few stored operands, nor too many. -/
theorem Scope.ofComparison_of_test {scope : Scope σ} {comparison : Comparison}
    (htakes : comparison.op.takes comparison.operands.length = true) {cause : MapperError}
    (htest : scope.test comparison = .error cause) : cause.OfComparison := by
  simp only [Scope.test, Except.bind_eq_error] at htest
  rcases htest with hlookup | ⟨target, -, hoperands | ⟨operands, hoperands, htest⟩⟩
  · exact PathPosition.ofComparison_of_follow hlookup
  · obtain ⟨operand, -, hoperand⟩ := Except.exists_of_mapM_eq_error hoperands
    exact ofComparison_of_operand hoperand
  · have hlength := (Except.mapM_eq_ok.mp hoperands).length_eq
    rw [← hlength, if_pos htakes] at htest
    simp at htest

end ItemMapper
