import ItemMapper.Proofs.Spelling.Written
import ItemMapper.Proofs.Typing.Moved

/-!
# Stored values that are moved are read alike

A stored value that can be moved from one place to another one takes the same type there, and is
read and modified alike.  This goes through lists and documents, and ends with whole items
(`Frame.agree_read_moved`).
-/

namespace ItemMapper

variable {σ : Type}

open Pipeline

variable {reach : Reach σ} {alike : Scope σ → Place → Place → Prop} {options : MarshalOptions}

/-! ## Ways to read -/

namespace WireValue

/-- What is decoded at once does not depend on the place. -/
theorem agree_decodeLeaf {reading other : Reading σ} (htype : other.type = reading.type)
    (stored : WireValue) :
    Except.Agree Eq (stored.decodeLeaf reading) (stored.decodeLeaf other) := by
  unfold decodeLeaf
  rw [htype]
  split
  · split
    · exact .ok rfl
    · exact .error _ _
  · exact .ok rfl
  · split
    · exact .ok rfl
    · exact .error _ _
  · exact .ok rfl

/-- Where a stored value takes a document or a list of items of its own inside, the parts decide. -/
theorem agree_readChosen_moved (hmoves : reach.Moves alike) {stored : WireValue}
    {scope : Scope σ} {types : List (CandidateType σ)} {near far : Place} (hplaces : alike scope near far)
    (huses : ∀ type ∈ types, reach.types scope type)
    {inside farther : CandidateType σ → Option (Pipeline σ Value)}
    (hinside : ∀ type ∈ types, Option.Rel (Agree Eq) (inside type) (farther type)) :
    Agree Eq (stored.readChosen options scope near types inside)
      (stored.readChosen options scope far types farther) := by
  unfold readChosen
  have hchosen := Scope.agree_resolveStored_moved hmoves hplaces huses stored
  obtain ⟨choice, other, hchoice, hother, hsame⟩ | ⟨cause, reason, hcause, hreason⟩ := hchosen.cases
  · rw [hchoice, hother]
    dsimp only
    rw [hsame.type]
    have hparts := hinside choice.type hsame.chosen
    generalize inside choice.type = nested at hparts ⊢
    generalize farther choice.type = distant at hparts ⊢
    cases hparts with
    | none => exact .ofExcept (agree_decodeLeaf hsame.reading.type stored)
    | some hnested => exact hnested
  · rw [hcause, hreason]
    dsimp only
    split
    · exact .throw _ _
    · exact .pure rfl

end WireValue

/-! ## Documents -/

/-- A source that is read alike at places that are alike. -/
def Source.Movable (reach : Reach σ) (alike : Scope σ → Place → Place → Prop) (source : Source σ) :
    Prop :=
  ∀ scope near far types, alike scope near far → (∀ type ∈ types, reach.types scope type) →
    Agree Eq (source.read scope near types) (source.read scope far types)

/-- A document is read alike at places that are alike from their keys on. -/
theorem Sources.agree_read_moved (hmoves : reach.Moves alike) {named : String → Prop}
    {scope : Scope σ} {schema : Schema σ} {near far : Place}
    (hreaches : reach.schemas scope schema)
    (hplaces : ∀ key, named key → alike scope (near.child key) (far.child key))
    {sources : Fields (Source σ)}
    (hsources : ∀ source ∈ sources, named source.1 ∧ source.2.Movable reach alike) :
    Agree Eq (Sources.read options ⟨scope, near, schema⟩ sources)
      (Sources.read options ⟨scope, far, schema⟩ sources) := by
  unfold Sources.read
  have hattributes : Agree Eq
      (schema.attributes.foldlM (readAttribute options ⟨scope, near, schema⟩ sources) [])
      (schema.attributes.foldlM (readAttribute options ⟨scope, far, schema⟩ sources) []) := by
    refine .foldlM_same (fun field hfield document _ hdocument => ?_) rfl
    obtain rfl := hdocument
    unfold readAttribute
    cases hsource : Fields.get? sources field.name with
    | none => exact .pure rfl
    | some source =>
        dsimp only
        obtain ⟨hname, hmovable⟩ := hsources _ (Fields.mem_of_get? hsource)
        refine (hmovable _ _ _ _ (hplaces field.name hname)
          fun _ htype => reach.field hreaches hfield htype).bind ?_
        rintro value _ rfl
        split
        · refine (agree_applyModifiers field.readModifiers _ _ value).bind ?_
          rintro modified _ rfl
          exact .pure rfl
        · exact .pure rfl
  refine hattributes.bind ?_
  rintro document _ rfl
  refine .pure (List.foldl_ext _ _ _ fun given source hsource => ?_)
  unfold readUnknown
  dsimp only
  rw [WireValue.keep?_alike (hmoves.keepsAlike hreaches) _ (hplaces _ (hsources source hsource).1)]

namespace WireValue

mutual

/-- The way to read a stored value leads to the same at places that are alike. -/
theorem movable_reader (hmoves : reach.Moves alike) :
    ∀ stored : WireValue, Source.Movable reach alike ⟨stored, stored.reader options⟩
  | .list items => by
      intro scope near far types hplaces huses
      simp only [reader]
      refine agree_readChosen_moved hmoves hplaces huses fun type htype => ?_
      cases type with
      | array elements =>
          refine .some ((agree_readItems_moved hmoves items hplaces
            (fun _ helement => reach.element (huses _ htype) helement) 0).bind ?_)
          rintro values _ rfl
          exact .pure rfl
      | _ => exact .none
  | .map fields => by
      intro scope near far types hplaces huses
      simp only [reader]
      refine agree_readChosen_moved hmoves hplaces huses fun type htype => ?_
      rcases Scope.enter?_moved alike (hmoves.enter hplaces) hplaces type with
        ⟨inner, schema, nearer, farther, hopens, hnear, hfar, hinner⟩ | ⟨hnear, hfar⟩
      · rw [hnear, hfar]
        have hsources : ∀ source ∈ sources options fields,
            True ∧ source.2.Movable reach alike :=
          fun source hsource => ⟨trivial, movable_sources hmoves fields source hsource⟩
        refine .some ((Sources.agree_read_moved hmoves (reach.inside (huses type htype) hopens)
          (fun key (_ : True) => hmoves.child hinner key) hsources).bind ?_)
        rintro document _ rfl
        exact .pure rfl
      · rw [hnear, hfar]
        exact .none
  | .string _ | .number _ | .binary _ | .boolean _ | .null _ | .stringSet _ | .numberSet _
  | .binarySet _ => by
      intro scope near far types hplaces huses
      simp only [reader]
      exact agree_readChosen_moved hmoves hplaces huses fun _ _ => .none

theorem agree_readItems_moved (hmoves : reach.Moves alike) :
    ∀ (items : List WireValue) {scope : Scope σ} {elements : List (CandidateType σ)}
      {near far : Place}, alike scope near far → (∀ type ∈ elements, reach.types scope type) →
        ∀ index, Agree Eq (readItems options scope near elements index items)
          (readItems options scope far elements index items)
  | [], _, _, _, _, _, _, _ => by
      simp only [readItems]
      exact .pure rfl
  | item :: rest, scope, elements, near, far, hplaces, huses, index => by
      simp only [readItems]
      refine (movable_reader hmoves item _ _ _ _ (hmoves.item hplaces index) huses).bind ?_
      rintro value _ rfl
      refine (agree_readItems_moved hmoves rest hplaces huses (index + 1)).bind ?_
      rintro others _ rfl
      exact .pure rfl

theorem movable_sources (hmoves : reach.Moves alike) : ∀ fields : List (String × WireValue),
    ∀ source ∈ sources options fields, source.2.Movable reach alike
  | [] => by simp [sources]
  | (key, stored) :: rest => by
      rw [sources, List.forall_mem_cons]
      exact ⟨movable_reader hmoves stored, movable_sources hmoves rest⟩

end

end WireValue

end ItemMapper
