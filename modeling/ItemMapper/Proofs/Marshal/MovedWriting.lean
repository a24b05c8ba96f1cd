import ItemMapper.Proofs.Marshal.Drafts
import ItemMapper.Proofs.Typing.Elsewhere

/-!
# Values that are moved are written alike

A value that can be moved from one place to another one takes the same type there, and is therefore
encoded alike (`Value.agree_encodeAs_moved`).  For a document the stages of writing come before this.
They take it through the same drafts at both places, and all of these can be moved
(`Drafts.agree_write_moved`).

Replacements are drafted to some depth, by recursion on which they are shown to be written alike
(`Value.movable_madeDraft`).
-/

namespace ItemMapper

variable {σ : Type}

open Pipeline

variable {reach : Reach σ} {alike : Scope σ → Place → Place → Prop}

/-! ## Values with a type -/

namespace Value

/-- Only documents and lists of items with types of their own depend on the place. -/
theorem agree_encodeAs_anywhere {value : Value} {reading other : Reading σ}
    (htype : other.type = reading.type) (hvalue : value.isDocument = false)
    (harray : ∀ elements, reading.type ≠ .array elements) :
    Except.Agree Eq (value.encodeAs reading) (value.encodeAs other) := by
  cases value with
  | map fields => contradiction
  | list items =>
      rw [encodeAs, encodeAs]
      split
      · next elements hreading => exact absurd hreading (harray elements)
      · split
        · next elements hother => exact absurd (htype ▸ hother) (harray elements)
        · exact Reading.encodeScalar_at htype _
  | _ =>
      simp only [encodeAs]
      exact Reading.encodeScalar_at htype _

/-- A value that is encoded alike at places that are alike is so in readings that are moved. -/
theorem agree_encodeAs_movedReading {value : Value}
    (hvalue : ∀ {scope : Scope σ} {type : CandidateType σ} {near far : Place},
      alike scope near far → reach.types scope type →
        Except.Agree Eq (value.encodeAs ⟨scope, near, type⟩) (value.encodeAs ⟨scope, far, type⟩))
    {reading other : Reading σ} (hmoved : reach.MovedReading alike value.isDocument reading other) :
    Except.Agree Eq (value.encodeAs reading) (value.encodeAs other) := by
  obtain ⟨scope, near, type⟩ := reading
  obtain ⟨_, far, _⟩ := other
  obtain ⟨rfl, rfl, huses, hplaces | ⟨hscalar, htype⟩⟩ := hmoved
  · exact hvalue hplaces huses
  · exact agree_encodeAs_anywhere rfl hscalar htype

theorem agree_encode_moved_of (hmoves : reach.Moves alike) {value : Value}
    (hvalue : ∀ {scope : Scope σ} {type : CandidateType σ} {near far : Place},
      alike scope near far → reach.types scope type →
        Except.Agree Eq (value.encodeAs ⟨scope, near, type⟩) (value.encodeAs ⟨scope, far, type⟩))
    {scope : Scope σ} {types : List (CandidateType σ)} {near far : Place}
    (hplaces : alike scope near far) (huses : ∀ type ∈ types, reach.types scope type) :
    Except.Agree Eq (scope.encode near types value) (scope.encode far types value) := by
  unfold Scope.encode
  split
  · exact .ok rfl
  · exact (Scope.agree_resolve_moved hmoves hplaces huses value).bind fun _ _ hsame =>
      agree_encodeAs_movedReading hvalue hsame.reading

mutual

/-- A value is encoded alike at places that are alike. -/
theorem agree_encodeAs_moved (hmoves : reach.Moves alike) : ∀ (value : Value)
    {scope : Scope σ} {type : CandidateType σ} {near far : Place},
      alike scope near far → reach.types scope type →
        Except.Agree Eq (value.encodeAs ⟨scope, near, type⟩) (value.encodeAs ⟨scope, far, type⟩)
  | .list items, scope, type, near, far, hplaces, huses => by
      cases type with
      | array elements =>
          simp only [encodeAs]
          refine (agree_encodeItems_moved hmoves items hplaces
            (fun _ htype => reach.element huses htype) 0).bind ?_
          rintro storeds _ rfl
          exact .ok rfl
      | _ => exact agree_encodeAs_anywhere rfl rfl nofun
  | .map fields, scope, type, near, far, hplaces, huses => by
      simp only [encodeAs, Reading.enter?]
      rcases Scope.enter?_moved alike (hmoves.enter hplaces) hplaces type with
        ⟨inner, schema, nearer, farther, hopens, hnear, hfar, hinner⟩ | ⟨hnear, hfar⟩
      · simp only [hnear, hfar]
        refine (agree_encodeFields_moved hmoves fields (hmoves.child hinner)
          (reach.inside huses hopens)).bind ?_
        rintro pairs _ rfl
        exact .ok rfl
      · simp only [hnear, hfar]
        exact Reading.encodeScalar_at (by rfl) _
  | .undefined, _, _, _, _, _, _ | .null, _, _, _, _, _, _ | .bool _, _, _, _, _, _, _
  | .number _, _, _, _, _, _, _ | .string _, _, _, _, _, _, _ | .binary _, _, _, _, _, _, _
  | .date _, _, _, _, _, _, _ | .set _, _, _, _, _, _, _ => by
      simp only [encodeAs]
      exact Reading.encodeScalar_at (by rfl) _

theorem agree_encodeItems_moved (hmoves : reach.Moves alike) : ∀ (items : List Value)
    {scope : Scope σ} {elements : List (CandidateType σ)} {near far : Place},
      alike scope near far → (∀ type ∈ elements, reach.types scope type) →
        ∀ index, Except.Agree Eq (encodeItems scope near elements index items)
          (encodeItems scope far elements index items)
  | [], _, _, _, _, _, _, _ => .ok rfl
  | item :: rest, scope, elements, near, far, hplaces, huses, index => by
      rw [encodeItems_cons, encodeItems_cons]
      refine (agree_encode_moved_of hmoves (agree_encodeAs_moved hmoves item)
        (hmoves.item hplaces index) huses).bind ?_
      rintro stored _ rfl
      refine (agree_encodeItems_moved hmoves rest hplaces huses (index + 1)).bind ?_
      rintro others _ rfl
      exact .ok rfl

theorem agree_encodeFields_moved (hmoves : reach.Moves alike) :
    ∀ (fields : List (String × Value)) {scope : Scope σ} {schema : Schema σ} {near far : Place},
      (∀ key, alike scope (near.child key) (far.child key)) → reach.schemas scope schema →
        Except.Agree Eq (encodeFields ⟨scope, near, schema⟩ fields)
          (encodeFields ⟨scope, far, schema⟩ fields)
  | [], _, _, _, _, _, _ => .ok rfl
  | (key, value) :: rest, scope, schema, near, far, hplaces, hreaches => by
      have hchild := hplaces key
      rw [encodeFields_cons, encodeFields_cons]
      have hfield : Except.Agree Eq (Frame.encodeField ⟨scope, near, schema⟩ key value)
          (Frame.encodeField ⟨scope, far, schema⟩ key value) := by
        unfold Frame.encodeField
        cases hnative : schema.nativeAttribute? key with
        | none => simp only [keep?_alike (hmoves.keepsAlike hreaches) value hchild]; exact .ok rfl
        | some field =>
            have hmem := SchemaOf.mem_of_nativeAttribute? hnative
            refine (agree_encode_moved_of hmoves (agree_encodeAs_moved hmoves value)
              hchild fun _ htype => reach.field hreaches hmem htype).bind ?_
            rintro stored _ rfl
            exact .ok rfl
      refine hfield.bind ?_
      rintro stored _ rfl
      refine (agree_encodeFields_moved hmoves rest hplaces hreaches).bind ?_
      rintro others _ rfl
      exact .ok rfl

end

/-! ## Ways to write -/

/-- Where a value takes a document or a list of items of its own inside, the parts decide. -/
theorem agree_writeChosen_moved (hmoves : reach.Moves alike) {writing : Writing} {value : Value}
    {scope : Scope σ} {types : List (CandidateType σ)} {near far : Place} (hplaces : alike scope near far)
    (huses : ∀ type ∈ types, reach.types scope type)
    {inside farther : CandidateType σ → Option (Pipeline σ WireValue)}
    (hinside : ∀ type ∈ types, Option.Rel (Agree Eq) (inside type) (farther type)) :
    Agree Eq (value.writeChosen writing scope near types inside)
      (value.writeChosen writing scope far types farther) := by
  unfold writeChosen
  have hchosen := Scope.agree_resolve_moved hmoves hplaces huses value
  obtain ⟨choice, other, hchoice, hother, hsame⟩ | ⟨cause, reason, hcause, hreason⟩ := hchosen.cases
  · rw [hchoice, hother]
    dsimp only
    rw [hsame.type]
    have hparts := hinside choice.type hsame.chosen
    generalize inside choice.type = nested at hparts ⊢
    generalize farther choice.type = distant at hparts ⊢
    cases hparts with
    | none =>
        exact .ofExcept (agree_encodeAs_movedReading (agree_encodeAs_moved hmoves value)
          hsame.reading)
    | some hnested =>
        refine Agree.bind hnested ?_
        rintro stored _ rfl
        exact .pure rfl
  · rw [hcause, hreason]
    dsimp only
    split
    · exact .throw _ _
    · exact .pure rfl

end Value

/-! ## Documents -/

/-- A draft that is written alike at places that are alike. -/
def Draft.Movable (reach : Reach σ) (alike : Scope σ → Place → Place → Prop) (draft : Draft σ) :
    Prop :=
  ∀ scope near far types, alike scope near far → (∀ type ∈ types, reach.types scope type) →
    Agree Eq (draft.write scope near types) (draft.write scope far types)

section Documents

variable {make : Value → Draft σ} {writing : Writing} {named : String → Prop}

theorem Drafts.agree_encodeAttribute_moved {scope : Scope σ} {schema : Schema σ} {near far : Place}
    (hreaches : reach.schemas scope schema)
    (hplaces : ∀ key, named key → alike scope (near.child key) (far.child key))
    {drafts : Fields (Draft σ)} (hdrafts : All named (Draft.Movable reach alike) drafts)
    {field : Attribute σ} (hfield : field ∈ schema.attributes) (hname : named field.name) :
    Agree Eq (encodeAttribute writing ⟨scope, near, schema⟩ drafts field)
      (encodeAttribute writing ⟨scope, far, schema⟩ drafts field) := by
  unfold encodeAttribute
  dsimp only
  split
  · exact .throw_bind _ _ _ _
  · cases hdraft : defined? drafts field.name with
    | none => exact .pure rfl
    | some draft =>
        refine (agree_checkValue (fun _ _ => rfl) (fun _ _ => rfl) _ _).bind fun _ _ _ => ?_
        refine (hdrafts.defined? hdraft _ _ _ _ (hplaces field.name hname)
          fun _ htype => reach.field hreaches hfield htype).bind ?_
        rintro stored _ rfl
        exact .pure rfl

/-- A document is written alike at places that are alike from their keys on. -/
theorem Drafts.agree_write_moved (hmoves : reach.Moves alike)
    (hmake : ∀ value, (make value).Movable reach alike) {scope : Scope σ} {schema : Schema σ}
    {near far : Place} (hreaches : reach.schemas scope schema) (hnames : Names named schema)
    (hplaces : ∀ key, named key → alike scope (near.child key) (far.child key))
    {fields : List (String × Draft σ)}
    (hfields : ∀ field ∈ fields, named field.1 ∧ field.2.Movable reach alike) :
    Agree Eq (write make writing ⟨scope, near, schema⟩ fields)
      (write make writing ⟨scope, far, schema⟩ fields) := by
  refine agree_write_of hnames hmake hfields fun drafts hdrafts => ?_
  refine (Agree.mapM_same fun field hfield => agree_encodeAttribute_moved hreaches hplaces hdrafts
    hfield (hnames.field field hfield)).bind ?_
  rintro declared _ rfl
  have hunknown : encodeUnknown ⟨scope, near, schema⟩ drafts =
      encodeUnknown ⟨scope, far, schema⟩ drafts := by
    unfold encodeUnknown
    refine List.filterMap_congr fun entry hentry => ?_
    dsimp only
    rw [Value.keep?_alike (hmoves.keepsAlike hreaches) _
      (hplaces _ (hdrafts entry (List.mem_filter.mp hentry).1).1)]
  rw [hunknown]
  exact .pure rfl

end Documents

namespace Value

variable {make : Value → Draft σ} {writing : Writing}

mutual

/-- The way to write a value leads to the same at places that are alike. -/
theorem movable_writer (hmoves : reach.Moves alike)
    (hmake : ∀ value, (make value).Movable reach alike) :
    ∀ value : Value, Draft.Movable reach alike ⟨value, value.writer make writing⟩
  | .undefined => fun _ _ _ _ _ _ => by simp only [writer]; exact .pure rfl
  | .list items => by
      intro scope near far types hplaces huses
      simp only [writer]
      refine agree_writeChosen_moved hmoves hplaces huses fun type htype => ?_
      cases type with
      | array elements =>
          refine .some ((agree_writeItems_moved hmoves hmake items hplaces
            (fun _ helement => reach.element (huses _ htype) helement) 0).bind ?_)
          rintro storeds _ rfl
          exact .pure rfl
      | _ => exact .none
  | .map fields => by
      intro scope near far types hplaces huses
      simp only [writer]
      refine agree_writeChosen_moved hmoves hplaces huses fun type htype => ?_
      rcases Scope.enter?_moved alike (hmoves.enter hplaces) hplaces type with
        ⟨inner, schema, nearer, farther, hopens, hnear, hfar, hinner⟩ | ⟨hnear, hfar⟩
      · rw [hnear, hfar]
        have hdrafts : ∀ draft ∈ drafts make writing fields,
            True ∧ draft.2.Movable reach alike :=
          fun draft hdraft => ⟨trivial, movable_drafts hmoves hmake fields draft hdraft⟩
        refine .some ((Drafts.agree_write_moved hmoves hmake
          (reach.inside (huses type htype) hopens) .all (fun key _ => hmoves.child hinner key)
          hdrafts).bind ?_)
        rintro item _ rfl
        exact .pure rfl
      · rw [hnear, hfar]
        exact .none
  | .null | .bool _ | .number _ | .string _ | .binary _ | .date _ | .set _ => by
      intro scope near far types hplaces huses
      simp only [writer]
      exact agree_writeChosen_moved hmoves hplaces huses fun _ _ => .none

theorem agree_writeItems_moved (hmoves : reach.Moves alike)
    (hmake : ∀ value, (make value).Movable reach alike) :
    ∀ (items : List Value) {scope : Scope σ} {elements : List (CandidateType σ)}
      {near far : Place}, alike scope near far → (∀ type ∈ elements, reach.types scope type) →
        ∀ index, Agree Eq (writeItems make writing scope near elements index items)
          (writeItems make writing scope far elements index items)
  | [], _, _, _, _, _, _, _ => by
      simp only [writeItems]
      exact .pure rfl
  | item :: rest, scope, elements, near, far, hplaces, huses, index => by
      simp only [writeItems]
      refine (movable_writer hmoves hmake item _ _ _ _ (hmoves.item hplaces index) huses).bind ?_
      rintro stored _ rfl
      refine (agree_writeItems_moved hmoves hmake rest hplaces huses (index + 1)).bind ?_
      rintro others _ rfl
      exact .pure rfl

theorem movable_drafts (hmoves : reach.Moves alike)
    (hmake : ∀ value, (make value).Movable reach alike) : ∀ fields : List (String × Value),
      ∀ draft ∈ drafts make writing fields, draft.2.Movable reach alike
  | [] => by simp [drafts]
  | (key, value) :: rest => by
      rw [drafts, List.forall_mem_cons]
      exact ⟨movable_writer hmoves hmake value, movable_drafts hmoves hmake rest⟩

end

/-! ## Replacements -/

variable (hmoves : reach.Moves alike)

include hmoves

theorem movable_shallowDraft (value : Value) :
    (value.shallowDraft (σ := σ) writing).Movable reach alike := by
  intro scope near far types hplaces huses
  unfold shallowDraft
  cases value with
  | undefined => exact .pure rfl
  | list items => exact .throw _ _
  | map fields => exact .throw _ _
  | _ => exact agree_writeChosen_moved hmoves hplaces huses fun _ _ => .none

theorem movable_writerTo : ∀ (depth : Nat) (value : Value),
    Draft.Movable reach alike ⟨value, writerTo writing depth value⟩
  | 0, value => by
      rw [writerTo]
      exact movable_writer hmoves (movable_shallowDraft hmoves) value
  | depth + 1, value => by
      rw [writerTo]
      exact movable_writer hmoves (movable_writerTo depth) value

theorem movable_madeDraft (depth : Nat) (value : Value) :
    (madeDraft writing depth value).Movable reach alike := by
  cases depth with
  | zero => exact movable_shallowDraft hmoves value
  | succ depth => exact movable_writerTo hmoves depth value

end Value

end ItemMapper
