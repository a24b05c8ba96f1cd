import ItemMapper.Proofs.Reference.Mapper
import ItemMapper.Proofs.Registration.Expressions

/-!
# Registering models

A name keeps the model that was registered under it first, and later attempts to register another
one have no effect (`Registry.find?_after`).  Models that the schema of a mapper does not lead to
play no part in what it does, so it gives the same answers once they are registered
(`Mapper.answersAs_after`): the types that can be reached from the schema (`Registry.Uses`) mean
the same over the larger registry, and all that a mapper does goes through such types.
-/

namespace ItemMapper

variable {σ : Type}

/-! ## Registrations one after another -/

namespace Registry

/-- The registry after an attempt to register a model, which has no effect if it is rejected. -/
def attempt (registry : Registry σ) (model : Model σ) : Registry σ :=
  match registry.register model with
  | .ok larger => larger
  | .error _ => registry

/-- The registry after some attempts, one after another. -/
def after (registry : Registry σ) (attempts : List (Model σ)) : Registry σ :=
  attempts.foldl attempt registry

variable {registry : Registry σ} {model : Model σ} {attempts : List (Model σ)} {name : String}

theorem register_of_new (hnew : registry.find? model.name = none) :
    registry.register model = .ok ⟨registry.models ++ [model]⟩ := by
  rw [register, contains, hnew]
  rfl

theorem register_of_taken {first : Model σ} (htaken : registry.find? model.name = some first) :
    registry.register model = .error (.parameter (.registeredTwice model.name)) := by
  rw [register, contains, htaken]
  rfl

theorem attempt_of_new (hnew : registry.find? model.name = none) :
    registry.attempt model = ⟨registry.models ++ [model]⟩ := by
  rw [attempt, register_of_new hnew]

theorem attempt_of_rejected {cause : MapperError}
    (hrejected : registry.register model = .error cause) : registry.attempt model = registry := by
  rw [attempt, hrejected]

theorem after_append (registry : Registry σ) (earlier later : List (Model σ)) :
    registry.after (earlier ++ later) = (registry.after earlier).after later :=
  List.foldl_append

/-- One more attempt adds its model if the name is new. -/
theorem find?_attempt (registry : Registry σ) (model : Model σ) (name : String) :
    (registry.attempt model).find? name =
      (registry.find? name).or ([model].find? (·.name == name)) := by
  cases hfind : registry.find? model.name with
  | none =>
      rw [attempt_of_new hfind]
      exact List.find?_append
  | some first =>
      rw [attempt_of_rejected (register_of_taken hfind)]
      by_cases hname : model.name = name
      · rw [← hname, hfind]
        rfl
      · simp [hname]

/-- A name leads to the model that it led to before, and otherwise to the first one among the
attempts. -/
theorem find?_after (registry : Registry σ) (attempts : List (Model σ)) (name : String) :
    (registry.after attempts).find? name =
      (registry.find? name).or (attempts.find? (·.name == name)) := by
  induction attempts generalizing registry with
  | nil => exact Option.or_none.symm
  | cons model rest ih =>
      have hrest : (registry.after (model :: rest)).find? name =
          ((registry.attempt model).after rest).find? name := rfl
      rw [hrest, ih, find?_attempt, Option.or_assoc, ← List.find?_append]
      rfl

/-! ## What a schema leads to -/

mutual

/-- The schemas that documents inside a document of a schema can have, at any depth. -/
inductive Reaches (registry : Registry σ) (start : Schema σ) : Schema σ → Prop
  | start : Reaches registry start start
  | object {schema : Schema σ} (hobject : Uses registry start (.object schema)) :
      Reaches registry start schema
  | model {name : String} {model : Model σ} (hname : Uses registry start (.model name))
      (hmodel : registry.find? name = some model) : Reaches registry start model.schema

/-- The types that such schemas name. -/
inductive Uses (registry : Registry σ) (start : Schema σ) : CandidateType σ → Prop
  | attribute {schema : Schema σ} {field : Attribute σ} {type : CandidateType σ}
      (hschema : Reaches registry start schema) (hfield : field ∈ schema.attributes)
      (htype : type ∈ field.types) : Uses registry start type
  | element {elements : List (CandidateType σ)} {type : CandidateType σ}
      (harray : Uses registry start (.array elements)) (htype : type ∈ elements) :
      Uses registry start type
  | member {element : CandidateType σ} (hset : Uses registry start (.set element)) :
      Uses registry start element

end

variable {start : Schema σ} {types : CandidateType σ → Prop}

theorem closed_uses (registry : Registry σ) (start : Schema σ) :
    registry.Closed (registry.Uses start) where
  object hobject _ hfield _ htype := .attribute (.object hobject) hfield htype
  element harray _ htype := .element harray htype
  member hset := .member hset
  model hname hmodel _ hfield _ htype := .attribute (.model hname hmodel) hfield htype

theorem within_uses (registry : Registry σ) (start : Schema σ) :
    start.Within (registry.Uses start) :=
  fun _ hfield _ htype => .attribute .start hfield htype

mutual

/-- Types that one step does not leave hold all types that can be reached. -/
theorem Closed.within_of_reaches (hclosed : registry.Closed types) (hstart : start.Within types) :
    ∀ {schema : Schema σ}, registry.Reaches start schema → schema.Within types
  | _, .start => hstart
  | _, .object hobject => hclosed.object (hclosed.of_uses hstart hobject)
  | _, .model hname hmodel => hclosed.model (hclosed.of_uses hstart hname) hmodel

theorem Closed.of_uses (hclosed : registry.Closed types) (hstart : start.Within types) :
    ∀ {type : CandidateType σ}, registry.Uses start type → types type
  | _, .attribute hschema hfield htype =>
      hclosed.within_of_reaches hstart hschema _ hfield _ htype
  | _, .element harray htype => hclosed.element (hclosed.of_uses hstart harray) _ htype
  | _, .member hset => hclosed.member (hclosed.of_uses hstart hset)

end

/-- The types that a schema leads to mean the same after models were registered that it does not
lead to. -/
theorem shares_after (hattempts : ∀ extra ∈ attempts, ¬ registry.Uses start (.model extra.name)) :
    registry.Shares (registry.after attempts) (registry.Uses start) where
  toClosed := closed_uses registry start
  find? := by
    intro name hname
    have hnone : attempts.find? (·.name == name) = none := by
      refine List.find?_eq_none.mpr fun extra hextra heq => hattempts extra hextra ?_
      rwa [eq_of_beq heq]
    rw [find?_after, hnone, Option.or_none]

end Registry

/-! ## The same answers -/

namespace Mapper

/-- Two mappers give the same answers: the same results, the same errors, and the same changes of
the state of the application. -/
structure AnswersAs (mapper other : Mapper σ) : Prop where
  write : ∀ writing document, mapper.write writing document = other.write writing document
  read : ∀ options now item, mapper.read options now item = other.read options now item
  key : ∀ document, mapper.key document = other.key document
  typeAt? : ∀ path value, mapper.typeAt? path value = other.typeAt? path value
  condition : ∀ condition, mapper.condition condition = other.condition condition
  update : ∀ writing current changes,
    mapper.update writing current changes = other.update writing current changes

/-- The mapper for the same model over another registry. -/
def rebase (mapper : Mapper σ) (other : Registry σ) : Mapper σ :=
  ⟨other, mapper.model⟩

section Rebase

variable {mapper : Mapper σ} {other : Registry σ} {types : CandidateType σ → Prop}
  (hshares : mapper.registry.Shares other types) (hmodel : mapper.model.schema.Within types)

include hshares hmodel

theorem keyField_rebase (document : Document) {field : Attribute σ}
    (hfield : field ∈ mapper.model.schema.attributes) :
    (mapper.rebase other).keyField document field = mapper.keyField document field := by
  have hscope : mapper.scope.In mapper.registry types := ⟨rfl, hmodel⟩
  have hencode := Scope.encode_rebase hshares hscope (hmodel field hfield)
    (Place.root.child field.name)
  simp only [keyField]
  split
  · rfl
  · next value _ => exact congrArg (· >>= _) (hencode value)

theorem key_rebase (document : Document) :
    (mapper.rebase other).key document = mapper.key document :=
  congrArg (· >>= _) (mapM_congr fun _ hfield =>
    keyField_rebase hshares hmodel document (Scope.mem_of_key hfield))

theorem typeAt?_rebase (path : String) (value : Value) :
    (mapper.rebase other).typeAt? path value = mapper.typeAt? path value := by
  have hscope : mapper.scope.In mapper.registry types := ⟨rfl, hmodel⟩
  have hlookup : (mapper.rebase other).scope.lookup path = mapper.scope.lookup path :=
    Scope.lookup_rebase hshares hscope path
  rw [typeAt?, typeAt?, hlookup]
  refine Except.bind_congr_of_ok fun target htarget => ?_
  cases htypes : target.types with
  | none => rfl
  | some candidates =>
      have hwithin := Scope.within_of_lookup hshares hscope htarget candidates htypes
      have hresolve : (mapper.rebase other).scope.resolve (.ofText path) candidates value =
          (mapper.scope.resolve (.ofText path) candidates value).map (·.rebase other) :=
        Scope.resolve_rebase hshares hscope hwithin _ value
      dsimp only
      rw [hresolve]
      cases mapper.scope.resolve (.ofText path) candidates value <;> rfl

/-- A mapper gives the same answers over a registry that shares the types of its schema. -/
theorem answersAs_rebase : (mapper.rebase other).AnswersAs mapper := by
  have hscope : mapper.scope.In mapper.registry types := ⟨rfl, hmodel⟩
  have hframe := Scope.in_frame hscope
  exact {
    write := fun writing document => Frame.write_rebase hshares hframe writing document
    read := fun options _ item => congrArg (· >>= _) (Frame.read_rebase hshares hframe options item)
    key := key_rebase hshares hmodel
    typeAt? := typeAt?_rebase hshares hmodel
    condition := fun condition => Scope.compileCondition_rebase hshares hscope condition
    update := fun writing current changes =>
      Scope.compileUpdate_rebase hshares hscope writing current changes }

end Rebase

variable {registry : Registry σ} {mapper : Mapper σ} {name : String} {attempts : List (Model σ)}

theorem of_mapper (hmapper : registry.mapper name = .ok mapper) :
    registry.find? name = some mapper.model ∧ mapper.registry = registry := by
  unfold Registry.mapper at hmapper
  split at hmapper
  · next hfind =>
      obtain rfl := Except.ok.inj hmapper
      exact ⟨hfind, rfl⟩
  · cases hmapper

/-- A mapper is still found under its name after further models were registered. -/
theorem mapper_after (hmapper : registry.mapper name = .ok mapper) (attempts : List (Model σ)) :
    (registry.after attempts).mapper name = .ok (mapper.rebase (registry.after attempts)) := by
  rw [Registry.mapper, Registry.find?_after, (of_mapper hmapper).1]
  rfl

/-- It gives the same answers if its schema does not lead to these models. -/
theorem answersAs_after (hmapper : registry.mapper name = .ok mapper)
    (hattempts : ∀ extra ∈ attempts, ¬ registry.Uses mapper.model.schema (.model extra.name)) :
    (mapper.rebase (registry.after attempts)).AnswersAs mapper := by
  obtain ⟨-, rfl⟩ := of_mapper hmapper
  exact answersAs_rebase (Registry.shares_after hattempts) (Registry.within_uses _ _)

end Mapper

namespace Registry

/-- Registrations do not interfere.  A name keeps the first model that is registered under it,
whatever is tried to be registered before and after, and an attempt that is rejected leaves no trace
in what the later ones lead to.  If the name of a model is new, and the schema of a mapper leads to
no reference with this name, then the model can be registered, and the mapper gives the same answers
as before. -/
theorem registrations_independent :
    (∀ (registry : Registry σ) (attempts : List (Model σ)) (name : String),
      (registry.after attempts).find? name =
        (registry.find? name).or (attempts.find? (·.name == name))) ∧
    (∀ (registry : Registry σ) (earlier later : List (Model σ)) (model : Model σ)
      (cause : MapperError), (registry.after earlier).register model = .error cause →
        registry.after (earlier ++ model :: later) = registry.after (earlier ++ later)) ∧
    ∀ (registry : Registry σ) (name : String) (mapper : Mapper σ) (extra : Model σ),
      registry.mapper name = .ok mapper → registry.find? extra.name = none →
      ¬ registry.Uses mapper.model.schema (.model extra.name) →
        ∃ larger other, registry.register extra = .ok larger ∧ larger.mapper name = .ok other ∧
          other.AnswersAs mapper := by
  refine ⟨find?_after, fun registry earlier later model cause hrejected => ?_,
    fun registry name mapper extra hmapper hnew hunused => ?_⟩
  · calc registry.after (earlier ++ model :: later)
        = ((registry.after earlier).attempt model).after later := after_append registry earlier _
      _ = (registry.after earlier).after later := by rw [attempt_of_rejected hrejected]
      _ = registry.after (earlier ++ later) := (after_append registry earlier later).symm
  · have hlarger : registry.register extra = .ok (registry.after [extra]) :=
      (register_of_new hnew).trans (congrArg _ (attempt_of_new hnew).symm)
    exact ⟨_, _, hlarger, Mapper.mapper_after hmapper [extra],
      Mapper.answersAs_after hmapper (List.forall_mem_singleton.mpr hunused)⟩

end Registry

/-! ## Comments on pages -/

/-- Comments, whose hash key refers to the pages. -/
def Model.comment : Model Unit :=
  ⟨"Comment", ⟨[.plain "on" [.model "Page"], .plain "text" [.primitive .string]], .disabled, none⟩,
    none⟩

theorem Registry.closed_pages (stamped : String) :
    (pages stamped).Closed (· ∈ CandidateType.ofPages) where
  object hobject := by simp [CandidateType.ofPages] at hobject
  element harray := by
    intro type htype
    simp_all [CandidateType.ofPages]
  member hset := by simp [CandidateType.ofPages] at hset
  model := by
    rintro _ model - hmodel field hfield type htype
    have hschema : model.schema = .revision ∨ model.schema = .page stamped :=
      (find?_pages hmodel).symm.imp (congrArg Model.schema) (congrArg Model.schema)
    exact CandidateType.mem_ofPages hschema hfield htype

theorem Registry.not_uses_comment :
    ¬ (pages "changed").Uses (.page "changed") (.model Model.comment.name) := by
  intro huses
  have hpage : (SchemaOf.page "changed").Within (· ∈ CandidateType.ofPages) :=
    fun _ hfield _ htype => CandidateType.mem_ofPages (.inr rfl) hfield htype
  have hmem := (closed_pages "changed").of_uses hpage huses
  simp [CandidateType.ofPages, Model.comment] at hmem

theorem Registry.registrations_independent_pages :
    (pages "changed").mapper "Page" = .ok (.pages "changed") ∧
    (pages "changed").find? "Comment" = none ∧
    ¬ (pages "changed").Uses (.page "changed") (.model "Comment") ∧
    (∃ larger other, (pages "changed").register Model.comment = .ok larger ∧
      larger.mapper "Page" = .ok other ∧ other.AnswersAs (.pages "changed")) ∧
    ((pages "changed").after []).register ⟨"Page", .revision, none⟩ =
      .error (.parameter (.registeredTwice "Page")) ∧
    (pages "changed").after [⟨"Page", .revision, none⟩, Model.comment] =
      (pages "changed").after [Model.comment] := by
  obtain ⟨-, hrejected, hunused⟩ := registrations_independent (σ := Unit)
  exact ⟨rfl, rfl, not_uses_comment,
    hunused (pages "changed") "Page" (.pages "changed") Model.comment rfl rfl not_uses_comment,
    rfl, hrejected (pages "changed") [] [Model.comment] ⟨"Page", .revision, none⟩ _ rfl⟩

end ItemMapper
