import ItemMapper.Proofs.Recursion.Termination

/-!
# Resolution ends where references do not come back

Scoring, resolving, encoding and decoding end for all values, types and scopes over a registry if
following model references from hash key to hash key never comes back to a model, and then they
answer what the definitions say that recurse on the value alone (`Call.evaluates_iff`).  It does not
matter how schemas refer to each other otherwise: what is entered through a reference is a document,
and its fields are smaller.

The condition can not be spared.  A value that is no document is handed on from key to key without
getting smaller, so it has no score where the references come back (`Call.acc_of_evaluates`,
`Registry.keysEnd_iff`).
-/

namespace ItemMapper

open Recursive

variable {σ : Type}

namespace Call

/-! ## References that come back -/

/-- The references from hash key to hash key that are followed for a value end. -/
def Ends (α : Type) : Call σ α → Prop
  | score subject reading => subject.isDocument = false → ∀ name, reading.type = .model name →
      Acc (fun next name => reading.scope.registry.KeyRefers name next) name
  | bestScore subject scope _ types => subject.isDocument = false → ∀ name, .model name ∈ types →
      Acc (fun next name => scope.registry.KeyRefers name next) name
  | _ => True

/-- A call whose body is evaluated ends if the calls of the body end. -/
theorem ends_of_made {α : Type} {call : Call σ α} {answer : α}
    (hanswer : Evaluates body (body α call) answer)
    (hmade : ∀ (β : Type) (made : Call σ β), Makes body made (body α call) → Ends β made) :
    Ends α call := by
  cases call with
  | score subject reading =>
      intro hdocument name htype
      refine ⟨_, fun next hrefers => ?_⟩
      obtain ⟨key, hkey, hnext⟩ := Registry.keyRefers_iff.mp hrefers
      have hbody : scoreBody subject reading =
          ask (.bestScore subject key.scope reading.place.restart key.types) := by
        simp [scoreBody, htype, hdocument, hkey]
      have hasked := hmade _ (.bestScore subject key.scope reading.place.restart key.types) (by
        rw [body, hbody]
        exact .here)
      exact Registry.registry_of_keyTypes? hkey ▸ hasked hdocument next hnext
  | bestScore subject scope place types =>
      intro hdocument name htype
      exact hmade _ _ (Evaluates.makes_of_mapM hanswer htype) hdocument name rfl
  | _ => trivial

/-- Where a value is scored as the hash key of a model, the references that start there end. -/
theorem acc_of_evaluates {subject : Subject} (hdocument : subject.isDocument = false)
    {scope : Scope σ} {place : Place} {name : String} {answer : Rat}
    (hanswer : Evaluates body (body Rat (score subject ⟨scope, place, .model name⟩)) answer) :
    Acc (fun next name => scope.registry.KeyRefers name next) name :=
  hanswer.ask.induction Ends (fun _ _ _ hbody hmade => ends_of_made hbody hmade) _ _ .here hdocument
    name rfl

end Call

/-- What ends does not come back. -/
theorem Registry.not_transGen_of_acc {registry : Registry σ} {name : String}
    (hacc : Acc (fun next name => registry.KeyRefers name next) name) :
    ¬ Relation.TransGen registry.KeyRefers name name := by
  induction hacc with
  | intro name _ ih =>
      intro hreturn
      obtain ⟨next, hrefers, hback⟩ := Relation.TransGen.head'_iff.mp hreturn
      exact ih next hrefers (.tail' hback hrefers)

/-- Every call over a registry is evaluated to an answer exactly if the references between hash keys
do not come back. -/
theorem Registry.keysEnd_iff {registry : Registry σ} : registry.KeysEnd ↔
    ∀ (α : Type) (call : Call σ α), call.registry = registry →
      ∃ answer, Evaluates Call.body (Call.body α call) answer := by
  constructor
  · exact fun hend α call hregistry => ⟨call.answer, Call.isAnswered hend call hregistry⟩
  · intro hall name hreturn
    let reading : Reading σ := ⟨⟨registry, ⟨[], .disabled, none⟩⟩, .root, .model name⟩
    obtain ⟨answer, hanswer⟩ := hall Rat (.score (.native .null) reading) rfl
    exact not_transGen_of_acc (Call.acc_of_evaluates rfl hanswer) hreturn

/-! ## What the calls are answered with -/

/-- Where references between hash keys do not come back, every call is evaluated, and to nothing but
what the definitions say that recurse on the value alone. -/
theorem Call.evaluates_iff {α : Type} (call : Call σ α)
    (hend : call.registry.KeysEnd) (answer : α) :
    Evaluates Call.body (Call.body α call) answer ↔ answer = call.answer := by
  have hanswered : call.IsAnswered := isAnswered hend call rfl
  exact ⟨fun hother => hother.unique hanswered, fun heq => heq ▸ hanswered⟩

/-- A dog is the child of another dog, and wears collars. -/
def SchemaOf.dog : Schema Unit where
  attributes := [.plain "name" [.primitive .string], .plain "mother" [.self],
    .plain "collars" [.array [.self, .model "Collar"]]]
  keepUnknown := .disabled
  timestamps := none

/-- A collar is known by the dog that wears it, and there may be a spare one. -/
def SchemaOf.collar : Schema Unit where
  attributes := [.plain "dog" [.model "Dog"], .plain "spare" [.self]]
  keepUnknown := .disabled
  timestamps := none

/-- Dogs and collars refer to each other, but only collars are known by dogs. -/
def Registry.kennel : Registry Unit :=
  ⟨[⟨"Dog", .dog, none⟩, ⟨"Collar", .collar, none⟩]⟩

theorem Registry.keysEnd_kennel : Registry.kennel.KeysEnd := by
  refine keysEnd_of_rank (fun name => if name = "Collar" then 1 else 0) ?_
  rintro name next ⟨model, field, hmodel, hkey, hnext⟩
  obtain ⟨hmem, rfl⟩ := name_of_find? hmodel
  rcases List.mem_pair.mp hmem with rfl | rfl
  · obtain rfl := Option.some.inj hkey
    simp [AttributeOf.plain] at hnext
  · obtain rfl := Option.some.inj hkey
    obtain rfl : next = "Dog" := by simpa [AttributeOf.plain] using hnext
    decide

/-- A dog with a mother and two collars, one of which is only known by its dog. -/
def Value.ada : Value :=
  .map [("collars", .list [.string "Ada", .map [("dog", .string "Ada")]]),
    ("mother", .map [("name", .string "Bo")]), ("name", .string "Ada")]

theorem Call.evaluates_iff_kennel :
    Registry.kennel.KeysEnd ∧
    Evaluates Call.body
      (Call.body _ (.encode .ada ⟨Registry.kennel, .dog⟩ .root [.model "Collar", .self]))
      (.ok (some (.map [("collars", .list [.string "Ada", .map [("dog", .string "Ada")]]),
        ("mother", .map [("name", .string "Bo")]), ("name", .string "Ada")]))) :=
  ⟨Registry.keysEnd_kennel, (Call.evaluates_iff
    (.encode .ada ⟨Registry.kennel, .dog⟩ .root [.model "Collar", .self])
    Registry.keysEnd_kennel _).mpr (Except.toOption_eq_some.mp (by decide +kernel)).symm⟩

end ItemMapper
