import ItemMapper.Proofs.Recursion.Calls
import ItemMapper.Proofs.Typing.HashKeys
import Mathlib.Data.Set.Finite.List
import Mathlib.Logic.Relation
import Mathlib.Order.WellFoundedSet

/-!
# References without a return

The types of a model's hash key may refer to further models.  If following such references never
comes back to a model (`Registry.KeysEnd`), then it ends, since there are finitely many models
(`KeysEnd.wellFounded`), and to keep in mind which models were visited makes no difference:
the readings of a hash key are those of its types (`KeysEnd.keyReadings_eq`).
-/

namespace ItemMapper

variable {σ : Type}

namespace Registry

/-- The hash key of the first model may be of a type that refers to the second. -/
def KeyRefers (registry : Registry σ) (name next : String) : Prop :=
  ∃ model field, registry.find? name = some model ∧ model.schema.hashKey? = some field ∧
    .model next ∈ field.types

/-- Following references from hash key to hash key never comes back to a model. -/
def KeysEnd (registry : Registry σ) : Prop :=
  ∀ name, ¬ Relation.TransGen registry.KeyRefers name name

variable {registry : Registry σ} {place : Place} {name next : String} {budget : Nat}

theorem keyRefers_iff : registry.KeyRefers name next ↔
    ∃ key, registry.keyTypes? name = some key ∧ .model next ∈ key.types := by
  constructor
  · rintro ⟨model, field, hmodel, hkey, hnext⟩
    exact ⟨⟨⟨registry, model.schema⟩, field.types⟩, by simp [keyTypes?, hmodel, hkey], hnext⟩
  · rintro ⟨key, hkey, hnext⟩
    simp only [keyTypes?, Option.bind_eq_some_iff, Option.map_eq_some_iff] at hkey
    obtain ⟨model, hmodel, field, hfield, rfl⟩ := hkey
    exact ⟨model, field, hmodel, hfield, hnext⟩

theorem registry_of_keyTypes? {key : KeyTypes σ} (hkey : registry.keyTypes? name = some key) :
    key.scope.registry = registry := by
  simp only [keyTypes?, Option.bind_eq_some_iff, Option.map_eq_some_iff] at hkey
  obtain ⟨model, -, field, -, rfl⟩ := hkey
  rfl

/-- The names of models are finitely many. -/
theorem finite_names (registry : Registry σ) : {name | registry.contains name = true}.Finite := by
  refine (registry.models.map Model.name).finite_toSet.subset fun name hname => ?_
  obtain ⟨model, hmodel⟩ := Option.isSome_iff_exists.mp hname
  obtain ⟨hmem, rfl⟩ := name_of_find? hmodel
  exact List.mem_map_of_mem hmem

theorem KeyRefers.contains (hrefers : registry.KeyRefers name next) :
    registry.contains name = true := by
  obtain ⟨model, -, hmodel, -⟩ := hrefers
  exact Option.isSome_iff_exists.mpr ⟨model, hmodel⟩

/-- Models that are numbered so that every reference leads to a lower number refer without a
return. -/
theorem keysEnd_of_rank (rank : String → Nat)
    (hlower : ∀ {name next}, registry.KeyRefers name next → rank next < rank name) :
    registry.KeysEnd := by
  have hless : ∀ {name later}, Relation.TransGen registry.KeyRefers name later →
      rank later < rank name := by
    intro name later hlater
    induction hlater with
    | single hrefers => exact hlower hrefers
    | tail _ hrefers ih => exact (hlower hrefers).trans ih
  exact fun name hreturn => (hless hreturn).false

/-! ## Without a return there is an end -/

theorem KeysEnd.wellFounded (hend : registry.KeysEnd) :
    WellFounded fun next name => registry.KeyRefers name next := by
  let follows : String → String → Prop := fun next name =>
    Relation.TransGen registry.KeyRefers name next
  have : IsStrictOrder String follows :=
    { irrefl := hend, trans := fun _ _ _ hfirst hsecond => hsecond.trans hfirst }
  have hregistered := Set.wellFoundedOn_iff.mp (registry.finite_names.wellFoundedOn (r := follows))
  refine ⟨fun name => hregistered.induction name fun name ih => ⟨_, fun next hrefers => ?_⟩⟩
  by_cases hnext : registry.contains next = true
  · exact ih next ⟨.single hrefers, hnext, hrefers.contains⟩
  · -- a name of no model refers to nothing
    exact ⟨_, fun further hfurther => absurd hfurther.contains hnext⟩

/-! ## The readings of a hash key -/

theorem restart_restart (place : Place) : place.restart.restart = place.restart := rfl

theorem keyReadings_restart (budget : Nat) (way : List String) (name : String) :
    registry.keyReadings place.restart budget way name =
      registry.keyReadings place budget way name := by
  induction budget generalizing way name with
  | zero => rfl
  | succ budget ih => simp only [keyReadings, ih, restart_restart]

/-- Models that can not be reached any more do not have to be kept in mind. -/
theorem keyReadings_of_unreachable {way other : List String}
    (hway : ∀ met, Relation.ReflTransGen registry.KeyRefers name met → (met ∈ way ↔ met ∈ other)) :
    registry.keyReadings place budget way name = registry.keyReadings place budget other name := by
  induction budget generalizing name way other with
  | zero => rfl
  | succ budget ih =>
      have hcontains : way.contains name = other.contains name := by
        rw [Bool.eq_iff_iff, List.contains_iff_mem, List.contains_iff_mem]
        exact hway name .refl
      rw [keyReadings, keyReadings, hcontains]
      refine if_congr Iff.rfl rfl ?_
      cases hmodel : registry.find? name with
      | none => rfl
      | some model =>
          dsimp only
          cases hkey : model.schema.hashKey? with
          | none => rfl
          | some field =>
              refine List.flatMap_congr fun type htype => ?_
              cases type with
              | model next =>
                  refine ih fun met hmet => ?_
                  simp only [List.mem_cons]
                  exact or_congr Iff.rfl (hway met (.head ⟨model, field, hmodel, hkey, htype⟩ hmet))
              | _ => rfl

/-- The readings of a hash key are those of its types. -/
theorem KeysEnd.keyReadings_eq (hend : registry.KeysEnd) (place : Place) (name : String) :
    registry.keyReadings place registry.models.length [] name =
      (registry.keyTypes? name).elim [] fun key =>
        key.types.flatMap (key.scope.readings place.restart false) := by
  rw [← keyReadings_succ .nil (by simp) (by simp), keyReadings]
  cases hmodel : registry.find? name with
  | none => simp [keyTypes?, hmodel]
  | some model =>
      cases hkey : model.schema.hashKey? with
      | none => simp [keyTypes?, hmodel, hkey]
      | some field =>
          simp only [keyTypes?, hmodel, hkey, Option.bind_some, Option.map_some, Option.elim_some,
            List.contains_nil, Bool.false_eq_true, if_false]
          refine List.flatMap_congr fun type htype => ?_
          cases type with
          | model next =>
              dsimp only [Scope.readings]
              rw [keyReadings_restart]
              refine keyReadings_of_unreachable fun met hmet => ?_
              have hnew : met ≠ name := by
                rintro rfl
                exact hend met (.head' ⟨model, field, hmodel, hkey, htype⟩ hmet)
              simp [hnew]
          | _ => rfl

end Registry

end ItemMapper
