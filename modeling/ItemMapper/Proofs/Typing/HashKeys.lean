import ItemMapper.Scope
import Mathlib.Data.List.Perm.Subperm
import Mathlib.Data.Nat.Find

/-!
# Where references lead

A value that is no document is read, where a model is referred to, as one of the types of the model's
hash key, and these may refer to further models.  `Registry.KeyLeads` says which types can be reached
so, in how many steps and without any bound.

The readings that are tried are those (`Registry.mem_keyReadings_iff`).  There are two obstacles.
The steps are bounded by the number of models: since a model is not followed twice on one way, more
steps find nothing more (`keyReadings_add`).  And a way may be cut off because it comes back to a
model: but no shortest way does, as every model on it is nearer to the end than those before.
-/

namespace ItemMapper

variable {σ : Type}

namespace Registry

/-- The hash key of the model with this name leads, in so many steps, to a type of the hash key of a
model with this schema. -/
inductive KeyLeads (registry : Registry σ) (schema : Schema σ) (type : CandidateType σ) :
    Nat → String → Prop
  | own {name : String} {model : Model σ} {field : Attribute σ}
      (hmodel : registry.find? name = some model) (hkey : model.schema.hashKey? = some field)
      (hschema : model.schema = schema) (htype : type ∈ field.types) :
      KeyLeads registry schema type 0 name
  | next {steps : Nat} {name next : String} {model : Model σ} {field : Attribute σ}
      (hmodel : registry.find? name = some model) (hkey : model.schema.hashKey? = some field)
      (hnext : .model next ∈ field.types) (hrest : KeyLeads registry schema type steps next) :
      KeyLeads registry schema type (steps + 1) name

variable {registry : Registry σ} {place : Place} {way : List String} {name : String} {budget : Nat}

/-! ## Enough steps -/

theorem name_of_find? {model : Model σ} (hmodel : registry.find? name = some model) :
    model ∈ registry.models ∧ model.name = name :=
  ⟨List.mem_of_find?_eq_some hmodel, by simpa using List.find?_some hmodel⟩

/-- There are as many names as models at most. -/
theorem length_le_of_registered (hway : way.Nodup)
    (hregistered : ∀ other ∈ way, ∃ model, registry.find? other = some model) :
    way.length ≤ registry.models.length := by
  have hsubset : way ⊆ registry.models.map Model.name := by
    intro other hother
    obtain ⟨model, hmodel⟩ := hregistered other hother
    obtain ⟨hmem, rfl⟩ := name_of_find? hmodel
    exact List.mem_map_of_mem hmem
  simpa using (List.subperm_of_subset hway hsubset).length_le

/-- Once the steps and the models on the way are as many as there are models, one step more makes no
difference. -/
theorem keyReadings_succ (hway : way.Nodup)
    (hregistered : ∀ other ∈ way, ∃ model, registry.find? other = some model)
    (hbudget : registry.models.length ≤ budget + way.length) :
    registry.keyReadings place (budget + 1) way name =
      registry.keyReadings place budget way name := by
  induction budget generalizing way name with
  | zero =>
      rw [keyReadings, keyReadings]
      split
      · rfl
      next hnew =>
        cases hmodel : registry.find? name with
        | none => rfl
        | some model =>
            -- all models are on the way already, and this one is not among them
            have hlonger : (name :: way).length ≤ registry.models.length :=
              length_le_of_registered (List.nodup_cons.mpr ⟨by simpa using hnew, hway⟩)
                (List.forall_mem_cons.mpr ⟨⟨model, hmodel⟩, hregistered⟩)
            rw [List.length_cons] at hlonger
            omega
  | succ budget ih =>
      rw [keyReadings, keyReadings]
      split
      · rfl
      next hnew =>
        cases hmodel : registry.find? name with
        | none => rfl
        | some model =>
            dsimp only
            cases model.schema.hashKey? with
            | none => rfl
            | some field =>
                refine List.flatMap_congr fun type _ => ?_
                cases type with
                | model next =>
                    refine ih (List.nodup_cons.mpr ⟨by simpa using hnew, hway⟩)
                      (List.forall_mem_cons.mpr ⟨⟨model, hmodel⟩, hregistered⟩) ?_
                    rw [List.length_cons]
                    omega
                | _ => rfl

/-- More steps than there are models find the same. -/
theorem keyReadings_add (registry : Registry σ) (place : Place) (name : String) (extra : Nat) :
    registry.keyReadings place (registry.models.length + extra) [] name =
      registry.keyReadings place registry.models.length [] name := by
  induction extra with
  | zero => rfl
  | succ extra ih =>
      rw [← ih, ← Nat.add_assoc]
      exact keyReadings_succ .nil (by simp) (by simp)

theorem keyReadings_of_le (hbudget : registry.models.length ≤ budget) :
    registry.keyReadings place budget [] name =
      registry.keyReadings place registry.models.length [] name := by
  rw [← Nat.add_sub_cancel' hbudget, keyReadings_add]

/-! ## What is found -/

/-- Every reading is one that the hash key leads to. -/
theorem of_mem_keyReadings {reading : Reading σ}
    (hreading : reading ∈ registry.keyReadings place budget way name) :
    reading.scope.registry = registry ∧ reading.place = place.restart ∧
      (∀ other, reading.type ≠ .model other) ∧
      ∃ steps, registry.KeyLeads reading.scope.root reading.type steps name := by
  induction budget generalizing way name with
  | zero => simp [keyReadings] at hreading
  | succ budget ih =>
      rw [keyReadings] at hreading
      split at hreading
      · simp at hreading
      cases hmodel : registry.find? name with
      | none => simp [hmodel] at hreading
      | some model =>
          cases hkey : model.schema.hashKey? with
          | none => simp [hmodel, hkey] at hreading
          | some field =>
              simp only [hmodel, hkey] at hreading
              obtain ⟨type, htype, hreading⟩ := List.mem_flatMap.mp hreading
              cases type with
              | model next =>
                  obtain ⟨hregistry, hplace, hother, steps, hleads⟩ := ih hreading
                  exact ⟨hregistry, hplace, hother, _, .next hmodel hkey htype hleads⟩
              | _ =>
                  obtain rfl := List.mem_singleton.mp hreading
                  exact ⟨rfl, rfl, nofun, 0, .own hmodel hkey rfl htype⟩

theorem not_on_way {schema : Schema σ} {type : CandidateType σ} {steps : Nat}
    (hleads : registry.KeyLeads schema type steps name)
    (hway : ∀ other ∈ way, ∀ fewer ≤ steps, ¬ registry.KeyLeads schema type fewer other) :
    ¬ (way.contains name = true) :=
  fun hmem => hway name (by simpa using hmem) steps le_rfl hleads

/-- A shortest way to a type is not cut off, if the models passed before are all farther from it. -/
theorem mem_keyReadings_of_shortest {schema : Schema σ} {type : CandidateType σ}
    (htype : ∀ other, type ≠ .model other) {steps : Nat}
    (hleads : registry.KeyLeads schema type steps name)
    (hshortest : ∀ fewer < steps, ¬ registry.KeyLeads schema type fewer name)
    (hway : ∀ other ∈ way, ∀ fewer ≤ steps, ¬ registry.KeyLeads schema type fewer other)
    (hbudget : steps < budget) :
    ⟨⟨registry, schema⟩, place.restart, type⟩ ∈ registry.keyReadings place budget way name := by
  induction hleads generalizing way budget with
  | own hmodel hkey hschema hmem =>
      subst hschema
      obtain ⟨budget, rfl⟩ := Nat.exists_eq_add_one_of_ne_zero (Nat.ne_zero_of_lt hbudget)
      rw [keyReadings, if_neg (not_on_way (.own hmodel hkey rfl hmem) hway)]
      simp only [hmodel, hkey]
      refine List.mem_flatMap.mpr ⟨type, hmem, ?_⟩
      cases type with
      | model other => exact absurd rfl (htype other)
      | _ => exact List.mem_singleton.mpr rfl
  | @next steps name next model field hmodel hkey hnext hrest ih =>
      obtain ⟨budget, rfl⟩ := Nat.exists_eq_add_one_of_ne_zero (Nat.ne_zero_of_lt hbudget)
      rw [keyReadings, if_neg (not_on_way (.next hmodel hkey hnext hrest) hway)]
      simp only [hmodel, hkey]
      refine List.mem_flatMap.mpr ⟨.model next, hnext, ih ?_ ?_ (by omega)⟩
      · intro fewer hfewer hnearer
        exact hshortest (fewer + 1) (by omega) (.next hmodel hkey hnext hnearer)
      · refine List.forall_mem_cons.mpr ⟨fun fewer hfewer => hshortest fewer (by omega), ?_⟩
        exact fun other hother fewer hfewer => hway other hother fewer (by omega)

/-- The readings of a reference are all the types that the hash key leads to. -/
theorem mem_keyReadings_iff {reading : Reading σ} :
    reading ∈ registry.keyReadings place registry.models.length [] name ↔
      reading.scope.registry = registry ∧ reading.place = place.restart ∧
        (∀ other, reading.type ≠ .model other) ∧
        ∃ steps, registry.KeyLeads reading.scope.root reading.type steps name := by
  classical
  constructor
  · exact of_mem_keyReadings
  · obtain ⟨⟨_, schema⟩, _, type⟩ := reading
    rintro ⟨rfl, rfl, htype, hleads⟩
    rw [← keyReadings_add _ _ _ (Nat.find hleads + 1)]
    exact mem_keyReadings_of_shortest htype (Nat.find_spec hleads) (fun _ => Nat.find_min hleads)
      (by simp) (by omega)

end Registry

end ItemMapper
