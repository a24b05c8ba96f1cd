import ItemMapper.Proofs.AttributePath
import ItemMapper.Proofs.Place
import Mathlib.Data.List.Pairwise

/-!
# Native names of models

The application names an attribute by its alias, and by its stored name if it has none.  Every
attribute of a model is found again under its stored name.  Whether it is also found under its
native name depends on the aliases that the schema was built from: they have to differ from each
other, which no check of `SchemaOf.build` asks for, and to be followed as a path they have to be
usable as a segment, which is only asked of stored names.  `SchemaOf.namesAttributes_iff` says that
nothing else is needed, also where the attributes of the timestamps or the attribute with the time
of expiry have been added.
-/

namespace ItemMapper

variable {σ : Type}

/-! ## Paths with one segment -/

theorem Dotted.of_split_eq_singleton {name part : String} (hsplit : split name = [part]) :
    part = name ∧ '.' ∉ name.toList := by
  constructor
  · simpa [hsplit, join] using join_split name
  · intro hdot
    obtain ⟨first, second, hchars⟩ := List.append_of_mem hdot
    have hname : name = String.ofList first ++ "." ++ String.ofList second := by
      rw [← String.toList_inj, hchars]
      simp
    have hlength : (split name).length = 1 := by rw [hsplit]; rfl
    have hparts : ∀ text, 0 < (split text).length := fun text => by simp [split, List.length_pos_iff]
    rw [hname, split_append, List.length_append] at hlength
    have := hparts (String.ofList first)
    have := hparts (String.ofList second)
    omega

/-- A path that leads to an attribute of the outermost document is a usable name of it. -/
theorem Scope.of_lookup_eq_attribute {scope : Scope σ} {name : String} {field : Attribute σ}
    (hlookup : scope.lookup name = .ok ⟨[.name field.name], some field.types, some field⟩) :
    SchemaOf.isUsableName name = true ∧ scope.root.nativeAttribute? name = some field := by
  rw [lookup] at hlookup
  obtain ⟨added, hadded, hlength⟩ := PathPosition.prefix_of_follow hlookup
  obtain rfl : [.name field.name] = added := by simpa using hadded
  obtain ⟨part, hsplit⟩ := List.length_eq_one_iff.mp hlength.symm
  obtain ⟨rfl, hdot⟩ := Dotted.of_split_eq_singleton hsplit
  rw [hsplit] at hlookup
  simp only [PathPosition.follow, List.nil_append] at hlookup
  split at hlookup
  · simp at hlookup
  case isFalse hne =>
    split at hlookup
    case h_1 found hfind =>
      have hlast := congrArg ResolvedPath.last (Except.ok.inj hlookup)
      refine ⟨?_, hfind.trans hlast⟩
      simpa [SchemaOf.isUsableName, hne] using hdot
    case h_2 =>
      split at hlookup
      · simp at hlookup
      · simp at hlookup

namespace SchemaOf

/-- The schemas of models: built from attributes, and given to any number of models. -/
inductive MadeFrom (attributes : List (Attribute σ)) : Schema σ → Prop where
  | built {keep : KeepUnknown} {timestamps : Option Timestamps} {schema : Schema σ}
      (hbuild : build attributes keep timestamps = .ok schema) : MadeFrom attributes schema
  | model {schema : Schema σ} {name : String} {expiry : Option Expiry} {model : Model σ}
      (hmade : MadeFrom attributes schema) (hbuild : Model.build name schema expiry = .ok model) :
      MadeFrom attributes model.schema

/-- The aliases of attributes, in their order. -/
def aliases (attributes : List (Attribute σ)) : List String :=
  attributes.filterMap AttributeOf.nativeAlias

/-- Native names tell attributes apart and lead to them, and every name is a segment of a path. -/
structure NamesAttributes (schema : Schema σ) : Prop where
  distinct : (schema.attributes.map AttributeOf.nativeName).Nodup
  byNativeName : ∀ field ∈ schema.attributes, schema.nativeAttribute? field.nativeName = some field
  byName : ∀ field ∈ schema.attributes, schema.nativeAttribute? field.name = some field
  usableNames : ∀ field ∈ schema.attributes, isUsableName field.name = true
  usableAliases : ∀ field ∈ schema.attributes, ∀ nativeAlias,
    field.nativeAlias = some nativeAlias → isUsableName nativeAlias = true

/-! ## Added attributes -/

/-- The attributes of the timestamps have no alias. -/
theorem aliases_withTimestamps (timestamps : Option Timestamps) (attributes : List (Attribute σ)) :
    aliases (withTimestamps timestamps attributes) = aliases attributes := by
  unfold withTimestamps
  cases timestamps with
  | none => rfl
  | some stamps =>
      dsimp only
      generalize [stamps.createdAt, stamps.updatedAt].filterMap id = names
      induction names generalizing attributes with
      | nil => rfl
      | cons name rest ih =>
          rw [List.foldl_cons, ih]
          split
          · rfl
          · simp [aliases, AttributeOf.plain]

theorem wellFormed_of_madeFrom {attributes : List (Attribute σ)} {schema : Schema σ}
    (hmade : MadeFrom attributes schema) : schema.WellFormed := by
  induction hmade with
  | built hbuild => exact wellFormed_of_build hbuild
  | model _ hbuild ih => exact wellFormed_of_modelBuild ih hbuild

/-- Neither has the attribute with the time of expiry, so all aliases are those that are given. -/
theorem aliases_of_madeFrom {attributes : List (Attribute σ)} {schema : Schema σ}
    (hmade : MadeFrom attributes schema) : aliases schema.attributes = aliases attributes := by
  induction hmade with
  | built hbuild => rw [attributes_of_build hbuild, aliases_withTimestamps]
  | model _ hbuild ih =>
      rcases schema_of_modelBuild hbuild with hsame | ⟨settings, hadd⟩
      · rw [hsame, ih]
      · rw [attributes_of_addAttribute hadd, ← ih]
        simp [aliases, Expiry.declaration, AttributeOf.plain]

/-! ## Native names and aliases -/

theorem mem_aliases {attributes : List (Attribute σ)} {nativeAlias : String} :
    nativeAlias ∈ aliases attributes ↔
      ∃ field ∈ attributes, field.nativeAlias = some nativeAlias := by
  simp [aliases]

/-- An attribute that native names lead to is not named like another one. -/
theorem nodup_nativeNames_of_found {schema : Schema σ} (hschema : schema.WellFormed)
    (hfound : ∀ field ∈ schema.attributes, schema.nativeAttribute? field.nativeName = some field) :
    (schema.attributes.map AttributeOf.nativeName).Nodup := by
  refine List.Nodup.map_on ?_ hschema.nodup_attributes
  intro field hfield other hother hname
  have hsame := hfound field hfield
  rw [hname, hfound other hother] at hsame
  exact (Option.some.inj hsame).symm

/-- An alias is no stored name, so native names differ as soon as aliases do. -/
theorem nodup_nativeNames_iff {schema : Schema σ} (hschema : schema.WellFormed) :
    (schema.attributes.map AttributeOf.nativeName).Nodup ↔ (aliases schema.attributes).Nodup := by
  have hnames : schema.attributes.Pairwise fun field other => field.name ≠ other.name :=
    List.pairwise_map.mp hschema.distinct
  rw [List.Nodup, aliases, List.pairwise_map, List.pairwise_filterMap]
  constructor
  · refine List.Pairwise.imp ?_
    rintro field other hne nativeAlias halias _ hother rfl
    exact hne (by simp [AttributeOf.nativeName, halias, hother])
  · intro haliases
    refine List.Pairwise.imp_of_mem ?_ (hnames.and haliases)
    rintro field other hfield hother ⟨hname, halias⟩ hsame
    unfold AttributeOf.nativeName at hsame
    cases hfieldAlias : field.nativeAlias with
    | none =>
        cases hotherAlias : other.nativeAlias with
        | none => exact hname (by simpa [hfieldAlias, hotherAlias] using hsame)
        | some taken =>
            refine hschema.aliasFree other hother field hfield ?_
            simpa [hfieldAlias, hotherAlias] using hsame.symm
    | some given =>
        cases hotherAlias : other.nativeAlias with
        | none =>
            refine hschema.aliasFree field hfield other hother ?_
            simpa [hfieldAlias, hotherAlias] using hsame
        | some taken =>
            exact halias given hfieldAlias taken hotherAlias
              (by simpa [hfieldAlias, hotherAlias] using hsame)

/-- The alias of an attribute is usable if it has one, its stored name is anyway. -/
theorem NamesAttributes.usable_nativeName {schema : Schema σ} (hnames : schema.NamesAttributes)
    {field : Attribute σ} (hfield : field ∈ schema.attributes) :
    isUsableName field.nativeName = true := by
  cases halias : field.nativeAlias with
  | none => simpa [AttributeOf.nativeName, halias] using hnames.usableNames field hfield
  | some nativeAlias =>
      simpa [AttributeOf.nativeName, halias] using
        hnames.usableAliases field hfield nativeAlias halias

theorem WellFormed.namesAttributes_iff_aliases {schema : Schema σ} (hschema : schema.WellFormed) :
    schema.NamesAttributes ↔ (aliases schema.attributes).Nodup ∧
      ∀ nativeAlias ∈ aliases schema.attributes, isUsableName nativeAlias = true := by
  have hdistinct := nodup_nativeNames_iff hschema
  constructor
  · intro hnames
    refine ⟨hdistinct.mp hnames.distinct, fun nativeAlias hmem => ?_⟩
    obtain ⟨field, hfield, halias⟩ := mem_aliases.mp hmem
    exact hnames.usableAliases field hfield nativeAlias halias
  · rintro ⟨haliases, husable⟩
    have hnative := hdistinct.mpr haliases
    exact {
      distinct := hnative
      byNativeName := fun field hfield => hschema.nativeAttribute?_nativeName hnative hfield
      byName := fun field hfield => hschema.nativeAttribute?_name hfield
      usableNames := hschema.usable
      usableAliases := fun field hfield nativeAlias halias =>
        husable nativeAlias (mem_aliases.mpr ⟨field, hfield, halias⟩) }

/-- Every schema of a model finds its attributes under their stored names, which are usable as
segments of paths.  Native names are as good exactly if the attributes that the schema was built
from have different aliases and these are usable as well, and exactly then does the native name of
an attribute, as a path, lead to the attribute. -/
theorem namesAttributes_iff {attributes : List (Attribute σ)} {schema : Schema σ}
    (hmade : MadeFrom attributes schema) :
    (∀ field ∈ schema.attributes,
        isUsableName field.name = true ∧ schema.nativeAttribute? field.name = some field) ∧
      ((schema.attributes.map AttributeOf.nativeName).Nodup ↔ (aliases attributes).Nodup) ∧
      ((∀ field ∈ schema.attributes, schema.nativeAttribute? field.nativeName = some field) ↔
        (aliases attributes).Nodup) ∧
      (schema.NamesAttributes ↔ (aliases attributes).Nodup ∧
        ∀ nativeAlias ∈ aliases attributes, isUsableName nativeAlias = true) ∧
      (schema.NamesAttributes ↔ ∀ scope : Scope σ, scope.root = schema →
        ∀ field ∈ schema.attributes, scope.lookup field.nativeName =
          .ok ⟨[.name field.name], some field.types, some field⟩) := by
  have hschema := wellFormed_of_madeFrom hmade
  have hdistinct := nodup_nativeNames_iff hschema
  rw [← aliases_of_madeFrom hmade]
  refine ⟨?_, hdistinct, ⟨?_, ?_⟩, hschema.namesAttributes_iff_aliases, ?_, ?_⟩
  · exact fun field hfield => ⟨hschema.usable field hfield, hschema.nativeAttribute?_name hfield⟩
  · exact fun hfound => hdistinct.mp (nodup_nativeNames_of_found hschema hfound)
  · exact fun haliases field hfield =>
      hschema.nativeAttribute?_nativeName (hdistinct.mpr haliases) hfield
  · rintro hnames scope rfl field hfield
    exact Scope.lookup_of_nativeAttribute? (hnames.usable_nativeName hfield)
      (hnames.byNativeName field hfield)
  · intro hpaths
    have hled := fun field hfield =>
      Scope.of_lookup_eq_attribute (hpaths ⟨.empty, schema⟩ rfl field hfield)
    refine hschema.namesAttributes_iff_aliases.mpr
      ⟨hdistinct.mp (nodup_nativeNames_of_found hschema fun field hfield => (hled field hfield).2),
        fun nativeAlias hmem => ?_⟩
    obtain ⟨field, hfield, halias⟩ := mem_aliases.mp hmem
    simpa [AttributeOf.nativeName, halias] using (hled field hfield).1

/-! ## Seats -/

/-- The attributes of a seat, whose row and number have other names for the application. -/
def seat (row number : String) : List (Attribute Unit) :=
  [.plain "id" [.primitive .string],
    { AttributeOf.plain "r" [.primitive .string] with nativeAlias := some row },
    { AttributeOf.plain "n" [.primitive .number] with nativeAlias := some number }]

/-- A seat that is free again after an hour has all the names that it needs. -/
theorem namesAttributes_seat :
    ∃ schema model, build (seat "row" "number") .disabled (some .standard) = .ok schema ∧
      Model.build "Seat" schema (some ⟨3600, "until", false⟩) = .ok model ∧
      model.schema.attributes.length = 6 ∧ model.schema.NamesAttributes := by
  have hseat : MadeFrom (seat "row" "number") _ :=
    .built (rfl : build (seat "row" "number") .disabled (some .standard) = .ok _)
  have hmodel : MadeFrom (seat "row" "number") _ :=
    hseat.model (rfl : Model.build "Seat" _ (some ⟨3600, "until", false⟩) = .ok _)
  exact ⟨_, _, rfl, rfl, rfl,
    (namesAttributes_iff hmodel).2.2.2.1.mpr ⟨by decide, by decide⟩⟩

/-- Two attributes may have the same alias, and then only the first of them is found.  An alias may
hold a dot, and then no path leads to its attribute. -/
theorem misnamed_seats_are_built :
    (∃ schema, build (seat "place" "place") .disabled none = .ok schema ∧
      (schema.attributes.map AttributeOf.nativeName = ["id", "place", "place"]) ∧
      (schema.nativeAttribute? "place").map AttributeOf.name = some "r" ∧
      ¬ schema.NamesAttributes) ∧
    (∃ schema, build (seat "row" "place.number") .disabled none = .ok schema ∧
      (∃ field ∈ schema.attributes, field.nativeAlias = some "place.number") ∧
      ¬ schema.NamesAttributes) := by
  refine ⟨⟨_, rfl, rfl, rfl, fun hnames => ?_⟩, ⟨_, rfl, ⟨_, .tail _ (.tail _ (.head _)), rfl⟩,
    fun hnames => ?_⟩⟩
  · exact absurd hnames.distinct (by decide)
  · exact absurd (hnames.usableAliases _ (.tail _ (.tail _ (.head _))) _ rfl) (by decide)

end SchemaOf

end ItemMapper
