import ItemMapper.Proofs.Pipeline
import ItemMapper.Registry

/-!
# The names of a built schema

Everything that leads from a name to an attribute relies on what building a schema has checked:
stored names are usable as segments of a path and pairwise different, no alias is a stored name,
combined attributes have plain declared sources, and the attributes of the timestamps are declared.
`SchemaOf.WellFormed` collects these facts; `wellFormed_of_build` and `wellFormed_of_modelBuild`
say that every schema of a model has them.

What is *not* checked is that aliases differ from each other and that they are usable as segments.
Where an argument depends on it, it asks for `SchemaOf.Addressable`.  Then every attribute is found
again under its native name (`WellFormed.nativeAttribute?_nativeName`).
-/

namespace ItemMapper

variable {σ : Type}

namespace SchemaOf

/-- What building a schema makes sure of. -/
structure WellFormed (schema : Schema σ) : Prop where
  usable : ∀ field ∈ schema.attributes, isUsableName field.name = true
  distinct : (schema.attributes.map AttributeOf.name).Nodup
  aliasFree : ∀ field ∈ schema.attributes, ∀ other ∈ schema.attributes,
    field.nativeAlias ≠ some other.name
  plainSources : ∀ field ∈ schema.attributes, ∀ sources separator,
    field.combine? = some (sources, separator) →
      ∀ source ∈ sources, ∃ other ∈ schema.attributes, other.name = source ∧ other.combine? = none
  stampsDeclared : ∀ stamps, schema.timestamps = some stamps → ∀ name,
    stamps.createdAt = some name ∨ stamps.updatedAt = some name →
      ∃ field ∈ schema.attributes, field.name = name

/-- No two attributes have the same native name, and each is usable as a segment of a path. -/
structure Addressable (schema : Schema σ) : Prop where
  usable : ∀ field ∈ schema.attributes, isUsableName field.nativeName = true
  distinct : (schema.attributes.map AttributeOf.nativeName).Nodup

/-- Stored names are as good as native ones where there are no aliases. -/
theorem addressable_of_noAlias {schema : Schema σ} (hschema : schema.WellFormed)
    (hplain : ∀ field ∈ schema.attributes, field.nativeAlias = none) : schema.Addressable := by
  have hnative : ∀ field ∈ schema.attributes, field.nativeName = field.name :=
    fun field hfield => by simp [AttributeOf.nativeName, hplain field hfield]
  constructor
  · intro field hfield
    rw [hnative field hfield]
    exact hschema.usable field hfield
  · rw [List.map_congr_left hnative]
    exact hschema.distinct

/-! ## What the checks say -/

theorem ok_of_checkAttributes {earlier attributes : List (Attribute σ)}
    (hcheck : checkAttributes earlier attributes = .ok ()) :
    (∀ field ∈ attributes, isUsableName field.name = true) ∧
      (attributes.map AttributeOf.name).Nodup ∧
      ∀ field ∈ attributes, ∀ other ∈ earlier, other.name ≠ field.name := by
  induction attributes generalizing earlier with
  | nil => simp
  | cons field rest ih =>
      simp only [checkAttributes, Except.check_eq_ok, Except.bind_eq_ok] at hcheck
      obtain ⟨husable, hnew, -, -, _, -, _, -, hrest⟩ := hcheck
      obtain ⟨hrestUsable, hrestDistinct, hrestNew⟩ := ih hrest
      have hfresh : ∀ other ∈ earlier, other.name ≠ field.name := by simpa using hnew
      refine ⟨?_, ?_, ?_⟩
      · intro other hother
        rcases List.mem_cons.mp hother with rfl | hother
        · simpa using husable
        · exact hrestUsable other hother
      · refine List.nodup_cons.mpr ⟨?_, hrestDistinct⟩
        intro hmem
        obtain ⟨other, hother, hname⟩ := List.mem_map.mp hmem
        exact hrestNew other hother field (by simp) hname.symm
      · intro other hother
        rcases List.mem_cons.mp hother with rfl | hother
        · exact hfresh
        · exact fun before hbefore => hrestNew other hother before (by simp [hbefore])

theorem ok_of_checkSource {attributes : List (Attribute σ)} {owner source : String}
    (hcheck : checkSource attributes owner source = .ok ()) :
    ∃ other ∈ attributes, other.name = source ∧ other.combine? = none := by
  unfold checkSource at hcheck
  cases hfind : attributes.find? (·.name == source) with
  | none => simp [hfind] at hcheck
  | some declared =>
      simp only [hfind] at hcheck
      refine ⟨declared, List.mem_of_find?_eq_some hfind, ?_, ?_⟩
      · simpa using List.find?_some hfind
      · split at hcheck
        · simp at hcheck
        · simp_all

theorem ok_of_checkNames {attributes : List (Attribute σ)} {field : Attribute σ}
    (hcheck : checkNames attributes field = .ok ()) :
    (∀ other ∈ attributes, field.nativeAlias ≠ some other.name) ∧
      ∀ sources separator, field.combine? = some (sources, separator) →
        ∀ source ∈ sources, ∃ other ∈ attributes, other.name = source ∧ other.combine? = none := by
  cases halias : field.nativeAlias with
  | none =>
      refine ⟨by simp, fun sources separator hcombine source hsource => ?_⟩
      simp only [checkNames, halias, hcombine, Except.forM_eq_ok] at hcheck
      exact ok_of_checkSource (hcheck source hsource)
  | some nativeAlias =>
      simp only [checkNames, halias, Except.check_eq_ok] at hcheck
      obtain ⟨hfree, hsources⟩ := hcheck
      constructor
      · rintro other hother heq
        obtain rfl := Option.some.inj heq
        exact hfree (by simpa using ⟨other, hother, rfl⟩)
      · intro sources separator hcombine source hsource
        simp only [hcombine, Except.forM_eq_ok] at hsources
        exact ok_of_checkSource (hsources source hsource)

theorem mem_foldl_of_mem {α β : Type} {step : List α → β → List α}
    (hkeep : ∀ items b, ∀ a ∈ items, a ∈ step items b) (bs : List β) :
    ∀ {items : List α}, ∀ a ∈ items, a ∈ bs.foldl step items := by
  induction bs with
  | nil => exact fun _ ha => ha
  | cons b rest ih =>
      intro items a ha
      exact ih a (hkeep items b a ha)

/-- What one step puts into a list that every step adds to is there in the end. -/
theorem exists_mem_foldl {α β : Type} {step : List α → β → List α} {property : α → Prop} {b : β}
    (hkeep : ∀ items b, ∀ a ∈ items, a ∈ step items b)
    (hadd : ∀ items, ∃ a ∈ step items b, property a) {bs : List β} (hb : b ∈ bs) :
    ∀ items, ∃ a ∈ bs.foldl step items, property a := by
  induction bs with
  | nil => simp at hb
  | cons first rest ih =>
      intro items
      rcases List.mem_cons.mp hb with rfl | hb
      · obtain ⟨a, ha, hproperty⟩ := hadd items
        exact ⟨a, mem_foldl_of_mem hkeep rest a ha, hproperty⟩
      · exact ih hb _

/-- Adding the attributes of the timestamps keeps the others and declares each of them. -/
theorem declared_withTimestamps {attributes : List (Attribute σ)} {stamps : Timestamps}
    {name : String} (hname : stamps.createdAt = some name ∨ stamps.updatedAt = some name) :
    ∃ field ∈ withTimestamps (some stamps) attributes, field.name = name := by
  have hmem : name ∈ [stamps.createdAt, stamps.updatedAt].filterMap id := by
    rcases hname with hname | hname <;> simp [hname]
  unfold withTimestamps
  refine exists_mem_foldl ?_ ?_ hmem attributes
  · intro given other field hfield
    split
    · exact hfield
    · exact List.mem_append_left _ hfield
  · intro given
    by_cases htaken : given.any (·.name == name) = true
    · obtain ⟨field, hfield, hfieldName⟩ := List.any_eq_true.mp htaken
      rw [if_pos htaken]
      exact ⟨field, hfield, by simpa using hfieldName⟩
    · rw [if_neg htaken]
      exact ⟨.plain name [.date stamps.storage], by simp, rfl⟩

/-! ## Built schemas -/

theorem attributes_of_build {attributes : List (Attribute σ)} {keep : KeepUnknown}
    {timestamps : Option Timestamps} {schema : Schema σ}
    (hbuild : build attributes keep timestamps = .ok schema) :
    schema.attributes = withTimestamps timestamps attributes := by
  unfold build at hbuild
  simp only [Except.bind_eq_ok, Except.pure_eq_ok] at hbuild
  obtain ⟨_, -, _, -, _, -, rfl⟩ := hbuild
  rfl

theorem wellFormed_of_build {attributes : List (Attribute σ)} {keep : KeepUnknown}
    {timestamps : Option Timestamps} {schema : Schema σ}
    (hbuild : build attributes keep timestamps = .ok schema) : schema.WellFormed := by
  unfold build at hbuild
  simp only [Except.bind_eq_ok, Except.pure_eq_ok] at hbuild
  obtain ⟨⟨⟩, hattributes, ⟨⟩, -, ⟨⟩, hnames, rfl⟩ := hbuild
  obtain ⟨husable, hdistinct, -⟩ := ok_of_checkAttributes hattributes
  have hfields := Except.forM_eq_ok.mp hnames
  exact {
    usable := husable
    distinct := hdistinct
    aliasFree := fun field hfield => (ok_of_checkNames (hfields field hfield)).1
    plainSources := fun field hfield => (ok_of_checkNames (hfields field hfield)).2
    stampsDeclared := by
      rintro stamps rfl name hname
      exact declared_withTimestamps hname }

theorem build_of_addAttribute {schema extended : Schema σ} {field : Attribute σ}
    (hadd : schema.addAttribute field = .ok extended) :
    ∃ built, build (schema.attributes ++ [field]) schema.keepUnknown none = .ok built ∧
      extended = { built with timestamps := schema.timestamps } := by
  unfold addAttribute at hadd
  simp only [Except.bind_eq_ok, Except.pure_eq_ok] at hadd
  obtain ⟨built, hbuild, rfl⟩ := hadd
  exact ⟨built, hbuild, rfl⟩

theorem attributes_of_addAttribute {schema extended : Schema σ} {field : Attribute σ}
    (hadd : schema.addAttribute field = .ok extended) :
    extended.attributes = schema.attributes ++ [field] := by
  obtain ⟨built, hbuild, rfl⟩ := build_of_addAttribute hadd
  exact attributes_of_build hbuild

/-- One more attribute leaves the attributes of the timestamps declared. -/
theorem wellFormed_of_addAttribute {schema extended : Schema σ} {field : Attribute σ}
    (hschema : schema.WellFormed) (hadd : schema.addAttribute field = .ok extended) :
    extended.WellFormed := by
  obtain ⟨built, hbuild, rfl⟩ := build_of_addAttribute hadd
  have hattributes : built.attributes = schema.attributes ++ [field] := attributes_of_build hbuild
  have hbuilt := wellFormed_of_build hbuild
  refine ⟨hbuilt.usable, hbuilt.distinct, hbuilt.aliasFree, hbuilt.plainSources, ?_⟩
  intro stamps hstamps name hname
  obtain ⟨declared, hdeclared, hdeclaredName⟩ := hschema.stampsDeclared stamps hstamps name hname
  exact ⟨declared, by simp [hattributes, hdeclared], hdeclaredName⟩

/-- A model has the schema that is given, or one with the attribute for the time of expiry. -/
theorem schema_of_modelBuild {name : String} {schema : Schema σ} {expiry : Option Expiry}
    {model : Model σ} (hbuild : Model.build name schema expiry = .ok model) :
    model.schema = schema ∨
      ∃ settings : Expiry, schema.addAttribute settings.declaration = .ok model.schema := by
  unfold Model.build at hbuild
  split at hbuild
  · obtain rfl := Except.ok.inj hbuild
    exact .inl rfl
  · split at hbuild
    · obtain rfl := Except.ok.inj hbuild
      exact .inl rfl
    · split at hbuild
      · simp at hbuild
      · split at hbuild
        case h_1 settings _ _ _ _ hadd =>
          obtain rfl := Except.ok.inj hbuild
          exact .inr ⟨settings, hadd⟩
        case h_2 => simp at hbuild

/-- The schema of a model is well formed, also where the attribute with the time of expiry has been
added. -/
theorem wellFormed_of_modelBuild {name : String} {schema : Schema σ} {expiry : Option Expiry}
    {model : Model σ} (hschema : schema.WellFormed)
    (hbuild : Model.build name schema expiry = .ok model) : model.schema.WellFormed := by
  rcases schema_of_modelBuild hbuild with hsame | ⟨settings, hadd⟩
  · rw [hsame]
    exact hschema
  · exact wellFormed_of_addAttribute hschema hadd

end SchemaOf

end ItemMapper
