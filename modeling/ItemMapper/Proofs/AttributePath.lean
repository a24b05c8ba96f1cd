import ItemMapper.AttributePath
import ItemMapper.Proofs.Schema.Names
import Mathlib.Data.List.Nodup

/-!
# Where followed paths lead

A path that is followed through a schema gains one segment per part, so it begins with the stored
name of an attribute of the outermost document, or with a name that no attribute has.
`Scope.lookup_cases` tells these cases apart and says what is known when nothing follows the first
segment.  Updates rely on this to tell a change of an attribute from a change inside it:
`Change.concerns_iff_of_lookup` says that only the path with the single segment of that name counts.

Nothing lies inside a combined attribute, so a path that begins with one ends there.
-/

namespace ItemMapper

variable {σ : Type}

/-! ## Names as paths -/

theorem SchemaOf.plain_of_usable {name : String} (husable : isUsableName name = true) :
    '.' ∉ name.toList := by
  simp only [isUsableName, Bool.and_eq_true] at husable
  simpa using husable.2

theorem Dotted.split_of_plain {text : String} (hplain : '.' ∉ text.toList) : split text = [text] := by
  have hsplit : split (join [text]) = [text] := split_join (by simp) (by simpa using hplain)
  simpa [join] using hsplit

theorem Dotted.split_of_usable {name : String} (husable : SchemaOf.isUsableName name = true) :
    Dotted.split name = [name] :=
  split_of_plain (SchemaOf.plain_of_usable husable)

theorem SchemaOf.ne_empty_of_usable {name : String} (husable : isUsableName name = true) :
    name ≠ "" := by
  simp only [isUsableName, Bool.and_eq_true, decide_eq_true_eq] at husable
  exact husable.1

theorem AttributeOf.types_of_combine? {field : Attribute σ} {sources : List String}
    {separator : String} (hcombine : field.combine? = some (sources, separator)) :
    field.types = [.combine sources separator] := by
  unfold combine? at hcombine
  split at hcombine <;> simp_all

namespace SchemaOf

theorem mem_of_attribute? {schema : Schema σ} {name : String} {field : Attribute σ}
    (hfind : schema.attribute? name = some field) : field ∈ schema.attributes ∧ field.name = name :=
  ⟨List.mem_of_find?_eq_some hfind, by simpa using List.find?_some hfind⟩

theorem mem_of_nativeAttribute? {schema : Schema σ} {name : String} {field : Attribute σ}
    (hfind : schema.nativeAttribute? name = some field) : field ∈ schema.attributes := by
  rw [nativeAttribute?, Option.or_eq_some_iff] at hfind
  rcases hfind with halias | ⟨-, hname⟩
  · exact List.mem_of_find?_eq_some halias
  · exact (mem_of_attribute? hname).1

theorem name_ne_of_nativeAttribute?_eq_none {schema : Schema σ} {name : String}
    (hnone : schema.nativeAttribute? name = none) : ∀ field ∈ schema.attributes, field.name ≠ name := by
  rw [nativeAttribute?, Option.or_eq_none_iff, attribute?] at hnone
  simpa using hnone.2

namespace WellFormed

variable {schema : Schema σ} {field : Attribute σ}

theorem nodup_attributes (hschema : schema.WellFormed) : schema.attributes.Nodup :=
  hschema.distinct.of_map _

theorem eq_of_name_eq (hschema : schema.WellFormed) {other : Attribute σ}
    (hfield : field ∈ schema.attributes) (hother : other ∈ schema.attributes)
    (hname : field.name = other.name) : field = other :=
  List.inj_on_of_nodup_map hschema.distinct hfield hother hname

theorem attribute?_name (hschema : schema.WellFormed) (hfield : field ∈ schema.attributes) :
    schema.attribute? field.name = some field := by
  cases hfind : schema.attribute? field.name with
  | none =>
      rw [attribute?, List.find?_eq_none] at hfind
      exact absurd (by simp) (hfind field hfield)
  | some other =>
      obtain ⟨hother, hname⟩ := mem_of_attribute? hfind
      rw [hschema.eq_of_name_eq hother hfield hname]

theorem nativeAttribute?_name (hschema : schema.WellFormed) (hfield : field ∈ schema.attributes) :
    schema.nativeAttribute? field.name = some field := by
  have hnoAlias : (schema.attributes.find? fun other => other.nativeAlias == some field.name) =
      none := by
    rw [List.find?_eq_none]
    intro other hother
    simpa using hschema.aliasFree other hother field hfield
  rw [nativeAttribute?, hnoAlias, Option.none_or, hschema.attribute?_name hfield]

/-- Different native names tell attributes apart. -/
theorem nativeAttribute?_nativeName (hschema : schema.WellFormed)
    (hdistinct : (schema.attributes.map AttributeOf.nativeName).Nodup)
    (hfield : field ∈ schema.attributes) :
    schema.nativeAttribute? field.nativeName = some field := by
  cases halias : field.nativeAlias with
  | none =>
      have hname : field.nativeName = field.name := by simp [AttributeOf.nativeName, halias]
      rw [hname, hschema.nativeAttribute?_name hfield]
  | some nativeAlias =>
      have hname : field.nativeName = nativeAlias := by simp [AttributeOf.nativeName, halias]
      cases hfind : schema.attributes.find? fun other => other.nativeAlias == some nativeAlias with
      | none =>
          rw [List.find?_eq_none] at hfind
          exact absurd (by simp [halias]) (hfind field hfield)
      | some other =>
          have hother : other.nativeAlias = some nativeAlias := by simpa using List.find?_some hfind
          have hotherName : other.nativeName = field.nativeName := by
            simp [AttributeOf.nativeName, hother, halias]
          obtain rfl := List.inj_on_of_nodup_map hdistinct (List.mem_of_find?_eq_some hfind) hfield
            hotherName
          rw [hname, nativeAttribute?, hfind, Option.some_or]

end WellFormed

end SchemaOf

/-! ## Following parts -/

namespace PathPosition

theorem undeclared_cons (segments : List Segment) (part : String) (rest : List String) :
    ∃ segment, undeclared segments (part :: rest) = undeclared (segments ++ [segment]) rest ∧
      (segments = [] → segment = .name part) := by
  cases hindex : Decimal.parseIndex? part with
  | none => exact ⟨.name part, by simp [undeclared, hindex], fun _ => rfl⟩
  | some index =>
      refine ⟨if segments.isEmpty then .name part else .index index, ?_, ?_⟩
      · simp [undeclared, hindex]
      · intro hempty
        simp [hempty]

theorem prefix_undeclared (parts : List String) (segments : List Segment) :
    ∃ added, undeclared segments parts = segments ++ added ∧ added.length = parts.length := by
  induction parts generalizing segments with
  | nil => exact ⟨[], by simp [undeclared]⟩
  | cons part rest ih =>
      obtain ⟨segment, hsegment, -⟩ := undeclared_cons segments part rest
      obtain ⟨added, hadded, hlength⟩ := ih (segments ++ [segment])
      exact ⟨segment :: added, by simp [hsegment, hadded], by simp [hlength]⟩

/-- Every part that is followed adds a segment to those that are there. -/
theorem prefix_of_follow {path : String} :
    ∀ {parts : List String} {position : PathPosition σ} {segments : List Segment}
      {last : Option (Attribute σ)} {target : ResolvedPath σ},
      follow path parts position segments last = .ok target →
      ∃ added, target.segments = segments ++ added ∧ added.length = parts.length := by
  intro parts
  induction parts with
  | nil =>
      intro position segments last target hfollow
      obtain rfl := Except.ok.inj hfollow
      exact ⟨[], by simp⟩
  | cons part rest ih =>
      -- the recursive calls are all made with one more segment
      have hnext : ∀ {position : PathPosition σ} {segments : List Segment} {segment : Segment}
          {last : Option (Attribute σ)} {target : ResolvedPath σ},
          follow path rest position (segments ++ [segment]) last = .ok target →
          ∃ added, target.segments = segments ++ added ∧ added.length = rest.length + 1 := by
        intro position segments segment last target hfollow
        obtain ⟨added, hadded, hlength⟩ := ih hfollow
        exact ⟨segment :: added, by simp [hadded], by simp [hlength]⟩
      intro position segments last target hfollow
      simp only [follow] at hfollow
      split at hfollow
      · simp at hfollow
      · split at hfollow
        case h_1 frame =>
          split at hfollow
          · exact hnext hfollow
          · split at hfollow
            · obtain rfl := Except.ok.inj hfollow
              exact prefix_undeclared _ _
            · simp at hfollow
        case h_2 scope place types =>
          split at hfollow
          · split at hfollow
            · simp at hfollow
            · exact hnext hfollow
          · split at hfollow
            · split at hfollow
              · exact hnext hfollow
              · split at hfollow
                · obtain rfl := Except.ok.inj hfollow
                  exact prefix_undeclared _ _
                · simp at hfollow
            · simp at hfollow

/-- Nothing lies inside a combined attribute. -/
theorem follow_combine {path : String} {parts : List String} {scope : Scope σ} {place : Place}
    {sources : List String} {separator : String} {segments : List Segment}
    {last : Option (Attribute σ)} {target : ResolvedPath σ}
    (hfollow : follow path parts (.value scope place [.combine sources separator]) segments last =
      .ok target) : parts = [] := by
  cases parts with
  | nil => rfl
  | cons part rest =>
      simp only [follow] at hfollow
      split at hfollow
      · simp at hfollow
      · split at hfollow
        · simp [elementTypes] at hfollow
        · simp [descend?, Scope.enter?] at hfollow

end PathPosition

/-! ## Paths from the outermost document -/

namespace Scope

variable {scope : Scope σ}

/-- A usable name that leads to an attribute is a path to it. -/
theorem lookup_of_nativeAttribute? {name : String} {field : Attribute σ}
    (husable : SchemaOf.isUsableName name = true)
    (hfind : scope.root.nativeAttribute? name = some field) :
    scope.lookup name = .ok ⟨[.name field.name], some field.types, some field⟩ := by
  rw [lookup, Dotted.split_of_usable husable]
  simp [PathPosition.follow, SchemaOf.ne_empty_of_usable husable, frame, hfind,
    PathPosition.types?]

theorem lookup_nativeName (hschema : scope.root.WellFormed) (hnames : scope.root.Addressable)
    {field : Attribute σ} (hfield : field ∈ scope.root.attributes) :
    scope.lookup field.nativeName = .ok ⟨[.name field.name], some field.types, some field⟩ :=
  lookup_of_nativeAttribute? (hnames.usable field hfield)
    (hschema.nativeAttribute?_nativeName hnames.distinct hfield)

theorem lookup_name (hschema : scope.root.WellFormed) {field : Attribute σ}
    (hfield : field ∈ scope.root.attributes) :
    scope.lookup field.name = .ok ⟨[.name field.name], some field.types, some field⟩ :=
  lookup_of_nativeAttribute? (hschema.usable field hfield) (hschema.nativeAttribute?_name hfield)

/-- A path leads to an attribute of the outermost document or into it, or to undeclared data. -/
theorem lookup_cases {path : String} {target : ResolvedPath σ}
    (hlookup : scope.lookup path = .ok target) :
    (∃ field ∈ scope.root.attributes,
        target = ⟨[.name field.name], some field.types, some field⟩) ∨
      (∃ field ∈ scope.root.attributes, ∃ segment rest,
        target.segments = .name field.name :: segment :: rest ∧ field.combine? = none) ∨
      (∃ name rest, target.segments = .name name :: rest ∧ target.types = none ∧
        target.last = none ∧ ∀ field ∈ scope.root.attributes, field.name ≠ name) := by
  rw [lookup] at hlookup
  cases hsplit : Dotted.split path with
  | nil =>
      have hlength : (Dotted.split path).length ≠ 0 := by simp [Dotted.split]
      exact absurd (by rw [hsplit]; rfl) hlength
  | cons part rest =>
      rw [hsplit] at hlookup
      -- the first part is looked up in the outermost document, the others from there
      simp only [PathPosition.follow, List.nil_append] at hlookup
      split at hlookup
      · simp at hlookup
      · split at hlookup
        case h_1 field hfind =>
          have hfield := SchemaOf.mem_of_nativeAttribute? hfind
          cases rest with
          | nil =>
              obtain rfl := Except.ok.inj hlookup
              exact .inl ⟨field, hfield, rfl⟩
          | cons next more =>
              refine .inr (.inl ⟨field, hfield, ?_⟩)
              obtain ⟨added, hadded, hlength⟩ := PathPosition.prefix_of_follow hlookup
              obtain ⟨segment, others, rfl⟩ := List.exists_cons_of_ne_nil
                (List.ne_nil_of_length_eq_add_one hlength)
              refine ⟨segment, others, by simpa using hadded, ?_⟩
              cases hcombine : field.combine? with
              | none => rfl
              | some combined =>
                  rw [AttributeOf.types_of_combine? hcombine] at hlookup
                  exact absurd (PathPosition.follow_combine hlookup) (by simp)
        -- undeclared data is allowed only where unknown attributes are kept
        case h_2 hfind =>
          split at hlookup
          · obtain rfl := Except.ok.inj hlookup
            obtain ⟨segment, hsegment, hname⟩ := PathPosition.undeclared_cons [] part rest
            obtain rfl := hname rfl
            obtain ⟨added, hadded, -⟩ :=
              PathPosition.prefix_undeclared rest [.name part]
            refine .inr (.inr ⟨part, added, ?_, rfl, rfl,
              SchemaOf.name_ne_of_nativeAttribute?_eq_none hfind⟩)
            simpa [hsegment] using hadded
          · simp at hlookup

end Scope

end ItemMapper
