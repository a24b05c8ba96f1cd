import ItemMapper.Proofs.Plain.Assignments
import ItemMapper.Proofs.Spelling.Linked

/-!
# Values that are written alike

Linked values are not only encoded alike (`Value.agree_encode`) but also written alike, with all
stages that writing a document takes, if each stage treats them alike (`Reach.LinksWriting`).  The
drafts of linked documents correspond under the stored names of their attributes: their values are
linked, and they are written alike at the same spots (`Draft.Linked`).  Every stage carries this on,
one lemma for each, so that the documents are written as the same item (`Drafts.agree_write`), and
values are written alike by recursion on them (`Value.agree_writer`).
-/

namespace ItemMapper

variable {σ : Type}

/-! ## What corresponds -/

/-- Two values stand under the same stored name in documents of a schema: linked ones under that of
an attribute, the same one otherwise. -/
structure ValueLink.At (linked : ValueLink σ) (scope : Scope σ) (schema : Schema σ) (name : String)
    (value other : Value) : Prop where
  declared : ∀ field, schema.attribute? name = some field → linked scope field.types value other
  undeclared : schema.attribute? name = none → other = value

/-- Two drafts have linked values, and they are written alike at the same spots. -/
structure Draft.Linked (alike : Place → Place → Prop) (linked : ValueLink σ) (scope : Scope σ)
    (types : List (CandidateType σ)) (draft other : Draft σ) : Prop where
  value : linked scope types draft.value other.value
  write : ∀ {near far}, alike near far →
    Pipeline.Agree Eq (draft.write scope near types) (other.write scope far types)

/-- Two drafts stand under the same stored name in documents of a schema. -/
structure Draft.LinkedAt (alike : Place → Place → Prop) (linked : ValueLink σ) (scope : Scope σ)
    (schema : Schema σ) (name : String) (draft other : Draft σ) : Prop where
  declared : ∀ field, schema.attribute? name = some field →
    draft.Linked alike linked scope field.types other
  undeclared : schema.attribute? name = none → other.value = draft.value

/-- What makes the stages of writing treat linked values alike. -/
structure Reach.LinksWriting (reach : Reach σ) (alike : Place → Place → Prop) (linked : ValueLink σ)
    (writing : Writing) : Prop extends reach.Links alike linked where
  natural : writing.options.typeCheck = false → ∀ {scope types value other},
    linked scope types value other → other.natural? = value.natural?
  check : ∀ {scope schema}, reach.schemas scope schema → ∀ field ∈ schema.attributes,
    ∀ {value other}, linked scope field.types value other → ∀ path path',
      Pipeline.Agree Eq (checkValue writing.options field value path)
        (checkValue writing.options field other path')
  modify : ∀ {scope schema}, reach.schemas scope schema → ∀ field ∈ schema.attributes,
    ∀ {value other}, linked scope field.types value other → ∀ path path',
      Pipeline.Agree (linked scope field.types) (applyModifiers field.writeModifiers path value)
        (applyModifiers field.writeModifiers path' other)
  default : ∀ {scope schema}, reach.schemas scope schema → ∀ field ∈ schema.attributes,
    ∀ {document other : Document}, Fields.Rel (linked.At scope schema) document other →
      ∀ path path', Pipeline.Agree Eq (evaluateDefault writing.now field document path)
        (evaluateDefault writing.now field other path')

/-- Linked replacements are drafted as linked drafts. -/
def Draft.LinkedMaking (reach : Reach σ) (alike : Place → Place → Prop) (linked : ValueLink σ)
    (make : Value → Draft σ) : Prop :=
  ∀ scope types value other, (∀ type ∈ types, reach.types scope type) →
    linked scope types value other → (make value).Linked alike linked scope types (make other)

/-! ## The stages -/

/-- The texts of values are joined alike if they are the same. -/
theorem agree_joinSources {values others : List Value}
    (htexts : List.Forall₂ (fun value other => other.combinedText? = value.combinedText?) values
      others) (separator path path' : String) :
    Except.Agree Eq (joinSources values separator path) (joinSources others separator path') := by
  unfold joinSources
  refine (Except.Agree.mapM_eq (htexts.imp fun value other hsame => ?_)).bind ?_
  · simp only [hsame]
    cases value.combinedText? with
    | none => exact .error _ _
    | some text => exact .ok rfl
  · rintro texts _ rfl
    exact .ok rfl

namespace Drafts

variable {reach : Reach σ} {alike : Place → Place → Prop} {scope : Scope σ} {linked : ValueLink σ}
  {writing : Writing} {schema : Schema σ}
  {make : Value → Draft σ} {drafts others : Fields (Draft σ)} {near far : Place}
  {field : Attribute σ}

theorem rel_values (hdrafts : Fields.Rel (Draft.LinkedAt alike linked scope schema) drafts others) :
    Fields.Rel (linked.At scope schema) (values drafts) (values others) :=
  hdrafts.mapValues fun _ _ _ hdraft =>
    ⟨fun field hfield => (hdraft.declared field hfield).value, hdraft.undeclared⟩

variable (hlinks : reach.LinksWriting alike linked writing)
  (hmake : Draft.LinkedMaking reach alike linked make) (hreaches : reach.schemas scope schema)

include hlinks hreaches

/-- Under the name of an attribute both documents have linked drafts or none. -/
theorem rel_get? (hfield : field ∈ schema.attributes)
    (hdrafts : Fields.Rel (Draft.LinkedAt alike linked scope schema) drafts others) :
    Option.Rel (Draft.Linked alike linked scope field.types) (drafts.get? field.name)
      (others.get? field.name) := by
  have hname := (hlinks.wellFormed scope schema hreaches).attribute?_name hfield
  have hrel := hdrafts.get? field.name
  generalize drafts.get? field.name = draft at hrel ⊢
  generalize others.get? field.name = other at hrel ⊢
  cases hrel with
  | none => exact .none
  | some hdraft => exact .some (hdraft.declared field hname)

theorem rel_defined? (hfield : field ∈ schema.attributes)
    (hdrafts : Fields.Rel (Draft.LinkedAt alike linked scope schema) drafts others) :
    Option.Rel (Draft.Linked alike linked scope field.types) (defined? drafts field.name)
      (defined? others field.name) := by
  have hrel := rel_get? hlinks hreaches hfield hdrafts
  unfold defined?
  generalize drafts.get? field.name = draft at hrel ⊢
  generalize others.get? field.name = other at hrel ⊢
  cases hrel with
  | none => exact .none
  | some hdraft =>
      simp only [Option.filter_some, (hlinks.form hdraft.value).isUndefined]
      split
      · exact .some hdraft
      · exact .none

include hmake

/-- Under the name of an attribute linked values may be put. -/
theorem rel_insert (hfield : field ∈ schema.attributes)
    (hdrafts : Fields.Rel (Draft.LinkedAt alike linked scope schema) drafts others)
    {value other : Value} (hvalue : linked scope field.types value other) :
    Fields.Rel (Draft.LinkedAt alike linked scope schema) (drafts.insert field.name (make value))
      (others.insert field.name (make other)) := by
  have hname := (hlinks.wellFormed scope schema hreaches).attribute?_name hfield
  have huses : ∀ type ∈ field.types, reach.types scope type := fun type htype =>
    reach.field hreaches hfield htype
  refine hdrafts.insert ⟨fun declared hdeclared => ?_, fun hnone => ?_⟩
  · obtain rfl := Option.some.inj (hname.symm.trans hdeclared)
    exact hmake _ _ _ _ huses hvalue
  · rw [hname] at hnone
    cases hnone

theorem rel_stamp
    (hdrafts : Fields.Rel (Draft.LinkedAt alike linked scope schema) drafts others) :
    Fields.Rel (Draft.LinkedAt alike linked scope schema) (stamp make writing schema drafts)
      (stamp make writing schema others) := by
  have hset : ∀ stamps, schema.timestamps = some stamps → ∀ name,
      stamps.createdAt = some name ∨ stamps.updatedAt = some name →
      ∀ {drafts others : Fields (Draft σ)},
        Fields.Rel (Draft.LinkedAt alike linked scope schema) drafts others →
          Fields.Rel (Draft.LinkedAt alike linked scope schema)
            (drafts.insert name (make (.date writing.now)))
            (others.insert name (make (.date writing.now))) := by
    intro stamps hstamps name hname drafts others hdrafts
    obtain ⟨field, hfield, rfl⟩ := (hlinks.wellFormed scope schema hreaches).stampsDeclared
      stamps hstamps name hname
    exact rel_insert hlinks hmake hreaches hfield hdrafts (hlinks.same _ _ _)
  unfold stamp
  cases hstamps : schema.timestamps with
  | none => exact hdrafts
  | some stamps =>
      have hcreate : ∀ name, stamps.createdAt = some name →
          Fields.Rel (Draft.LinkedAt alike linked scope schema)
            (if (drafts.get? name).isSome then drafts
              else drafts.insert name (make (.date writing.now)))
            (if (others.get? name).isSome then others
              else others.insert name (make (.date writing.now))) := by
        intro name hname
        rw [hdrafts.isSome_get?]
        split
        · exact hdrafts
        · exact hset stamps hstamps name (.inl hname) hdrafts
      cases writing.options.timestamps with
      | off => exact hdrafts
      | update =>
          cases hupdated : stamps.updatedAt with
          | none =>
              simp only [hupdated]
              exact hdrafts
          | some name =>
              simp only [hupdated]
              exact hset stamps hstamps name (.inr hupdated) hdrafts
      | create =>
          cases hcreated : stamps.createdAt <;> cases hupdated : stamps.updatedAt <;>
            simp only [hcreated, hupdated]
          case none.none => exact hdrafts
          case none.some name => exact hset stamps hstamps name (.inr hupdated) hdrafts
          case some.none name => exact hcreate name hcreated
          case some.some name other =>
            exact hset stamps hstamps other (.inr hupdated) (hcreate name hcreated)

/-- The default of an attribute is filled in and its value modified alike. -/
theorem agree_fill (hfield : field ∈ schema.attributes)
    (hdrafts : Fields.Rel (Draft.LinkedAt alike linked scope schema) drafts others) :
    Pipeline.Agree (Fields.Rel (Draft.LinkedAt alike linked scope schema))
      (fill make writing near drafts field) (fill make writing far others field) := by
  have hwants : wantsDefault writing.options field (others.get? field.name) =
      wantsDefault writing.options field (drafts.get? field.name) := by
    have hrel := rel_get? hlinks hreaches hfield hdrafts
    generalize drafts.get? field.name = draft at hrel ⊢
    generalize others.get? field.name = other at hrel ⊢
    cases hrel with
    | none => rfl
    | some hdraft => simp only [wantsDefault, (hlinks.form hdraft.value).isUndefined]
  unfold fill
  extract_lets path modified path' remodified
  have hmodified : ∀ {filled refilled : Fields (Draft σ)},
      Fields.Rel (Draft.LinkedAt alike linked scope schema) filled refilled →
        Pipeline.Agree (Fields.Rel (Draft.LinkedAt alike linked scope schema)) (modified filled)
          (remodified refilled) := by
    intro filled refilled hfilled
    have hrel := rel_defined? hlinks hreaches hfield hfilled
    dsimp only [modified, remodified]
    generalize defined? filled field.name = draft at hrel ⊢
    generalize defined? refilled field.name = other at hrel ⊢
    split
    · cases hrel with
      | none => exact .pure hfilled
      | some hdraft =>
          refine (hlinks.modify hreaches field hfield hdraft.value _ _).bind
            fun value other hvalue => ?_
          exact .pure (rel_insert hlinks hmake hreaches hfield hfilled hvalue)
    · exact .pure hfilled
  rw [hwants]
  split
  · refine (hlinks.default hreaches field hfield (rel_values hdrafts) path path').bind ?_
    rintro value _ rfl
    cases value with
    | none => exact hmodified hdrafts
    | some value =>
        exact hmodified (rel_insert hlinks hmake hreaches hfield hdrafts (hlinks.same _ _ _))
  · exact hmodified hdrafts

/-- A combined attribute is computed alike from its sources. -/
theorem agree_combine (hfield : field ∈ schema.attributes)
    (hdrafts : Fields.Rel (Draft.LinkedAt alike linked scope schema) drafts others) :
    Except.Agree (Fields.Rel (Draft.LinkedAt alike linked scope schema))
      (combine make near drafts field) (combine make far others field) := by
  unfold combine
  cases hcombine : field.combine? with
  | none => exact .ok hdrafts
  | some combined =>
      obtain ⟨sources, separator⟩ := combined
      have hsource : ∀ source ∈ sources, Option.Rel (fun draft other =>
          other.value.combinedText? = draft.value.combinedText?) (defined? drafts source)
            (defined? others source) := by
        intro source hsource
        obtain ⟨declared, hdeclared, rfl, -⟩ := (hlinks.wellFormed scope schema
          hreaches).plainSources field hfield sources separator hcombine source hsource
        have hrel := rel_defined? hlinks hreaches hdeclared hdrafts
        generalize defined? drafts declared.name = draft at hrel ⊢
        generalize defined? others declared.name = other at hrel ⊢
        cases hrel with
        | none => exact .none
        | some hdraft => exact .some (hlinks.form hdraft.value).combinedText?
      have hnone : ∀ source ∈ sources,
          (defined? others source).isNone = (defined? drafts source).isNone := by
        intro source hmem
        have hrel := hsource source hmem
        generalize defined? drafts source = draft at hrel ⊢
        generalize defined? others source = other at hrel ⊢
        cases hrel <;> rfl
      have hpresent : List.Forall₂ (fun value other => other.combinedText? = value.combinedText?)
          (sources.filterMap fun source => (defined? drafts source).map Draft.value)
          (sources.filterMap fun source => (defined? others source).map Draft.value) := by
        have hsame : List.Forall₂ (fun source other => source = other ∧ source ∈ sources)
            sources sources := List.forall₂_same.mpr fun _ hmem => ⟨rfl, hmem⟩
        refine List.rel_filterMap ?_ hsame
        rintro source _ ⟨rfl, hmem⟩
        have hrel := hsource source hmem
        dsimp only
        generalize defined? drafts source = draft at hrel ⊢
        generalize defined? others source = other at hrel ⊢
        cases hrel with
        | none => exact .none
        | some htext => exact .some htext
      have hgiven : (defined? others field.name).isSome = (defined? drafts field.name).isSome := by
        have hrel := rel_defined? hlinks hreaches hfield hdrafts
        generalize defined? drafts field.name = draft at hrel ⊢
        generalize defined? others field.name = other at hrel ⊢
        cases hrel <;> rfl
      simp only [hgiven, List.filter_congr hnone]
      generalize sources.filterMap (fun source => (defined? drafts source).map Draft.value) = values
        at hpresent ⊢
      generalize sources.filterMap (fun source => (defined? others source).map Draft.value) = found
        at hpresent ⊢
      split
      · exact .error _ _
      · cases hpresent with
        | nil => exact .ok (hdrafts.erase field.name)
        | cons hfirst hrest =>
            refine (agree_joinSources (.cons hfirst hrest) separator _ _).bind ?_
            rintro text _ rfl
            exact .ok (rel_insert hlinks hmake hreaches hfield hdrafts (hlinks.same _ _ _))

omit hmake in
/-- An attribute is checked and encoded alike. -/
theorem agree_encodeAttribute (hplaces : alike near far) (hfield : field ∈ schema.attributes)
    (hdrafts : Fields.Rel (Draft.LinkedAt alike linked scope schema) drafts others) :
    Pipeline.Agree Eq (encodeAttribute writing ⟨scope, near, schema⟩ drafts field)
      (encodeAttribute writing ⟨scope, far, schema⟩ others field) := by
  have hmissing : isMissing writing.options.required (others.get? field.name) =
      isMissing writing.options.required (drafts.get? field.name) := by
    have hrel := rel_get? hlinks hreaches hfield hdrafts
    generalize drafts.get? field.name = draft at hrel ⊢
    generalize others.get? field.name = other at hrel ⊢
    cases hrel with
    | none => rfl
    | some hdraft =>
        cases writing.options.required <;>
          simp [isMissing, (hlinks.form hdraft.value).isUndefined]
  have hrel := rel_defined? hlinks hreaches hfield hdrafts
  unfold encodeAttribute
  simp only [hmissing]
  generalize defined? drafts field.name = draft at hrel ⊢
  generalize defined? others field.name = other at hrel ⊢
  split
  · exact .throw_bind _ _ _ _
  · cases hrel with
    | none => exact .pure rfl
    | some hdraft =>
        refine (hlinks.check hreaches field hfield hdraft.value _ _).bind fun _ _ _ => ?_
        refine (hdraft.write (hlinks.child hplaces field.name)).bind ?_
        rintro stored _ rfl
        exact .pure rfl

omit hmake in
/-- The same is kept of what is undeclared. -/
theorem encodeUnknown_eq (hplaces : alike near far)
    (hdrafts : Fields.Rel (Draft.LinkedAt alike linked scope schema) drafts others) :
    encodeUnknown ⟨scope, near, schema⟩ drafts = encodeUnknown ⟨scope, far, schema⟩ others := by
  unfold encodeUnknown
  induction hdrafts with
  | nil => rfl
  | @cons entry other _ _ hentry _ ih =>
      obtain ⟨hname, hdraft⟩ := hentry
      simp only [List.filter_cons, hname]
      split
      · next hundeclared =>
          rw [Option.isNone_iff_eq_none] at hundeclared
          simp only [List.filterMap_cons, hname, hdraft.undeclared hundeclared, ih,
            Value.keep?_at hlinks.toBlindTo hreaches entry.2.value (hlinks.child hplaces entry.1)]
      · exact ih

/-- Drafts that correspond are written as the same item. -/
theorem agree_write (hplaces : alike near far) {fields refields : List (String × Draft σ)}
    (hfields : Fields.Rel (Draft.LinkedAt alike linked scope schema) (normalize schema fields)
      (normalize schema refields)) :
    Pipeline.Agree Eq (write make writing ⟨scope, near, schema⟩ fields)
      (write make writing ⟨scope, far, schema⟩ refields) := by
  have hfilled : Pipeline.Agree (Fields.Rel (Draft.LinkedAt alike linked scope schema))
      (schema.attributes.foldlM (fill make writing near)
        (stamp make writing schema (normalize schema fields)))
      (schema.attributes.foldlM (fill make writing far)
        (stamp make writing schema (normalize schema refields))) := by
    refine .foldlM_same (fun field hfield _ _ hdrafts => ?_)
      (rel_stamp hlinks hmake hreaches hfields)
    exact agree_fill hlinks hmake hreaches hfield hdrafts
  unfold write
  refine hfilled.bind fun filled refilled hfilled => ?_
  extract_lets encoded reencoded
  have hencoded : ∀ {drafts others : Fields (Draft σ)},
      Fields.Rel (Draft.LinkedAt alike linked scope schema) drafts others →
        Pipeline.Agree Eq (encoded drafts) (reencoded others) := by
    intro drafts others hdrafts
    refine Pipeline.Agree.bind (.mapM_same fun field hfield => ?_) ?_
    · exact agree_encodeAttribute hlinks hreaches hplaces hfield hdrafts
    · rintro declared _ rfl
      rw [encodeUnknown_eq hlinks hreaches hplaces hdrafts]
      exact .refl _
  split
  · refine Pipeline.Agree.bind (.ofExcept (.foldlM_same (fun field hfield _ _ hdrafts => ?_) hfilled))
      fun drafts others hdrafts => hencoded hdrafts
    exact agree_combine hlinks hmake hreaches hfield hdrafts
  · exact hencoded hfilled

end Drafts

/-! ## Values -/

section Values

variable {reach : Reach σ} {alike : Place → Place → Prop} {scope : Scope σ} {linked : ValueLink σ}
  {writing : Writing} {schema : Schema σ}
  {make : Value → Draft σ}

/-- A value is written alike as one of some types, wherever it is linked. -/
def Reach.WritesAlike (reach : Reach σ) (alike : Place → Place → Prop) (linked : ValueLink σ)
    (write : Value → Writer σ)
    (value : Value) : Prop :=
  ∀ {scope : Scope σ} {types : List (CandidateType σ)} {other : Value} {near far : Place},
    (∀ type ∈ types, reach.types scope type) → linked scope types value other →
      alike near far →
        Pipeline.Agree Eq (write value scope near types) (write other scope far types)

/-- Linked fields correspond under the stored name. -/
theorem ValueLink.Field.at (hschema : schema.WellFormed) {field other : String × Value}
    (hfield : linked.Field alike scope schema field other) :
    linked.At scope schema (schema.storedName field.1) field.2 other.2 := by
  rw [SchemaOf.storedName]
  cases hnative : schema.nativeAttribute? field.1 with
  | some declared =>
      have hname := hschema.attribute?_name (SchemaOf.mem_of_nativeAttribute? hnative)
      refine ⟨fun found hfound => ?_, fun hnone => ?_⟩
      · obtain rfl := Option.some.inj (hname.symm.trans hfound)
        exact hfield.value declared hnative
      · rw [Option.map_some, Option.getD_some, hname] at hnone
        cases hnone
  | none =>
      refine ⟨fun found hfound => ?_, fun _ => by rw [hfield.undeclared hnative]⟩
      rw [SchemaOf.nativeAttribute?, Option.or_eq_none_iff] at hnative
      rw [Option.map_none, Option.getD_none, hnative.2] at hfound
      cases hfound

/-- Linked documents correspond under stored names. -/
theorem SchemaOf.rel_normalized (hschema : schema.WellFormed) {fields others : List (String × Value)}
    (hfields : linked.Fields alike scope schema fields others) {property : Value → Prop}
    (hproperty : ∀ field ∈ fields, property field.2) :
    Fields.Rel (fun name value other => linked.At scope schema name value other ∧ property value)
      (schema.normalized fields) (schema.normalized others) := by
  obtain ⟨renamed, hrenamed, horder⟩ := hfields
  have hothers : schema.normalized others = schema.normalized renamed := by
    rcases horder with rfl | ⟨hperm, hdistinct⟩
    · rfl
    · refine (Fields.ofList_congr ?_ (hperm.symm.map _)).symm
      rw [List.map_map]
      exact ValueLink.storedNames_eq hrenamed ▸ hdistinct
  rw [hothers]
  refine Fields.Rel.ofList ?_
  rw [Fields.Rel, List.forall₂_map_left_iff, List.forall₂_map_right_iff]
  refine ((List.forall₂_and_left _ _).mpr ⟨hproperty, hrenamed⟩).imp ?_
  rintro field other ⟨hvalue, hfield⟩
  exact ⟨hfield.storedName_eq, hfield.at hschema, hvalue⟩

/-- Fields of linked documents are drafted as linked drafts if their values are written alike. -/
theorem Drafts.rel_normalize (hreaches : reach.schemas scope schema) (hschema : schema.WellFormed)
    {fields others : List (String × Value)} (hfields : linked.Fields alike scope schema fields others)
    (hvalues : ∀ field ∈ fields,
      reach.WritesAlike alike linked (fun value => value.writer make writing) field.2) :
    Fields.Rel (Draft.LinkedAt alike linked scope schema)
      (Drafts.normalize schema (Value.drafts make writing fields))
      (Drafts.normalize schema (Value.drafts make writing others)) := by
  rw [Drafts.normalize_drafts, Drafts.normalize_drafts]
  refine (SchemaOf.rel_normalized hschema hfields hvalues).mapValues ?_
  rintro name value other ⟨hvalue, hwrite⟩
  refine ⟨fun field hfield => ?_, fun hnone => hvalue.undeclared hnone⟩
  have huses : ∀ type ∈ field.types, reach.types scope type := fun type htype =>
    reach.field hreaches (SchemaOf.mem_of_attribute? hfield).1 htype
  have hlinked := hvalue.declared field hfield
  exact ⟨hlinked, fun hplaces => hwrite huses hlinked hplaces⟩

variable (hlinks : reach.LinksWriting alike linked writing)

include hlinks

/-- A value goes on inside alike, or is encoded alike. -/
theorem Value.agree_writeChosen {types : List (CandidateType σ)} {value other : Value}
    {near far : Place} (huses : ∀ type ∈ types, reach.types scope type)
    (hlinked : linked scope types value other) (hplaces : alike near far)
    {inside reinside : CandidateType σ → Option (Pipeline σ WireValue)}
    (hinside : ∀ choice, scope.resolve near types value = .ok choice →
      linked.Parts alike choice.reading.scope choice.reading.type value other →
        Option.Rel (Pipeline.Agree Eq) (inside choice.type) (reinside choice.type)) :
    Pipeline.Agree Eq (value.writeChosen writing scope near types inside)
      (other.writeChosen writing scope far types reinside) := by
  have hresolve := hlinks.resolve huses hlinked hplaces
  unfold writeChosen
  obtain ⟨choice, counterpart, hchoice, hother, hsame, hparts⟩ | ⟨cause, last, hcause, hlast⟩ :=
    hresolve.cases
  · have hrel := hinside choice hchoice hparts
    simp only [hchoice, hother, hsame.type]
    generalize inside choice.type = nested at hrel ⊢
    generalize reinside choice.type = renested at hrel ⊢
    cases hrel with
    | none =>
        obtain ⟨_, inner, nearer, type⟩ := choice
        obtain ⟨_, _, farther, _⟩ := counterpart
        obtain ⟨-, rfl, rfl, huses, hplaces⟩ := hsame
        exact .ofExcept (value.agree_encodeAs hlinks.toLinks huses hparts hplaces)
    | some hnested =>
        refine hnested.bind ?_
        rintro stored _ rfl
        exact .pure rfl
  · simp only [hcause, hlast]
    by_cases hcheck : writing.options.typeCheck = true
    · simp only [hcheck, if_true]
      exact .throw _ _
    · rw [Bool.not_eq_true] at hcheck
      simp only [hcheck, Bool.false_eq_true, if_false, hlinks.natural hcheck hlinked]
      exact .pure rfl

omit hlinks

mutual

/-- Linked values are written alike if linked replacements are. -/
theorem Value.agree_writer (hlinks : reach.LinksWriting alike linked writing)
    (hmake : Draft.LinkedMaking reach alike linked make) :
    ∀ value : Value, reach.WritesAlike alike linked (fun value => value.writer make writing) value
  | .list items, scope, types, other, near, far, huses, hlinked, hplaces => by
      obtain ⟨others, rfl⟩ : ∃ others, other = .list others := by
        cases hlinks.form hlinked with
        | same => exact ⟨items, rfl⟩
        | list => exact ⟨_, rfl⟩
      simp only [Value.writer]
      refine Value.agree_writeChosen hlinks huses hlinked hplaces fun choice hchoice hparts => ?_
      have htype := huses _ (Scope.of_resolve hchoice).1
      cases harray : choice.type with
      | array elements =>
          rw [Scope.reading_of_array hchoice harray] at hparts
          obtain ⟨_, heq, hitems⟩ := hparts.exists_items hlinks.same
          obtain rfl := Value.list.inj heq
          refine .some ((Value.agree_writeItems hlinks hmake items (fun _ hmem =>
            reach.element (harray ▸ htype) hmem) hitems hplaces 0).bind ?_)
          rintro stored _ rfl
          exact .pure rfl
      | _ => exact .none
  | .map fields, scope, types, other, near, far, huses, hlinked, hplaces => by
      obtain ⟨others, rfl⟩ : ∃ others, other = .map others := by
        cases hlinks.form hlinked with
        | same => exact ⟨fields, rfl⟩
        | map => exact ⟨_, rfl⟩
      simp only [Value.writer]
      refine Value.agree_writeChosen hlinks huses hlinked hplaces fun choice hchoice hparts => ?_
      have htype := huses _ (Scope.of_resolve hchoice).1
      rw [Scope.reading_of_document hchoice rfl] at hparts
      rcases Scope.enter?_at alike hlinks.enter hplaces scope choice.type with
        ⟨inner, schema, nearer, farther, hopens, hnear, hfar, hinner⟩ | ⟨hnear, hfar⟩
      · obtain ⟨_, heq, hfields⟩ := hparts.exists_fields hlinks.toCompatible hlinks.same hopens
        obtain rfl := Value.map.inj heq
        have hreaches := reach.inside htype hopens
        rw [hnear, hfar]
        refine .some ((Drafts.agree_write hlinks hmake hreaches hinner (Drafts.rel_normalize hreaches
          (hlinks.wellFormed _ _ hreaches) hfields
            (Value.writesAlike_of_mem hlinks hmake fields))).bind ?_)
        rintro stored _ rfl
        exact .pure rfl
      · rw [hnear, hfar]
        exact .none
  | .undefined, scope, types, other, near, far, huses, hlinked, hplaces => by
      cases hlinks.form hlinked
      simp only [Value.writer]
      exact .pure rfl
  | .null, _, _, _, _, _, huses, hlinked, hplaces | .bool _, _, _, _, _, _, huses, hlinked, hplaces
  | .number _, _, _, _, _, _, huses, hlinked, hplaces | .string _, _, _, _, _, _, huses, hlinked, hplaces
  | .binary _, _, _, _, _, _, huses, hlinked, hplaces | .date _, _, _, _, _, _, huses, hlinked, hplaces
  | .set _, _, _, _, _, _, huses, hlinked, hplaces => by
      cases hlinks.form hlinked
      simp only [Value.writer]
      exact Value.agree_writeChosen hlinks huses hlinked hplaces fun _ _ _ => .none

theorem Value.agree_writeItems (hlinks : reach.LinksWriting alike linked writing)
    (hmake : Draft.LinkedMaking reach alike linked make) :
    ∀ (items : List Value) {scope : Scope σ} {elements : List (CandidateType σ)}
      {others : List Value} {near far : Place}, (∀ type ∈ elements, reach.types scope type) →
      List.Forall₂ (linked scope elements) items others → alike near far → ∀ index,
        Pipeline.Agree Eq (Value.writeItems make writing scope near elements index items)
          (Value.writeItems make writing scope far elements index others)
  | [], _, _, _, _, _, _, .nil, _, _ => .pure rfl
  | item :: rest, scope, elements, _, near, far, huses, .cons hitem hrest, hplaces, index => by
      simp only [Value.writeItems]
      refine (Value.agree_writer hlinks hmake item huses hitem
        (hlinks.item hplaces index)).bind ?_
      rintro stored _ rfl
      refine (Value.agree_writeItems hlinks hmake rest huses hrest hplaces (index + 1)).bind ?_
      rintro others _ rfl
      exact .pure rfl

theorem Value.writesAlike_of_mem (hlinks : reach.LinksWriting alike linked writing)
    (hmake : Draft.LinkedMaking reach alike linked make) :
    ∀ (fields : List (String × Value)), ∀ field ∈ fields,
      reach.WritesAlike alike linked (fun value => value.writer make writing) field.2
  | [], _, hfield => absurd hfield List.not_mem_nil
  | (key, value) :: rest, field, hfield => by
      rcases List.mem_cons.mp hfield with rfl | hrest
      · exact Value.agree_writer hlinks hmake value
      · exact Value.writesAlike_of_mem hlinks hmake rest field hrest

end

/-- Linked replacements are drafted as linked drafts, at every depth. -/
theorem Value.linkedMaking_madeDraft (hlinks : reach.LinksWriting alike linked writing)
    (depth : Nat) :
    Draft.LinkedMaking reach alike linked (Value.madeDraft writing depth) := by
  induction depth with
  | zero =>
      intro scope types value other huses hlinked
      refine ⟨hlinked, fun {near far} hplaces => ?_⟩
      have hleaf : ∀ {value : Value}, linked scope types value value →
          Pipeline.Agree Eq (value.writeChosen writing scope near types fun _ => none)
            (value.writeChosen writing scope far types fun _ => none) := fun hlinked =>
        Value.agree_writeChosen hlinks huses hlinked hplaces fun _ _ _ => .none
      cases hlinks.form hlinked with
      | list => exact .throw _ _
      | map => exact .throw _ _
      | same =>
          cases value with
          | undefined => exact .pure rfl
          | list items => exact .throw _ _
          | map fields => exact .throw _ _
          | _ => exact hleaf hlinked
  | succ depth ih =>
      intro scope types value other huses hlinked
      refine ⟨hlinked, fun hplaces => ?_⟩
      simp only [madeDraft, writerTo_eq]
      exact Value.agree_writer hlinks ih value huses hlinked hplaces

/-- Linked values are written alike, whatever replacements may hold. -/
theorem Value.agree_writerTo (hlinks : reach.LinksWriting alike linked writing) (depth : Nat)
    (value : Value) : reach.WritesAlike alike linked (Value.writerTo writing depth) value := by
  intro scope types other near far huses hlinked hplaces
  rw [writerTo_eq, writerTo_eq]
  exact Value.agree_writer hlinks (Value.linkedMaking_madeDraft hlinks depth) value huses hlinked
    hplaces

/-- Linked documents are written as the same item. -/
theorem Frame.agree_write (hlinks : reach.LinksWriting alike linked writing) {start : Scope σ}
    (hroot : reach.schemas start start.root) (hplaces : alike .root .root) {document other : Document}
    (hdocument : linked.Fields alike start start.root document other) :
    Pipeline.Agree Eq (start.frame.write writing document) (start.frame.write writing other) := by
  have hmake := Value.linkedMaking_madeDraft hlinks writing.depth
  exact Drafts.agree_write hlinks hmake hroot hplaces (Drafts.rel_normalize hroot
    (hlinks.wellFormed _ _ hroot) hdocument fun field _ =>
      Value.agree_writer hlinks hmake field.2)

end Values

/-! ## The same value at the same spot -/

/-- Where the allowed values and the validator see no difference, both values pass or fail. -/
theorem agree_checkValue {options : MarshalOptions} {field : Attribute σ} {value other : Value}
    (hallowed : ∀ allowed, field.allowed = some allowed →
      allowed.any (· == other) = allowed.any (· == value))
    (hvalidator : ∀ validator, field.validator = some validator →
      validator.check other = validator.check value) (path path' : String) :
    Pipeline.Agree Eq (checkValue options field value path)
      (checkValue options field other path') := by
  unfold checkValue
  extract_lets validated revalidated
  have hvalidated : Pipeline.Agree Eq (validated ()) (revalidated ()) := by
    dsimp only [validated, revalidated]
    split
    · cases hfield : field.validator with
      | none => exact .refl _
      | some validator =>
          simp only [hvalidator validator hfield]
          refine (Pipeline.Agree.refl _).bind ?_
          rintro passed _ rfl
          split
          · exact .throw _ _
          · exact .pure rfl
    · exact .refl _
  split
  · cases hfield : field.allowed with
    | none => exact hvalidated
    | some allowed =>
        simp only [hallowed allowed hfield]
        split
        · exact .throw_bind _ _ _ _
        · exact hvalidated
  · exact hvalidated

/-- Modifiers run in the same way, whatever path their errors name. -/
theorem agree_applyModifiers (modifiers : List (Modifier σ)) (path path' : String) (value : Value) :
    Pipeline.Agree Eq (applyModifiers modifiers path value) (applyModifiers modifiers path' value) := by
  refine .foldlM_same (fun modifier _ value other hvalue => ?_) rfl
  exact hvalue ▸ .ofHook path path' _

theorem agree_evaluateDefault (now : Instant) (field : Attribute σ) (document : Document)
    (path path' : String) :
    Pipeline.Agree Eq (evaluateDefault now field document path)
      (evaluateDefault now field document path') := by
  unfold evaluateDefault
  cases field.defaultValue with
  | none => exact .refl _
  | some default =>
      cases default with
      | literal value => exact .refl _
      | immediate compute => exact .refl _
      | deferred compute =>
          refine (Pipeline.Agree.ofHook path path' (compute document)).bind ?_
          rintro value _ rfl
          exact .pure rfl
      | expiry lifetime =>
          dsimp only
          cases now.add? lifetime with
          | none => exact .throw _ _
          | some t => exact .pure rfl

/-- The same value stands for the same data. -/
theorem Reach.BlindTo.links {reach : Reach σ} {alike : Place → Place → Prop}
    (hblind : reach.BlindTo alike) :
    reach.Links alike fun _ _ value other => value = other where
  toBlindTo := hblind
  same := fun _ _ _ => rfl
  form := by
    rintro _ _ value _ rfl
    exact .same
  resolve := by
    rintro scope types value _ near far htypes rfl hplaces
    exact (Scope.resolve_at hblind hplaces htypes value).mono fun _ _ hsame => ⟨hsame, .same⟩

theorem Reach.BlindTo.linksWriting {reach : Reach σ} {alike : Place → Place → Prop}
    (hblind : reach.BlindTo alike)
    (writing : Writing) :
    reach.LinksWriting alike (fun _ _ value other => value = other) writing where
  toLinks := hblind.links
  natural := by
    rintro _ _ _ value _ rfl
    rfl
  check := by
    rintro _ _ _ field _ value _ rfl path path'
    exact agree_checkValue (fun _ _ => rfl) (fun _ _ => rfl) path path'
  modify := by
    rintro _ _ _ field _ value _ rfl path path'
    exact agree_applyModifiers _ path path' value
  default := by
    rintro scope schema _ field _ document other hdocument path path'
    obtain rfl : other = document := by
      refine hdocument.eq fun name value other hvalue => ?_
      cases hname : schema.attribute? name with
      | some declared => exact (hvalue.declared declared hname).symm
      | none => exact hvalue.undeclared hname
    exact agree_evaluateDefault _ field other path path'

end ItemMapper
