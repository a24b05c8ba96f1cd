import ItemMapper.Proofs.Marshal.Throughout
import ItemMapper.Proofs.Reference.Documents
import ItemMapper.Proofs.Update.Changes

/-!
# Forced defaults in documents

A forced default takes the place of what a document gives for the attribute, and that is all that
forcing means: an attribute that is not given at all gets its default only if defaults are asked for
as such, and the undefined value, which stands for none, is left alone (`MarshalOptions.imposes`).
Where the default is imposed, the item has what it encodes to after the modifiers of the attribute
(`AttributeOf.EncodesDefault`), and where it is not, the item has nothing.

An attribute passes through the stages on its own: it is filled in once
(`Drafts.exists_fill_of_foldlM`), nothing combines it, and the draft that is left is encoded.
`Frame.Stores.forces` follows it through one document.
-/

namespace ItemMapper

variable {σ : Type}

open Pipeline

/-- The attribute has a value for a default, it is forced, and it is not computed from others. -/
structure AttributeOf.Forces (field : Attribute σ) (default : Value) : Prop where
  literal : field.defaultValue = some (.literal default)
  forced : field.forceDefault = true
  plain : field.combine? = none

/-- A time is recorded under the name. -/
def SchemaOf.Stamps (schema : Schema σ) (name : String) : Prop :=
  ∃ stamps, schema.timestamps = some stamps ∧
    (stamps.createdAt = some name ∨ stamps.updatedAt = some name)

/-- Whether a forced default is stored for an attribute, given its value in the document. -/
def MarshalOptions.imposes (options : MarshalOptions) : Option Value → Bool
  | none => options.defaults
  | some given => !given.isUndefined

/-- Some run encodes the default, after the modifiers of the attribute, as this; none means that
nothing is stored. -/
def AttributeOf.EncodesDefault (field : Attribute σ) (writing : Writing) (scope : Scope σ)
    (place : Place) (default : Value) (stored : Option WireValue) : Prop :=
  ∃ value, field.ModifiesTo writing.options default value ∧ ∃ depth before after,
    Yields (Value.writerTo writing depth value scope place field.types) before stored after

/-- An item has the forced defaults of a document.  The undefined value is not modified, and nothing
is stored of it. -/
structure Frame.Forces (writing : Writing) (frame : Frame σ) (fields : List (String × Value))
    (item : Item) : Prop where
  imposed : ∀ field ∈ frame.schema.attributes, ∀ default, field.Forces default →
    ¬ frame.schema.Stamps field.name →
    writing.options.imposes ((frame.schema.normalized fields).get? field.name) = true →
      default.isUndefined = true ∧ item.get? field.name = none ∨
        field.EncodesDefault writing frame.scope (frame.place.child field.name) default
          (item.get? field.name)
  left : ∀ field ∈ frame.schema.attributes, ∀ default, field.Forces default →
    ¬ frame.schema.Stamps field.name →
    writing.options.imposes ((frame.schema.normalized fields).get? field.name) = false →
      item.get? field.name = none

/-! ## One attribute on its way -/

namespace Drafts

variable {make : Value → Draft σ} {writing : Writing} {schema : Schema σ} {place : Place}
  {drafts filled : Fields (Draft σ)} {field : Attribute σ} {default : Value} {before after : σ}

/-- Only times are recorded. -/
theorem get?_stamp_of_not_stamps {name : String} (hplain : ¬ schema.Stamps name) :
    (stamp make writing schema drafts).get? name = drafts.get? name := by
  unfold stamp
  split
  · rfl
  · rfl
  · next stamps hstamps _ =>
      have hother : ∀ other, stamps.createdAt = some other ∨ stamps.updatedAt = some other →
          other ≠ name := by
        rintro other hrecorded rfl
        exact hplain ⟨stamps, hstamps, hrecorded⟩
      extract_lets now stamped
      have hstamped : stamped.get? name = drafts.get? name := by
        dsimp only [stamped]
        split
        · next created _ hcreated =>
            rw [get?_insert_absent, if_neg (hother created (.inl hcreated))]
        · rfl
      split
      · next updated hupdated =>
          rw [Fields.get?_insert, if_neg (hother updated (.inr hupdated)), hstamped]
      · exact hstamped

theorem wantsDefault_eq_imposes (hforces : field.Forces default)
    (hforce : writing.options.forceDefaults = true) (given : Option (Draft σ)) :
    wantsDefault writing.options field given =
      writing.options.imposes (given.map Draft.value) := by
  cases given <;> simp [wantsDefault, MarshalOptions.imposes, hforces.forced, hforce]

/-- A forced default that is imposed takes the place of what is given, and is modified. -/
theorem of_yields_fill_imposed (hforces : field.Forces default)
    (hforce : writing.options.forceDefaults = true) (hmake : ∀ value, (make value).value = value)
    (himposes : writing.options.imposes ((drafts.get? field.name).map Draft.value) = true)
    (hrun : Yields (fill make writing place drafts field) before filled after) :
    ∃ value, filled.get? field.name = some (make value) ∧
      (default.isUndefined = true ∧ value = default ∨
        field.ModifiesTo writing.options default value) := by
  have hdefined : defined? (drafts.insert field.name (make default)) field.name =
      if default.isUndefined then none else some (make default) := by
    rw [defined?, Fields.get?_insert_self, Option.filter_some, hmake]
    cases default.isUndefined <;> rfl
  unfold fill at hrun
  extract_lets path modified at hrun
  rw [wantsDefault_eq_imposes hforces hforce, if_pos himposes] at hrun
  simp only [evaluateDefault, hforces.literal, pure_bind] at hrun
  dsimp only [modified] at hrun
  split at hrun
  · next hmodify =>
      have hmodifiers : writing.options.modifiers = true := (Bool.and_eq_true_iff.mp hmodify).1
      rw [hdefined] at hrun
      cases hundefined : default.isUndefined with
      | true =>
          simp only [hundefined, if_true, yields_pure] at hrun
          exact ⟨default, by rw [← hrun.1, Fields.get?_insert_self], .inl ⟨rfl, rfl⟩⟩
      | false =>
          simp only [hundefined, Bool.false_eq_true, if_false, yields_bind, yields_pure, hmake]
            at hrun
          obtain ⟨value, middle, hvalue, rfl, -⟩ := hrun
          refine ⟨value, Fields.get?_insert_self .., .inr ?_⟩
          rw [AttributeOf.ModifiesTo, if_pos hmodifiers]
          exact ⟨path, before, middle, hvalue⟩
  · next hkeep =>
      obtain ⟨rfl, -⟩ := yields_pure.mp hrun
      refine ⟨default, Fields.get?_insert_self .., .inr (AttributeOf.modifiesTo_self before ?_)⟩
      cases hmodifiers : writing.options.modifiers with
      | true => exact .inr (by simpa [hmodifiers] using hkeep)
      | false => exact .inl rfl

/-- Where it is not imposed, the attribute is left without a defined value. -/
theorem of_yields_fill_left (hforces : field.Forces default)
    (hforce : writing.options.forceDefaults = true)
    (himposes : writing.options.imposes ((drafts.get? field.name).map Draft.value) = false)
    (hrun : Yields (fill make writing place drafts field) before filled after) :
    defined? filled field.name = none := by
  have hnone : defined? drafts field.name = none := by
    cases hdraft : drafts.get? field.name with
    | none => simp [defined?, hdraft]
    | some draft =>
        simp only [hdraft, Option.map_some, MarshalOptions.imposes, Bool.not_eq_false'] at himposes
        simp [defined?, hdraft, himposes]
  unfold fill at hrun
  extract_lets path modified at hrun
  rw [wantsDefault_eq_imposes hforces hforce, himposes, if_neg Bool.false_ne_true] at hrun
  simp only [modified, hnone, pure_bind, ite_self, yields_pure] at hrun
  rw [← hrun.1, hnone]

/-- What is written in place of a value is written as a value. -/
theorem exists_writerTo_of_madeDraft {depth : Nat} {value : Value} {scope : Scope σ}
    {types : List (CandidateType σ)} {stored : Option WireValue}
    (hrun : Yields ((Value.madeDraft writing depth value).write scope place types) before stored
      after) :
    ∃ depth, Yields (Value.writerTo writing depth value scope place types) before stored after := by
  cases depth with
  | succ depth => exact ⟨depth, hrun⟩
  | zero =>
      refine ⟨0, ?_⟩
      simp only [Value.madeDraft, Value.shallowDraft] at hrun
      rw [Value.writerTo]
      cases value with
      | list items => exact (yields_throw.mp hrun).elim
      | map fields => exact (yields_throw.mp hrun).elim
      | _ => simpa only [Value.writer] using hrun

end Drafts

/-! ## One document -/

/-- Every document that passes through the stages gets its forced defaults. -/
theorem Frame.Stores.forces {writing : Writing} {frame : Frame σ} {fields : List (String × Value)}
    {settled : Document} {item : Item} (hforce : writing.options.forceDefaults = true)
    (hschema : frame.schema.WellFormed) (hstores : frame.Stores writing fields settled item) :
    frame.Forces writing fields item := by
  obtain ⟨depth, before, drafts, between, after, hsettle, hencode, -⟩ := hstores
  obtain ⟨filled, hfilled, hcombined⟩ := Drafts.of_yields_settle hsettle
  -- one attribute before it is filled in, after that, and in the end
  have hway : ∀ field ∈ frame.schema.attributes, ∀ default, field.Forces default →
      ¬ frame.schema.Stamps field.name →
      ∃ given found first last,
        (given.get? field.name).map Draft.value =
          (frame.schema.normalized fields).get? field.name ∧
        Yields (Drafts.fill (Value.madeDraft writing depth) writing frame.place given field) first
          found last ∧
        drafts.get? field.name = found.get? field.name := by
    intro field hfield default hforces hplain
    obtain ⟨given, found, first, last, hgiven, hfill, hfound⟩ :=
      Drafts.exists_fill_of_foldlM hschema.distinct hfield hfilled
    refine ⟨given, found, first, last, ?_, hfill, ?_⟩
    · rw [hgiven, Drafts.get?_stamp_of_not_stamps hplain, Drafts.normalize_drafts,
        Fields.get?_mapValues, Option.map_map]
      simp [Function.comp_def]
    · rcases hcombined with rfl | hcombined
      · exact hfound
      · rw [Drafts.get?_of_foldlM_combine hschema hfield hforces.plain hcombined, hfound]
  constructor
  · intro field hfield default hforces hplain himposes
    obtain ⟨given, found, _, _, hgiven, hfill, hfound⟩ := hway field hfield default hforces hplain
    obtain ⟨value, hvalue, hmodified⟩ := Drafts.of_yields_fill_imposed hforces hforce
      (Value.madeDraft_value writing depth) (hgiven ▸ himposes) hfill
    obtain ⟨entry, _, _, hentry, hget⟩ :=
      Drafts.exists_encodeAttribute_of_yields_encode hschema hencode hfield
    have hwritten : ∃ depth first last, Yields (Value.writerTo writing depth value frame.scope
        (frame.place.child field.name) field.types) first (item.get? field.name) last := by
      rcases Drafts.of_yields_encodeAttribute_draft (hfound.trans hvalue) hentry with
        ⟨hundefined, rfl⟩ | ⟨stored, first, last, hstored, rfl⟩
      · rw [Value.madeDraft_value] at hundefined
        rw [Value.eq_undefined hundefined, hget]
        exact ⟨0, before, before, yields_pure_self⟩
      · obtain ⟨depth, hstored⟩ := Drafts.exists_writerTo_of_madeDraft hstored
        rw [hget, Option.map_map]
        exact ⟨depth, first, last, by simpa [Function.comp_def] using hstored⟩
    rcases hmodified with ⟨hundefined, rfl⟩ | hmodified
    · obtain ⟨depth, _, _, hrun⟩ := hwritten
      rw [Value.eq_undefined hundefined, Value.writerTo_eq, Value.writer] at hrun
      exact .inl ⟨hundefined, (yields_pure.mp hrun).1.symm⟩
    · exact .inr ⟨value, hmodified, hwritten⟩
  · intro field hfield default hforces hplain himposes
    obtain ⟨given, found, _, _, hgiven, hfill, hfound⟩ := hway field hfield default hforces hplain
    have hnone := Drafts.of_yields_fill_left hforces hforce (hgiven ▸ himposes) hfill
    obtain ⟨entry, _, _, hentry, hget⟩ :=
      Drafts.exists_encodeAttribute_of_yields_encode hschema hencode hfield
    rcases Drafts.of_yields_encodeAttribute hentry with ⟨-, rfl⟩ | ⟨draft, _, _, _, hdraft, -, -⟩
    · exact hget
    · rw [Drafts.defined?, hfound, ← Drafts.defined?, hnone] at hdraft
      contradiction

end ItemMapper
