import ItemMapper.Proofs.Plain.Conversion
import ItemMapper.Proofs.Update.Recombine

/-!
# The stages of saving

Where no attribute involves a function of the application, the stages of saving before the last one
only move drafts about, and what becomes of an attribute can be told from what is given for it and,
if it is combined, for its sources.  `SchemaOf.replacement?` is what timestamps and defaults put in
the place of what is given, and `Drafts.Combines` says what a combined attribute becomes after
that.  The last stage writes the drafts that are left.

`Drafts.Saves` puts this together attribute by attribute.  It holds of every run that succeeds
(`Drafts.saves_of_yields`), and a run succeeds wherever it holds (`Drafts.Saves.gives`).
-/

namespace ItemMapper

variable {σ : Type}

open Pipeline

/-! ## Steps that leave the state alone -/

namespace Pipeline

variable {α β : Type} {step : Pipeline σ α}

/-- The step succeeds with the value in every state and leaves it as it is. -/
def Gives (step : Pipeline σ α) (value : α) : Prop :=
  ∀ state, Yields step state value state

/-- What the step succeeds with once it gives always. -/
def Still (step : Pipeline σ α) : Prop :=
  ∀ before value after, Yields step before value after → before = after ∧ step.Gives value

theorem Yields.of_mapM_still {step : α → Pipeline σ β} {related : α → β → Prop} {items : List α}
    {values : List β} {before after : σ}
    (hstep : ∀ item ∈ items, ∀ before value after, Yields (step item) before value after →
      before = after ∧ related item value)
    (hrun : Yields (items.mapM step) before values after) :
    before = after ∧ List.Forall₂ related items values := by
  induction items generalizing before values with
  | nil =>
      obtain ⟨rfl, rfl⟩ := yields_mapM_nil.mp hrun
      exact ⟨rfl, .nil⟩
  | cons item rest ih =>
      obtain ⟨value, between, others, hvalue, hothers, rfl⟩ := yields_mapM_cons.mp hrun
      obtain ⟨rfl, hrelated⟩ := hstep item (by simp) _ _ _ hvalue
      obtain ⟨rfl, hrest⟩ := ih (fun other hother => hstep other (by simp [hother])) hothers
      exact ⟨rfl, .cons hrelated hrest⟩

end Pipeline

/-! ## Attributes without functions -/

namespace AttributeOf

/-- The default of an attribute, if it is a value. -/
def literal? (field : Attribute σ) : Option Value :=
  match field.defaultValue with
  | some (.literal value) => some value
  | _ => none

/-- Writing the attribute involves no function of the application: its values are neither modified
nor checked, but for their types, and its default is a value. -/
structure Literal (field : Attribute σ) : Prop where
  noModifiers : field.writeModifiers = []
  noValidator : field.validator = none
  noAllowed : field.allowed = none
  literalDefault : ∀ default, field.defaultValue = some default → ∃ value, default = .literal value

end AttributeOf

namespace SchemaOf

/-- The time that saving sets an attribute to, given its value. -/
def stamp? (schema : Schema σ) (now : Instant) (name : String) (given : Option Value) :
    Option Value :=
  match schema.timestamps with
  | none => none
  | some stamps =>
    if stamps.updatedAt = some name ∨ stamps.createdAt = some name ∧ given.isNone then
      some (.date now)
    else none

/-- What saving puts in the place of what is given for an attribute: a timestamp or the default. -/
def replacement? (schema : Schema σ) (now : Instant) (field : Attribute σ)
    (given : Option Value) : Option Value :=
  let stamp := schema.stamp? now field.name given
  match field.literal?, stamp.or given with
  | some value, none => some value
  | some value, some current =>
    if field.forceDefault && !current.isUndefined then some value else stamp
  | none, _ => stamp

end SchemaOf

theorem Fields.get?_insert {α : Type} (key : String) (value : α) (fields : Fields α)
    (other : String) : (fields.insert key value).get? other =
      if key = other then some value else fields.get? other := by
  split
  · next hsame => rw [← hsame, get?_insert_self]
  · next hne => exact get?_insert_of_ne (fun hsame => hne hsame.symm) value fields

namespace Drafts

variable {make : Value → Draft σ} {writing : Writing} {schema : Schema σ} {place : Place}
  {drafts others after : Fields (Draft σ)} {field : Attribute σ}

/-! ## Timestamps and defaults -/

theorem get?_insert_absent (created : String) (draft : Draft σ) (name : String) :
    (if (drafts.get? created).isSome then drafts else drafts.insert created draft).get? name =
      if created = name then some ((drafts.get? name).getD draft) else drafts.get? name := by
  by_cases hname : created = name
  · subst hname
    cases hget : drafts.get? created <;> simp [hget]
  · rw [apply_ite (Fields.get? · name), Fields.get?_insert]
    simp [hname]

theorem get?_stamp (hmode : writing.options.timestamps = .create) (name : String) :
    (stamp make writing schema drafts).get? name =
      ((schema.stamp? writing.now name ((drafts.get? name).map Draft.value)).map make).or
        (drafts.get? name) := by
  unfold stamp SchemaOf.stamp?
  rw [hmode]
  cases schema.timestamps with
  | none => rfl
  | some stamps =>
      obtain ⟨createdAt, updatedAt, storage⟩ := stamps
      have hcreated : ∀ created, (if (drafts.get? created).isSome then drafts
          else drafts.insert created (make (.date writing.now))).get? name =
          ((if created = name ∧ ((drafts.get? name).map Draft.value).isNone then
            some (Value.date writing.now) else none).map make).or (drafts.get? name) := by
        intro created
        rw [get?_insert_absent]
        by_cases hname : created = name <;> cases drafts.get? name <;> simp [hname]
      cases updatedAt with
      | none =>
          cases createdAt with
          | none => rfl
          | some created => simpa using hcreated created
      | some updated =>
          by_cases hname : updated = name
          · simp [hname]
          · cases createdAt with
            | none => simp [Fields.get?_insert, hname]
            | some created => simpa [Fields.get?_insert, hname] using hcreated created

/-- What an attribute is after its default is filled in, if that is a value. -/
def filled (make : Value → Draft σ) (field : Attribute σ) (given : Option (Draft σ)) :
    Option (Draft σ) :=
  match field.literal? with
  | none => given
  | some value => if wantsDefault .save field given then some (make value) else given

/-- Only the attribute itself is filled in. -/
theorem exists_fill_eq (hsave : writing.options = .save) (hfield : field.Literal) :
    ∃ after, fill make writing place drafts field = pure after ∧
      after.get? field.name = filled make field (drafts.get? field.name) ∧
        ∀ name, field.name ≠ name → after.get? name = drafts.get? name := by
  have hmodifiers : (MarshalOptions.save.modifiers && !field.writeModifiers.isEmpty) = false := by
    simp [hfield.noModifiers]
  unfold filled AttributeOf.literal?
  simp only [fill, hsave, hmodifiers, Bool.false_eq_true, if_false, bind_pure]
  cases hdefault : field.defaultValue with
  | none =>
      refine ⟨drafts, ?_, rfl, fun _ _ => rfl⟩
      split <;> simp [evaluateDefault, hdefault]
  | some default =>
      obtain ⟨value, rfl⟩ := hfield.literalDefault default hdefault
      by_cases hwants : wantsDefault .save field (drafts.get? field.name) = true
      · refine ⟨drafts.insert field.name (make value), ?_, ?_, fun name hname => ?_⟩
        · simp [evaluateDefault, hdefault, hwants]
        · simp [hwants]
        · rw [Fields.get?_insert, if_neg hname]
      · exact ⟨drafts, by simp [hwants], by simp [hwants], fun _ _ => rfl⟩

/-- Defaults are filled in attribute by attribute. -/
theorem exists_foldlM_fill (hsave : writing.options = .save) {attributes : List (Attribute σ)}
    (hattributes : ∀ field ∈ attributes, field.Literal)
    (hdistinct : (attributes.map AttributeOf.name).Nodup) :
    ∃ after, attributes.foldlM (fill make writing place) drafts = pure after ∧
      (∀ field ∈ attributes,
        after.get? field.name = filled make field (drafts.get? field.name)) ∧
      ∀ name ∉ attributes.map AttributeOf.name, after.get? name = drafts.get? name := by
  induction attributes generalizing drafts with
  | nil => exact ⟨drafts, rfl, by simp, by simp⟩
  | cons first rest ih =>
      obtain ⟨hfirst, hrest⟩ := List.nodup_cons.mp hdistinct
      obtain ⟨between, hfill, hself, hothers⟩ :=
        @exists_fill_eq σ make writing place drafts first hsave (hattributes first (by simp))
      obtain ⟨after, hfold, hfields, hnames⟩ :=
        @ih between (fun field hfield => hattributes field (by simp [hfield])) hrest
      refine ⟨after, ?_, ?_, ?_⟩
      · rw [List.foldlM_cons, hfill, pure_bind, hfold]
      · intro field hfield
        rcases List.mem_cons.mp hfield with rfl | hfield
        · rw [hnames _ hfirst, hself]
        · have hname : first.name ≠ field.name := fun hsame =>
            hfirst (hsame ▸ List.mem_map_of_mem hfield)
          rw [hfields field hfield, hothers _ hname]
      · intro name hname
        rw [List.map_cons, List.mem_cons, not_or] at hname
        rw [hnames name hname.2, hothers name fun hsame => hname.1 hsame.symm]

/-- What an attribute is after timestamps are set and defaults are filled in. -/
def prepared (make : Value → Draft σ) (now : Instant) (schema : Schema σ) (field : Attribute σ)
    (given : Option (Draft σ)) : Option (Draft σ) :=
  ((schema.replacement? now field (given.map Draft.value)).map make).or given

theorem filled_stamp (hmake : ∀ value, (make value).value = value) {now : Instant}
    (given : Option (Draft σ)) :
    filled make field (((schema.stamp? now field.name (given.map Draft.value)).map make).or given) =
      prepared make now schema field given := by
  have hwants : ∀ draft : Draft σ, wantsDefault .save field (some draft) =
      (field.forceDefault && !draft.value.isUndefined) := by
    intro draft
    simp [wantsDefault, MarshalOptions.save, Bool.and_comm]
  unfold filled prepared SchemaOf.replacement?
  cases field.literal? with
  | none => rfl
  | some value =>
      cases schema.stamp? now field.name (given.map Draft.value) with
      | some time =>
          simp only [Option.map_some, Option.some_or, hwants, hmake]
          split <;> rfl
      | none =>
          cases given with
          | none => rfl
          | some draft =>
              simp only [Option.map_none, Option.map_some, Option.none_or, hwants]
              split <;> rfl

/-! ## Combined attributes -/

/-- A text consists of the texts of some values, with separators between them. -/
def Joins (values : List Value) (separator text : String) : Prop :=
  ∃ texts, List.Forall₂ (fun value text => value.combinedText? = some text) values texts ∧
    String.intercalate separator texts = text

theorem joinSources_eq_ok {values : List Value} {separator path text : String} :
    joinSources values separator path = .ok text ↔ Joins values separator text := by
  simp only [joinSources, Except.bind_eq_ok, Except.mapM_eq_ok, Except.pure_eq_ok, Joins]
  refine exists_congr fun texts => and_congr_left fun _ => ?_
  constructor <;> refine List.Forall₂.imp fun value text htext => ?_
  · cases hvalue : value.combinedText? <;> simp_all
  · simp [htext]

theorem Joins.unique {values : List Value} {separator text other : String}
    (htext : Joins values separator text) (hother : Joins values separator other) : text = other :=
  Except.ok.inj ((joinSources_eq_ok.mpr htext).symm.trans
    (joinSources_eq_ok.mpr hother : joinSources values separator "" = .ok other))

/-- The values of the sources that have one. -/
def present (drafts : Fields (Draft σ)) (sources : List String) : List Value :=
  sources.filterMap fun source => (defined? drafts source).map Draft.value

/-- What an attribute becomes when combined attributes are computed. -/
inductive Combines (make : Value → Draft σ) (drafts : Fields (Draft σ)) (field : Attribute σ) :
    Option (Draft σ) → Prop
  | plain (hplain : field.combine? = none) :
      Combines make drafts field (drafts.get? field.name)
  | empty {sources : List String} {separator : String}
      (hcombine : field.combine? = some (sources, separator))
      (hpresent : present drafts sources = [])
      (hgiven : (defined? drafts field.name).isSome = true → sources = []) :
      Combines make drafts field none
  | joined {sources : List String} {separator text : String}
      (hcombine : field.combine? = some (sources, separator))
      (hpresent : present drafts sources ≠ [])
      (hgiven : (defined? drafts field.name).isSome = true →
        ∀ source ∈ sources, (defined? drafts source).isSome = true)
      (htext : Joins (present drafts sources) separator text) :
      Combines make drafts field (some (make (.string text)))

theorem present_eq_nil_iff {sources : List String} :
    present drafts sources = [] ↔ ∀ source ∈ sources, defined? drafts source = none := by
  simp [present, List.filterMap_eq_nil_iff]

/-- No source is missing. -/
theorem missing_isEmpty_iff {sources : List String} :
    (sources.filter fun source => (defined? drafts source).isNone).isEmpty = true ↔
      ∀ source ∈ sources, (defined? drafts source).isSome = true := by
  simp [List.filter_eq_nil_iff, Option.isSome_iff_ne_none]

/-- Without a missing source nothing stands in the way of a combined attribute. -/
theorem combine_eq {sources : List String} {separator : String}
    (hcombine : field.combine? = some (sources, separator))
    (hgiven : (defined? drafts field.name).isSome = true →
      ∀ source ∈ sources, (defined? drafts source).isSome = true) :
    combine make place drafts field =
      if (present drafts sources).isEmpty then .ok (drafts.erase field.name)
      else
        joinSources (present drafts sources) separator (place.child field.name).text >>=
          fun text => .ok (drafts.insert field.name (make (.string text))) := by
  unfold combine
  simp only [hcombine]
  rw [if_neg]
  · rfl
  · rwa [Bool.and_eq_true, Bool.not_eq_true', not_and, Bool.not_eq_false, missing_isEmpty_iff]

theorem given_of_combine {sources : List String} {separator : String}
    (hcombine : field.combine? = some (sources, separator))
    (hcombined : combine make place drafts field = .ok after) :
    (defined? drafts field.name).isSome = true →
      ∀ source ∈ sources, (defined? drafts source).isSome = true := by
  unfold combine at hcombined
  simp only [hcombine] at hcombined
  split at hcombined
  · cases hcombined
  · next hgiven =>
      rwa [Bool.and_eq_true, Bool.not_eq_true', not_and, Bool.not_eq_false,
        missing_isEmpty_iff] at hgiven

/-- Only the attribute itself is combined. -/
theorem of_combine (hcombined : combine make place drafts field = .ok after) :
    Combines make drafts field (after.get? field.name) ∧
      ∀ name, field.name ≠ name → after.get? name = drafts.get? name := by
  cases hcombine : field.combine? with
  | none =>
      simp only [combine, hcombine, Except.ok.injEq] at hcombined
      subst hcombined
      exact ⟨.plain hcombine, fun _ _ => rfl⟩
  | some sourced =>
      obtain ⟨sources, separator⟩ := sourced
      have hgiven := given_of_combine hcombine hcombined
      rw [combine_eq hcombine hgiven] at hcombined
      split at hcombined
      · next hpresent =>
          rw [List.isEmpty_iff] at hpresent
          obtain rfl := Except.ok.inj hcombined
          refine ⟨?_, fun name hname => ?_⟩
          · rw [Fields.get?_erase, if_pos rfl]
            refine .empty hcombine hpresent fun hsome => ?_
            -- with every source there and none of them there, there are none
            rw [List.eq_nil_iff_forall_not_mem]
            intro source hsource
            have hnone := present_eq_nil_iff.mp hpresent source hsource
            simpa [hnone] using hgiven hsome source hsource
          · rw [Fields.get?_erase, if_neg fun hsame => hname hsame.symm]
      · next hpresent =>
          rw [List.isEmpty_iff] at hpresent
          obtain ⟨text, htext, hinsert⟩ := Except.bind_eq_ok.mp hcombined
          obtain rfl := Except.ok.inj hinsert
          refine ⟨?_, fun name hname => by rw [Fields.get?_insert, if_neg hname]⟩
          rw [Fields.get?_insert_self]
          exact .joined hcombine hpresent hgiven (joinSources_eq_ok.mp htext)

theorem Combines.exists_combine {final : Option (Draft σ)}
    (hcombines : Combines make drafts field final) :
    ∃ after, combine make place drafts field = .ok after := by
  cases hcombines with
  | plain hplain => exact ⟨drafts, by rw [combine, hplain]⟩
  | empty hcombine hpresent hgiven =>
      refine ⟨drafts.erase field.name, ?_⟩
      rw [combine_eq hcombine fun hsome => by simp [hgiven hsome], hpresent]
      rfl
  | @joined _ _ text hcombine hpresent hgiven htext =>
      refine ⟨drafts.insert field.name (make (.string text)), ?_⟩
      rw [combine_eq hcombine hgiven, if_neg (by simpa using hpresent),
        joinSources_eq_ok.mpr htext]
      rfl

theorem Combines.unique {final other : Option (Draft σ)}
    (hfinal : Combines make drafts field final)
    (hother : Combines make drafts field other) : final = other := by
  cases hfinal with
  | joined hcombine hpresent _ htext =>
      cases hother with
      | joined hagain _ _ hother =>
          obtain ⟨rfl, rfl⟩ := Prod.mk.inj (Option.some.inj (hcombine.symm.trans hagain))
          rw [htext.unique hother]
      | _ => simp_all
  | _ => cases hother <;> simp_all

/-- What an attribute becomes depends on nothing but itself and its sources. -/
theorem Combines.congr {final : Option (Draft σ)}
    (hcombines : Combines make drafts field final)
    (hself : others.get? field.name = drafts.get? field.name)
    (hsources : ∀ sources separator, field.combine? = some (sources, separator) →
      ∀ source ∈ sources, others.get? source = drafts.get? source) :
    Combines make others field final := by
  have hdefined : ∀ {name}, others.get? name = drafts.get? name →
      defined? others name = defined? drafts name := fun hsame => by
    rw [defined?, defined?, hsame]
  have hpresent : ∀ {sources separator}, field.combine? = some (sources, separator) →
      present others sources = present drafts sources := fun hcombine =>
    List.filterMap_congr fun source hsource => by
      rw [hdefined (hsources _ _ hcombine source hsource)]
  cases hcombines with
  | plain hplain =>
      rw [← hself]
      exact .plain hplain
  | empty hcombine hnone hgiven =>
      refine .empty hcombine ((hpresent hcombine).trans hnone) ?_
      rwa [hdefined hself]
  | joined hcombine hsome hgiven htext =>
      refine .joined hcombine ?_ ?_ ?_
      · rwa [hpresent hcombine]
      · intro hown source hsource
        rw [hdefined hself] at hown
        rw [hdefined (hsources _ _ hcombine source hsource)]
        exact hgiven hown source hsource
      · rwa [hpresent hcombine]

/-- Computing one attribute leaves the others and their sources as they are. -/
theorem unchanged_of_combine {rest : List (Attribute σ)}
    (hattributes : Scope.Independent (field :: rest))
    (hcombined : combine make place drafts field = .ok after) {other : Attribute σ}
    (hother : other ∈ rest) : after.get? other.name = drafts.get? other.name ∧
      ∀ sources separator, other.combine? = some (sources, separator) →
        ∀ source ∈ sources, after.get? source = drafts.get? source := by
  obtain ⟨hcombines, hothers⟩ := of_combine hcombined
  refine ⟨hothers _ (hattributes.name_ne other hother).symm, ?_⟩
  intro sources separator hcombine source hsource
  by_cases hname : field.name = source
  · subst hname
    cases hplain : field.combine? with
    | none =>
        rw [combine, hplain] at hcombined
        rw [Except.ok.inj hcombined]
    | some sourced =>
        exact absurd rfl (hattributes.source_ne (by simp [hplain]) other hother sources separator
          hcombine _ hsource)
  · exact hothers source hname

/-- Combined attributes are computed from plain ones, so that their order makes no difference. -/
theorem of_foldlM_combine {attributes : List (Attribute σ)}
    (hattributes : Scope.Independent attributes)
    (hfold : attributes.foldlM (combine make place) drafts = .ok after) :
    (∀ field ∈ attributes, Combines make drafts field (after.get? field.name)) ∧
      ∀ name ∉ attributes.map AttributeOf.name, after.get? name = drafts.get? name := by
  induction attributes generalizing drafts with
  | nil =>
      obtain rfl := Except.ok.inj hfold
      exact ⟨by simp, fun _ _ => rfl⟩
  | cons first rest ih =>
      rw [List.foldlM_cons] at hfold
      obtain ⟨between, hfirst, hrest⟩ := Except.bind_eq_ok.mp hfold
      obtain ⟨hcombines, hothers⟩ := of_combine hfirst
      obtain ⟨hfields, hnames⟩ := ih hattributes.tail hrest
      have hfresh := (List.nodup_cons.mp hattributes.distinct).1
      constructor
      · intro field hfield
        rcases List.mem_cons.mp hfield with rfl | hfield
        · rw [hnames _ hfresh]
          exact hcombines
        · obtain ⟨hself, hsources⟩ := unchanged_of_combine hattributes hfirst hfield
          exact (hfields field hfield).congr hself.symm fun sources separator hcombine source hmem =>
            (hsources sources separator hcombine source hmem).symm
      · intro name hname
        rw [List.map_cons, List.mem_cons, not_or] at hname
        rw [hnames name hname.2, hothers name fun hsame => hname.1 hsame.symm]

theorem exists_foldlM_combine {attributes : List (Attribute σ)}
    (hattributes : Scope.Independent attributes)
    (hcombines : ∀ field ∈ attributes, ∃ final, Combines make drafts field final) :
    ∃ after, attributes.foldlM (combine make place) drafts = .ok after := by
  induction attributes generalizing drafts with
  | nil => exact ⟨drafts, rfl⟩
  | cons first rest ih =>
      obtain ⟨final, hfinal⟩ := hcombines first (by simp)
      obtain ⟨between, hfirst⟩ := hfinal.exists_combine
      obtain ⟨after, hafter⟩ := @ih between hattributes.tail fun field hfield => by
        obtain ⟨final, hfinal⟩ := hcombines field (by simp [hfield])
        obtain ⟨hself, hsources⟩ := unchanged_of_combine hattributes hfirst hfield
        exact ⟨final, hfinal.congr hself hsources⟩
      exact ⟨after, by rw [List.foldlM_cons, hfirst]; exact hafter⟩

/-! ## All stages -/

/-- The drafts of all attributes after timestamps are set and defaults are filled in. -/
def prepare (make : Value → Draft σ) (now : Instant) (schema : Schema σ)
    (drafts : Fields (Draft σ)) : Fields (Draft σ) :=
  Fields.ofList ((schema.attributes.map fun field =>
    (prepared make now schema field (drafts.get? field.name)).map fun draft =>
      (field.name, draft)).filterMap id)

theorem get?_prepare (hschema : schema.WellFormed) (hfield : field ∈ schema.attributes)
    (now : Instant) : (prepare make now schema drafts).get? field.name =
      prepared make now schema field (drafts.get? field.name) := by
  have hentries : List.Forall₂ (fun name entry => ∃ draft : Option (Draft σ),
      entry = draft.map (fun draft => (name, draft)) ∧
        ∀ other ∈ schema.attributes, other.name = name →
          draft = prepared make now schema other (drafts.get? name))
      (schema.attributes.map AttributeOf.name) (schema.attributes.map fun field =>
        (prepared make now schema field (drafts.get? field.name)).map fun draft =>
          (field.name, draft)) := by
    rw [List.forall₂_map_left_iff, List.forall₂_map_right_iff, List.forall₂_same]
    intro declared hdeclared
    refine ⟨_, rfl, fun other hother hname => ?_⟩
    rw [hschema.eq_of_name_eq hother hdeclared hname]
  exact (Fields.view_ofList _ hschema.distinct hentries).1 field.name
    (List.mem_map_of_mem hfield) field hfield rfl

/-- Without a place for undeclared data, none is kept. -/
theorem encodeUnknown_eq_nil {frame : Frame σ}
    (hdisabled : frame.scope.root.keepUnknown = .disabled) : encodeUnknown frame drafts = [] := by
  have houtside : ∀ place, frame.scope.unknownMatch place = .outside := fun place => by
    rw [Scope.unknownMatch, hdisabled, KeepUnknown.matchSegments]
  have hkeep : ∀ (value : Value) place, value.keep? frame.scope place = none := fun value place => by
    cases value <;> simp [Value.keep?, houtside]
  simp [encodeUnknown, hkeep]

/-- Saving goes from the prepared drafts to combined attributes, and from there to the item. -/
theorem exists_write_eq (hsave : writing.options = .save)
    (hmake : ∀ value, (make value).value = value) {frame : Frame σ}
    (hschema : frame.schema.WellFormed) (hliteral : ∀ field ∈ frame.schema.attributes, field.Literal)
    (hdisabled : frame.scope.root.keepUnknown = .disabled) (fields : List (String × Draft σ)) :
    ∃ drafts : Fields (Draft σ), (∀ field ∈ frame.schema.attributes, drafts.get? field.name =
        (prepare make writing.now frame.schema (normalize frame.schema fields)).get? field.name) ∧
      Drafts.write make writing frame fields = (do
        let finals ← .ofExcept (frame.schema.attributes.foldlM (combine make frame.place) drafts)
        let declared ← frame.schema.attributes.mapM (encodeAttribute writing frame finals)
        return Fields.ofList (declared.filterMap id)) := by
  have hcombine : writing.options.combine = true := by rw [hsave]; rfl
  have hmode : writing.options.timestamps = .create := by rw [hsave]; rfl
  obtain ⟨drafts, hfill, hfields, -⟩ := @exists_foldlM_fill σ make writing frame.place
    (stamp make writing frame.schema (normalize frame.schema fields)) hsave _ hliteral
    hschema.distinct
  refine ⟨drafts, fun field hfield => ?_, ?_⟩
  · rw [hfields field hfield, get?_stamp hmode, filled_stamp hmake, get?_prepare hschema hfield]
  · simp only [write, hfill, hcombine, if_true, pure_bind, encodeUnknown_eq_nil hdisabled,
      List.append_nil]

/-- What saving stores for an attribute, given what becomes of it. -/
inductive Stores (frame : Frame σ) (field : Attribute σ) :
    Option (Draft σ) → Option WireValue → Prop
  | absent {final : Option (Draft σ)}
      (hnone : ∀ draft, final = some draft → draft.value.isUndefined = true)
      (hoptional : field.required = false) : Stores frame field final none
  | written {draft : Draft σ} {stored : Option WireValue}
      (hdefined : draft.value.isUndefined = false)
      (hwrite : (draft.write frame.scope (frame.place.child field.name) field.types).Gives stored) :
      Stores frame field (some draft) stored

section Attributes

variable {frame : Frame σ} {before last : σ} {entry : Option (String × WireValue)}

/-- Nothing but the type of an attribute and whether it is required is checked. -/
theorem encodeAttribute_save (hsave : writing.options = .save) (hfield : field.Literal) :
    encodeAttribute writing frame drafts field =
      match defined? drafts field.name with
      | none =>
        if field.required then throw (.validation (.missing (frame.place.child field.name).text))
        else pure none
      | some draft => do
        let stored ← draft.write frame.scope (frame.place.child field.name) field.types
        return stored.map fun stored => (field.name, stored) := by
  have hcheck : ∀ value path,
      checkValue .save field value path = (pure () : Pipeline σ Unit) := by
    intro value path
    simp [checkValue, hfield.noAllowed, hfield.noValidator]
  have hmissing : isMissing MarshalOptions.save.required (drafts.get? field.name) =
      (defined? drafts field.name).isNone := by
    unfold defined?
    cases drafts.get? field.name with
    | none => rfl
    | some draft =>
        cases hvalue : draft.value.isUndefined <;>
          simp [isMissing, MarshalOptions.save, Option.filter_some, hvalue]
  simp only [encodeAttribute, hsave, hcheck, hmissing, pure_bind]
  cases defined? drafts field.name with
  | none => cases field.required <;> simp
  | some draft => simp

theorem stores_of_yields (hsave : writing.options = .save) (hfield : field.Literal)
    (hstill : ∀ draft, drafts.get? field.name = some draft →
      (draft.write frame.scope (frame.place.child field.name) field.types).Still)
    (hrun : Yields (encodeAttribute writing frame drafts field) before entry last) :
    before = last ∧ ∃ stored, entry = stored.map (fun stored => (field.name, stored)) ∧
      Stores frame field (drafts.get? field.name) stored := by
  rw [encodeAttribute_save hsave hfield] at hrun
  cases hdefined : defined? drafts field.name with
  | none =>
      simp only [hdefined] at hrun
      split at hrun
      · exact (yields_throw.mp hrun).elim
      · next hoptional =>
          obtain ⟨rfl, rfl⟩ := yields_pure.mp hrun
          refine ⟨rfl, none, rfl, .absent (fun draft hdraft => ?_) (by simpa using hoptional)⟩
          simpa [defined?, hdraft, Option.filter_some] using hdefined
  | some draft =>
      simp only [hdefined] at hrun
      obtain ⟨hdraft, hvalue⟩ := Option.filter_eq_some_iff.mp hdefined
      obtain ⟨stored, _, hwrite, hentry⟩ := yields_bind.mp hrun
      obtain ⟨rfl, hgives⟩ := hstill draft hdraft _ _ _ hwrite
      obtain ⟨rfl, rfl⟩ := yields_pure.mp hentry
      exact ⟨rfl, stored, rfl, hdraft ▸ .written (by simpa using hvalue) hgives⟩

theorem Stores.gives {stored : Option WireValue} (hsave : writing.options = .save)
    (hfield : field.Literal) (hstores : Stores frame field (drafts.get? field.name) stored) :
    (encodeAttribute writing frame drafts field).Gives
      (stored.map fun stored => (field.name, stored)) := by
  intro state
  rw [encodeAttribute_save hsave hfield]
  generalize hfinal : drafts.get? field.name = final at hstores
  cases hstores with
  | absent hnone hoptional =>
      have hdefined : defined? drafts field.name = none := by
        rw [defined?, hfinal, Option.filter_eq_none_iff]
        intro draft hdraft
        simp [hnone draft hdraft]
      simp [hdefined, hoptional]
  | @written draft _ hvalue hwrite =>
      have hdefined : defined? drafts field.name = some draft := by
        simp [defined?, hfinal, Option.filter_some, hvalue]
      simp only [hdefined]
      exact (hwrite state).bind yields_pure_self

end Attributes

/-! ### The whole document -/

/-- A document is saved as an item: each attribute is stored as what becomes of it. -/
structure Saves (make : Value → Draft σ) (writing : Writing) (frame : Frame σ)
    (fields : List (String × Draft σ)) (item : Item) : Prop where
  sorted : Fields.Sorted item
  attributes : ∀ field ∈ frame.schema.attributes, ∃ final,
    Combines make (prepare make writing.now frame.schema (normalize frame.schema fields)) field
        final ∧
      Stores frame field final (item.get? field.name)
  declared : ∀ name ∉ frame.schema.attributes.map AttributeOf.name, item.get? name = none

section Documents

variable {frame : Frame σ} {fields : List (String × Draft σ)} {item : Item}
  (hsave : writing.options = .save) (hmake : ∀ value, (make value).value = value)
  (hschema : frame.schema.WellFormed) (hliteral : ∀ field ∈ frame.schema.attributes, field.Literal)
  (hdisabled : frame.scope.root.keepUnknown = .disabled)

include hschema in
theorem Combines.congr_attributes (hfield : field ∈ frame.schema.attributes)
    (hsame : ∀ field ∈ frame.schema.attributes,
      others.get? field.name = drafts.get? field.name) {final : Option (Draft σ)}
    (hcombines : Combines make drafts field final) :
    Combines make others field final := by
  refine hcombines.congr (hsame field hfield) fun sources separator hcombine source hsource => ?_
  obtain ⟨other, hother, rfl, -⟩ :=
    hschema.plainSources field hfield sources separator hcombine source hsource
  exact hsame other hother

include hsave hmake hschema hliteral hdisabled

/-- What saving gives is determined attribute by attribute, if no draft changes the state. -/
theorem saves_of_yields (hstill : ∀ field ∈ frame.schema.attributes, ∀ draft,
      Combines make
        (prepare make writing.now frame.schema (normalize frame.schema fields)) field
        (some draft) →
      (draft.write frame.scope (frame.place.child field.name) field.types).Still)
    {before last : σ} (hrun : Yields (Drafts.write make writing frame fields) before item last) :
    before = last ∧ Saves make writing frame fields item := by
  obtain ⟨drafts, hdrafts, hwrite⟩ :=
    exists_write_eq hsave hmake hschema hliteral hdisabled fields
  rw [hwrite] at hrun
  obtain ⟨finals, _, hfinals, hdeclared⟩ := yields_bind.mp hrun
  obtain ⟨hfold, rfl⟩ := yields_ofExcept.mp hfinals
  obtain ⟨declared, _, hentries, hitem⟩ := yields_bind.mp hdeclared
  obtain ⟨rfl, rfl⟩ := yields_pure.mp hitem
  have hindependent : Scope.Independent frame.schema.attributes :=
    @Scope.independent_attributes σ ⟨frame.scope.registry, frame.schema⟩ hschema
  have hcombines : ∀ field ∈ frame.schema.attributes, Combines make
      (prepare make writing.now frame.schema (normalize frame.schema fields)) field
      (finals.get? field.name) := fun field hfield =>
    Combines.congr_attributes hschema hfield (fun other hother => (hdrafts other hother).symm)
      ((of_foldlM_combine hindependent hfold).1 field hfield)
  obtain ⟨rfl, hstored⟩ := Yields.of_mapM_still (fun field hfield _ _ _ hentry =>
    stores_of_yields hsave (hliteral field hfield)
      (fun draft hdraft => hstill field hfield draft (hdraft ▸ hcombines field hfield))
      hentry) hentries
  obtain ⟨hnamed, hother⟩ := Fields.view_ofList
    (fun name stored => ∀ field ∈ frame.schema.attributes, field.name = name →
      Stores frame field (finals.get? field.name) stored) hschema.distinct
    (List.forall₂_map_left_iff.mpr (((List.forall₂_and_left _ _).mpr
      ⟨fun _ hfield => hfield, hstored⟩).imp fun field entry hentry => by
        obtain ⟨hfield, stored, hsame, hstores⟩ := hentry
        refine ⟨stored, hsame, fun other hother hname => ?_⟩
        rw [hschema.eq_of_name_eq hother hfield hname]
        exact hstores))
  exact ⟨rfl, Fields.sorted_ofList _, fun field hfield => ⟨_, hcombines field hfield,
    hnamed _ (List.mem_map_of_mem hfield) field hfield rfl⟩, hother⟩

theorem Saves.gives (hsaves : Saves make writing frame fields item) :
    (Drafts.write make writing frame fields).Gives item := by
  intro state
  obtain ⟨drafts, hdrafts, hwrite⟩ :=
    exists_write_eq hsave hmake hschema hliteral hdisabled fields
  have hindependent : Scope.Independent frame.schema.attributes :=
    @Scope.independent_attributes σ ⟨frame.scope.registry, frame.schema⟩ hschema
  have hcombines : ∀ field ∈ frame.schema.attributes, ∃ final,
      Combines make drafts field final ∧
        Stores frame field final (item.get? field.name) := by
    intro field hfield
    obtain ⟨final, hfinal, hstores⟩ := hsaves.attributes field hfield
    exact ⟨final, hfinal.congr_attributes hschema hfield hdrafts, hstores⟩
  obtain ⟨finals, hfold⟩ := exists_foldlM_combine hindependent fun field hfield => by
    obtain ⟨final, hfinal, -⟩ := hcombines field hfield
    exact ⟨final, hfinal⟩
  have hstored : ∀ field ∈ frame.schema.attributes,
      (encodeAttribute writing frame finals field).Gives
        ((item.get? field.name).map fun stored => (field.name, stored)) := by
    intro field hfield
    obtain ⟨final, hfinal, hstores⟩ := hcombines field hfield
    obtain rfl := hfinal.unique ((of_foldlM_combine hindependent hfold).1 field hfield)
    exact hstores.gives hsave (hliteral field hfield)
  rw [hwrite]
  refine (yields_ofExcept.mpr ⟨hfold, rfl⟩).bind ?_
  refine (yields_mapM_of_forall fun field hfield => hstored field hfield state).bind ?_
  refine yields_pure.mpr ⟨Fields.ext (Fields.sorted_ofList _) hsaves.sorted fun name => ?_, rfl⟩
  have hentries : List.Forall₂ (fun name entry => ∃ stored,
      entry = stored.map (fun stored => (name, stored)) ∧ stored = item.get? name)
      (frame.schema.attributes.map AttributeOf.name) (frame.schema.attributes.map fun field =>
        (item.get? field.name).map fun stored => (field.name, stored)) := by
    rw [List.forall₂_map_left_iff, List.forall₂_map_right_iff, List.forall₂_same]
    exact fun field _ => ⟨_, rfl, rfl⟩
  obtain ⟨hnamed, hother⟩ := Fields.view_ofList (fun name stored => stored = item.get? name)
    hschema.distinct hentries
  by_cases hname : name ∈ frame.schema.attributes.map AttributeOf.name
  · exact hnamed name hname
  · rw [hother name hname, hsaves.declared name hname]

end Documents

end Drafts

end ItemMapper
