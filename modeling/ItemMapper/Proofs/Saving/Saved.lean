import ItemMapper.Proofs.Saving.Follows

/-!
# What has been saved

With declarative schemas a value is saved in the same way at every place and in every state of the
application.  `Value.SavesAs` says how, for a replacement at some depth; the values of a document
are saved as replacements one level up are (`Value.savesAs_succ_iff`).
-/

namespace ItemMapper

variable {σ α β : Type}

open Pipeline

/-- The result of a step that is followed by a function. -/
theorem Pipeline.gives_bind_pure_iff (before : σ) {step : Pipeline σ α} {f : α → β}
    (hf : Function.Injective f) {result : β} :
    (step >>= fun value => pure (f value)).Gives result ↔
      ∃ value, result = f value ∧ step.Gives value := by
  simp only [Gives, yields_bind, yields_pure]
  constructor
  · intro hruns
    obtain ⟨value, _, -, rfl, -⟩ := hruns before
    refine ⟨value, rfl, fun state => ?_⟩
    obtain ⟨other, _, hother, hsame, rfl⟩ := hruns state
    rwa [hf hsame] at hother
  · rintro ⟨value, rfl, hvalue⟩ state
    exact ⟨value, state, hvalue state, rfl, rfl⟩

/-! ## Values -/

/-- A replacement at some depth is saved in this way, wherever it stands, as one of some types. -/
def Value.SavesAs (value : Value) (writing : Writing) (depth : Nat) (scope : Scope σ)
    (types : List (CandidateType σ)) (stored : Option WireValue) : Prop :=
  ∀ place, ((value.madeDraft writing depth).write scope place types).Gives stored

/-- Items of a list are saved as these, in a document whose replacements have some depth. -/
def Value.ItemsSaveAs (items : List Value) (writing : Writing) (depth : Nat) (scope : Scope σ)
    (elements : List (CandidateType σ)) (storeds : List WireValue) : Prop :=
  ∀ place index, (Value.writeItems (Value.madeDraft writing depth) writing scope place elements
    index items).Gives storeds

namespace Value

variable {start scope : Scope σ} {writing : Writing} {depth deeper : Nat}
  {types : List (CandidateType σ)} {value : Value} {stored : Option WireValue}

/-- The values of a document are saved one level above its replacements. -/
theorem savesAs_succ_iff : value.SavesAs writing (depth + 1) scope types stored ↔
    ∀ place, (value.writer (Value.madeDraft writing depth) writing scope place types).Gives
      stored := by
  simp only [SavesAs, madeDraft, writerTo_eq]

section Everywhere

variable (hstart : start.Declarative) (hsave : writing.options = .save)
  (htypes : start.Discerns scope types)

include hstart hsave htypes

theorem SavesAs.of_le (hsaves : value.SavesAs writing depth scope types stored)
    (hdepth : depth ≤ deeper) : value.SavesAs writing deeper scope types stored := fun place =>
  ((value.follows_madeDraft hstart hsave hdepth).write htypes place place).gives (hsaves place)

theorem savesAs_of_gives {place : Place}
    (hgives : ((value.madeDraft writing depth).write scope place types).Gives stored) :
    value.SavesAs writing depth scope types stored := fun far =>
  ((value.follows_madeDraft hstart hsave le_rfl).write htypes place far).gives hgives

/-- A value of a document is saved everywhere as it is at one place. -/
theorem savesAs_of_yields {place : Place} {before after : σ}
    (hrun : Yields (value.writer (Value.madeDraft writing depth) writing scope place types)
      before stored after) :
    before = after ∧ value.SavesAs writing (depth + 1) scope types stored := by
  have hfollows := (value.follows_madeDraft hstart hsave (le_refl (depth + 1))).write htypes place
  simp only [madeDraft, writerTo_eq] at hfollows
  refine ⟨(hfollows place _ _ _ hrun).1, savesAs_succ_iff.mpr fun far => ?_⟩
  exact (hfollows far _ _ _ hrun).2.2

omit htypes in
theorem itemsSaveAs_of_yields {elements : List (CandidateType σ)}
    (helements : start.Discerns scope elements) {items : List Value} {place : Place} {index : Nat}
    {storeds : List WireValue} {before after : σ}
    (hrun : Yields (Value.writeItems (Value.madeDraft writing depth) writing scope place elements
      index items) before storeds after) :
    before = after ∧ ItemsSaveAs items writing depth scope elements storeds := by
  have hmake : Draft.Remade start (Value.madeDraft writing depth) (Value.madeDraft writing depth) :=
    ⟨madeDraft_value writing depth, follows_madeDraft hstart hsave le_rfl⟩
  have hfollows := follows_writeItems hstart hsave hmake items helements place
  exact ⟨(hfollows place index index _ _ _ hrun).1,
    fun far other => (hfollows far index other _ _ _ hrun).2.2⟩

/-! ### Lists -/

omit htypes in
theorem itemsSaveAs_cons_iff (before : σ) {elements : List (CandidateType σ)}
    (helements : start.Discerns scope elements) {item : Value} {rest : List Value}
    {storeds : List WireValue} :
    ItemsSaveAs (item :: rest) writing depth scope elements storeds ↔
      ∃ stored others, item.SavesAs writing (depth + 1) scope elements stored ∧
        ItemsSaveAs rest writing depth scope elements others ∧
          storeds = stored.toList ++ others := by
  constructor
  · intro hsaves
    have hrun := hsaves .root 0 before
    simp only [writeItems] at hrun
    obtain ⟨stored, _, hitem, hothers⟩ := yields_bind.mp hrun
    obtain ⟨others, _, hrest, hsame⟩ := yields_bind.mp hothers
    obtain ⟨rfl, -⟩ := yields_pure.mp hsame
    exact ⟨stored, others, (savesAs_of_yields hstart hsave helements hitem).2,
      (itemsSaveAs_of_yields hstart hsave helements hrest).2, rfl⟩
  · rintro ⟨stored, others, hitem, hrest, rfl⟩ place index state
    simp only [writeItems]
    exact (savesAs_succ_iff.mp hitem _ state).bind
      ((hrest place (index + 1) state).bind yields_pure_self)

omit hstart hsave htypes in
theorem itemsSaveAs_nil_iff (before : σ) {elements : List (CandidateType σ)}
    {storeds : List WireValue} :
    ItemsSaveAs [] writing depth scope elements storeds ↔ storeds = [] := by
  simp only [ItemsSaveAs, writeItems, Gives, yields_pure, and_true]
  exact ⟨fun hsame => (hsame .root 0 before).symm, fun hsame _ _ _ => hsame.symm⟩

/-! ### One value -/

omit hstart htypes in
theorem gives_writeChosen_iff (before : σ) {place : Place}
    {inside : CandidateType σ → Option (Pipeline σ WireValue)} :
    (value.writeChosen writing scope place types inside).Gives stored ↔
      ∃ choice, scope.resolve place types value = .ok choice ∧
        match inside choice.type with
        | some nested => ∃ inner, stored = some inner ∧ nested.Gives inner
        | none => value.encodeAs choice.reading = .ok stored := by
  have hcheck : writing.options.typeCheck = true := by rw [hsave]; rfl
  simp only [Gives, yields_writeChosen_iff hcheck, and_true]
  constructor
  · intro hruns
    obtain ⟨choice, hchoice, -⟩ := hruns before
    have hinside : ∀ state, match inside choice.type with
        | some nested => ∃ inner, stored = some inner ∧ Yields nested state inner state
        | none => value.encodeAs choice.reading = .ok stored := fun state => by
      obtain ⟨other, hother, hinside⟩ := hruns state
      obtain rfl := Except.ok.inj (hother.symm.trans hchoice)
      exact hinside
    refine ⟨choice, hchoice, ?_⟩
    cases hnested : inside choice.type with
    | none => simpa only [hnested] using hinside before
    | some nested =>
        simp only [hnested] at hinside
        obtain ⟨inner, rfl, -⟩ := hinside before
        refine ⟨inner, rfl, fun state => ?_⟩
        obtain ⟨other, hsame, hrun⟩ := hinside state
        rwa [← Option.some.inj hsame] at hrun
  · rintro ⟨choice, hchoice, hinside⟩ state
    refine ⟨choice, hchoice, ?_⟩
    cases hnested : inside choice.type with
    | none => simpa [hnested] using hinside
    | some nested =>
        simp only [hnested] at hinside
        obtain ⟨inner, rfl, hgives⟩ := hinside
        exact ⟨inner, rfl, hgives state⟩

/-- It is enough to look at one place. -/
theorem savesAs_iff_gives (place : Place) : value.SavesAs writing (depth + 1) scope types stored ↔
    (value.writer (Value.madeDraft writing depth) writing scope place types).Gives stored := by
  refine ⟨fun hsaves => savesAs_succ_iff.mp hsaves place, fun hgives => ?_⟩
  have hdraft : ((value.madeDraft writing (depth + 1)).write scope place types).Gives stored := by
    rwa [madeDraft, writerTo_eq]
  exact savesAs_of_gives hstart hsave htypes hdraft

/-- A list is saved item by item if its type says of which items it is. -/
theorem savesAs_list_iff (before : σ) (place : Place) {items : List Value} :
    (Value.list items).SavesAs writing (depth + 1) scope types stored ↔
      ∃ choice, scope.resolve place types (.list items) = .ok choice ∧
        match choice.type with
        | .array elements => ∃ storeds, stored = some (.list storeds) ∧
            ItemsSaveAs items writing depth scope elements storeds
        | _ => (Value.list items).encodeAs choice.reading = .ok stored := by
  rw [savesAs_iff_gives hstart hsave htypes place]
  simp only [Value.writer]
  rw [gives_writeChosen_iff hsave before]
  refine exists_congr fun choice => and_congr_right fun hchoice => ?_
  have htype := (Scope.of_resolve hchoice).1
  cases harray : choice.type with
  | array elements =>
      rw [harray] at htype
      have helements := hstart.repeatable.elements_discerns htypes htype
      simp only [gives_bind_pure_iff before fun _ _ hsame => WireValue.list.inj hsame]
      constructor
      · rintro ⟨_, rfl, storeds, rfl, hgives⟩
        exact ⟨storeds, rfl, (itemsSaveAs_of_yields hstart hsave helements (hgives before)).2⟩
      · rintro ⟨storeds, rfl, hsaves⟩
        exact ⟨_, rfl, storeds, rfl, hsaves place 0⟩
  | _ => rfl

/-- A scalar or set is saved as it is converted. -/
theorem savesAs_leaf_iff (before : σ) (place : Place) (hlist : ∀ items, value ≠ .list items)
    (hmap : ∀ fields, value ≠ .map fields) :
    value.SavesAs writing (depth + 1) scope types stored ↔
      value.ConvertsTo scope place types stored := by
  rw [savesAs_iff_gives hstart hsave htypes place]
  cases hdefined : value.isUndefined with
  | true =>
      obtain rfl := eq_undefined hdefined
      simp only [ConvertsTo, Value.writer, Gives, yields_pure, and_true]
      exact ⟨fun hsame _ => hsame, fun hsame => hsame default⟩
  | false =>
      have hwriter : value.writer (Value.madeDraft writing depth) writing scope place types =
          value.writeChosen writing scope place types fun _ => none := by
        cases value with
        | undefined => cases hdefined
        | list items => exact absurd rfl (hlist items)
        | map fields => exact absurd rfl (hmap fields)
        | _ => simp [Value.writer]
      rw [hwriter, gives_writeChosen_iff hsave before,
        convertsTo_leaf_iff before hdefined hlist hmap]

end Everywhere

/-- A text joined from others is stored as it is, at every depth. -/
theorem savesAs_joined_iff (before : σ) (hsave : writing.options = .save) {sources : List String}
    {separator text : String} :
    (Value.string text).SavesAs writing depth scope [.combine sources separator] stored ↔
      stored = some (.string text) := by
  have hwrite : ∀ place, ((Value.string text).madeDraft writing depth).write scope place
      [.combine sources separator] = (Value.string text).writeChosen writing scope place
        [.combine sources separator] fun _ => none := by
    intro place
    cases depth with
    | zero => rfl
    | succ depth => simp [madeDraft, writerTo_eq, Value.writer]
  have hchoice : ∀ place, scope.resolve place [.combine sources separator] (.string text) =
      .ok ⟨.combine sources separator, ⟨scope, place, .combine sources separator⟩⟩ := by
    intro place
    refine (Scope.toldApart_singleton (by simp)).resolve_iff.mpr
      ⟨Scope.mem_choices.mpr ⟨by simp, ?_⟩, ?_⟩
    · exact List.mem_singleton_self _
    · simp [Value.score, scalarScore, Score.ofBool]
  have hgives : ∀ place, ((Value.string text).writeChosen writing scope place
      [.combine sources separator] fun _ => none).Gives stored ↔ stored = some (.string text) := by
    intro place
    rw [gives_writeChosen_iff hsave before]
    simp [hchoice, encodeAs, Reading.encodeScalar, natural?, eq_comm]
  simp only [SavesAs, hwrite, hgives]
  exact ⟨fun hsame => hsame .root, fun hsame _ => hsame⟩

end Value

/-! ## Attributes -/

/-- What is stored for an attribute whose value is a replacement at some depth. -/
def AttributeOf.StoresAs (field : Attribute σ) (writing : Writing) (depth : Nat) (scope : Scope σ)
    (value : Option Value) (stored : Option WireValue) : Prop :=
  match value.filter fun value => !value.isUndefined with
  | none => field.required = false ∧ stored = none
  | some value => value.SavesAs writing depth scope field.types stored

namespace AttributeOf

variable {field : Attribute σ} {writing : Writing} {depth : Nat} {scope : Scope σ} {value : Value}
  {stored : Option WireValue}

theorem storesAs_some_iff (hdefined : value.isUndefined = false) :
    field.StoresAs writing depth scope (some value) stored ↔
      value.SavesAs writing depth scope field.types stored := by
  simp [StoresAs, Option.filter_some, hdefined]

end AttributeOf

namespace SchemaOf

/-- The value that an attribute has for the attributes that are combined from it, if it is not
undefined: a timestamp or default, or else what the document has for it. -/
def savedValue? (schema : Schema σ) (now : Instant) (document : Document) (name : String) :
    Option Value :=
  (schema.attribute? name).bind fun field =>
    ((schema.replacement? now field (document.get? name)).or (document.get? name)).filter
      fun value => !value.isUndefined

/-- What is stored for a combined attribute.  It is joined from the sources that have a value, and
not stored if none has one.  A value of its own is accepted if no source lacks one. -/
structure StoresJoined (schema : Schema σ) (now : Instant) (document : Document)
    (field : Attribute σ) (sources : List String) (separator : String)
    (stored : Option WireValue) : Prop where
  supplied : (schema.savedValue? now document field.name).isSome = true →
    ∀ source ∈ sources, (schema.savedValue? now document source).isSome = true
  stored : match stored with
    | none => (∀ source ∈ sources, schema.savedValue? now document source = none) ∧
        field.required = false
    | some stored => (∃ source ∈ sources, (schema.savedValue? now document source).isSome = true) ∧
        ∃ text, Drafts.Joins (sources.filterMap (schema.savedValue? now document)) separator text ∧
          stored = .string text

end SchemaOf

/-- A document under stored names is saved as an item, in a place where replacements have some
depth. -/
structure SchemaOf.SavesAs (schema : Schema σ) (writing : Writing) (depth : Nat) (scope : Scope σ)
    (document : Document) (item : Item) : Prop where
  sorted : Fields.Sorted item
  plain : ∀ field ∈ schema.attributes, field.combine? = none →
    match schema.replacement? writing.now field (document.get? field.name) with
    | some value => field.StoresAs writing depth scope (some value) (item.get? field.name)
    | none => field.StoresAs writing (depth + 1) scope (document.get? field.name)
        (item.get? field.name)
  combined : ∀ field ∈ schema.attributes, ∀ sources separator,
    field.combine? = some (sources, separator) →
      schema.StoresJoined writing.now document field sources separator (item.get? field.name)
  declared : ∀ name ∉ schema.attributes.map AttributeOf.name, item.get? name = none

namespace Drafts

variable {start scope : Scope σ} {schema : Schema σ} {writing : Writing} {depth : Nat}
  {field : Attribute σ} {document : Document} {place : Place} {stored : Option WireValue}

theorem stores_madeDraft_iff (hstart : start.Declarative) (hsave : writing.options = .save)
    (htypes : start.Discerns scope field.types) {value : Option Value} :
    Stores ⟨scope, place, schema⟩ field (value.map (Value.madeDraft writing depth)) stored ↔
      field.StoresAs writing depth scope value stored := by
  unfold AttributeOf.StoresAs
  cases hvalue : value.filter fun value => !value.isUndefined with
  | none =>
      rw [Option.filter_eq_none_iff] at hvalue
      constructor
      · intro hstores
        generalize hfinal : value.map (Value.madeDraft writing depth) = final at hstores
        cases hstores with
        | absent _ hoptional => exact ⟨hoptional, rfl⟩
        | written hdefined =>
            obtain ⟨given, rfl, rfl⟩ := Option.map_eq_some_iff.mp hfinal
            simp [Value.madeDraft_value] at hdefined
            simp [hdefined] at hvalue
      · rintro ⟨hoptional, rfl⟩
        refine .absent (fun draft hdraft => ?_) hoptional
        obtain ⟨given, rfl, rfl⟩ := Option.map_eq_some_iff.mp hdraft
        simpa [Value.madeDraft_value] using hvalue
  | some given =>
      obtain ⟨rfl, hdefined⟩ := Option.filter_eq_some_iff.mp hvalue
      have hgiven : (Value.madeDraft writing depth given : Draft σ).value.isUndefined = false := by
        simpa [Value.madeDraft_value] using hdefined
      simp only [Option.map_some]
      constructor
      · intro hstores
        cases hstores with
        | absent hnone => simp [hnone _ rfl] at hgiven
        | written _ hwrite => exact Value.savesAs_of_gives hstart hsave htypes hwrite
      · exact fun hsaves => .written hgiven (hsaves _)

/-- The fields of a document as they are before timestamps are set. -/
def ofFields (writing : Writing) (depth : Nat) (document : Document) : Fields (Draft σ) :=
  document.mapValues (Value.madeDraft writing (depth + 1))

theorem normalize_madeDraft (writing : Writing) (depth : Nat) (schema : Schema σ)
    (fields : List (String × Value)) :
    normalize schema (Value.drafts (Value.madeDraft writing depth) writing fields) =
      ofFields writing depth (schema.normalized fields) := by
  have hdraft : (fun value => ⟨value, value.writer (Value.madeDraft writing depth) writing⟩) =
      (Value.madeDraft writing (depth + 1) : Value → Draft σ) :=
    funext fun value => by rw [Value.madeDraft, Value.writerTo_eq]
  rw [normalize_drafts, hdraft, ofFields]

theorem prepared_ofFields (now : Instant) (field : Attribute σ) (given : Option Value) :
    prepared (Value.madeDraft writing depth) now schema field
        (given.map (Value.madeDraft writing (depth + 1))) =
      ((schema.replacement? now field given).map (Value.madeDraft writing depth)).or
        (given.map (Value.madeDraft writing (depth + 1))) := by
  rw [prepared, Option.map_map]
  simp [Function.comp_def, Value.madeDraft_value]

/-- The value of an attribute when attributes are combined. -/
theorem defined?_prepare (hschema : schema.WellFormed) (now : Instant)
    (hfield : field ∈ schema.attributes) :
    (defined? (prepare (Value.madeDraft writing depth) now schema (ofFields writing depth document))
        field.name).map Draft.value = schema.savedValue? now document field.name := by
  rw [defined?, get?_prepare hschema hfield, ofFields, Fields.get?_mapValues, prepared_ofFields,
    SchemaOf.savedValue?, hschema.attribute?_name hfield, Option.bind_some]
  cases schema.replacement? now field (document.get? field.name) with
  | some value =>
      cases hvalue : value.isUndefined <;>
        simp [Option.filter_some, Value.madeDraft_value, hvalue]
  | none =>
      cases document.get? field.name with
      | none => rfl
      | some value =>
          cases hvalue : value.isUndefined <;>
            simp [Option.filter_some, Value.madeDraft_value, hvalue]

section Sources

variable (hschema : schema.WellFormed) (hfield : field ∈ schema.attributes) {sources : List String}
  {separator : String} (hcombine : field.combine? = some (sources, separator))

include hschema hfield hcombine

/-- The values of the sources. -/
theorem present_prepare (now : Instant) :
    present (prepare (Value.madeDraft writing depth : Value → Draft σ) now schema
        (ofFields writing depth document)) sources =
      sources.filterMap (schema.savedValue? now document) :=
  List.filterMap_congr fun source hsource => by
    obtain ⟨other, hother, rfl, -⟩ :=
      hschema.plainSources field hfield sources separator hcombine source hsource
    exact defined?_prepare hschema now hother

/-- Whether a combined attribute lacks a source although it has a value itself. -/
theorem supplied_prepare_iff (now : Instant) {drafts : Fields (Draft σ)}
    (hdrafts : drafts = prepare (Value.madeDraft writing depth) now schema
      (ofFields writing depth document)) :
    ((defined? drafts field.name).isSome = true →
        ∀ source ∈ sources, (defined? drafts source).isSome = true) ↔
      ((schema.savedValue? now document field.name).isSome = true →
        ∀ source ∈ sources, (schema.savedValue? now document source).isSome = true) := by
  have hsome : ∀ {other}, other ∈ schema.attributes → (defined? drafts other.name).isSome =
      (schema.savedValue? now document other.name).isSome := fun hother => by
    rw [hdrafts, ← defined?_prepare hschema now hother, Option.isSome_map]
  rw [hsome hfield]
  refine imp_congr_right fun _ => forall₂_congr fun source hsource => ?_
  obtain ⟨other, hother, rfl, -⟩ :=
    hschema.plainSources field hfield sources separator hcombine source hsource
  rw [hsome hother]

end Sources

section Documents

variable (hstart : start.Declarative) (hsave : writing.options = .save)
  (hreaches : start.Reaches scope schema)

include hstart hsave hreaches

/-- An attribute that is not combined is stored as its replacement, or else as what is given. -/
theorem stores_plain_iff (hfield : field ∈ schema.attributes) (hplain : field.combine? = none) :
    (∃ final, Combines (Value.madeDraft writing depth) (prepare (Value.madeDraft writing depth)
        writing.now schema (ofFields writing depth document)) field final ∧
      Stores ⟨scope, place, schema⟩ field final stored) ↔
    match schema.replacement? writing.now field (document.get? field.name) with
    | some value => field.StoresAs writing depth scope (some value) stored
    | none => field.StoresAs writing (depth + 1) scope (document.get? field.name) stored := by
  have hschema := hstart.wellFormed scope schema hreaches
  have htypes := hstart.repeatable.attribute_discerns hreaches hfield
  have hfinal : (∃ final, Combines (Value.madeDraft writing depth)
      (prepare (Value.madeDraft writing depth) writing.now schema
        (ofFields writing depth document)) field final ∧
      Stores ⟨scope, place, schema⟩ field final stored) ↔
      Stores ⟨scope, place, schema⟩ field ((prepare (Value.madeDraft writing depth) writing.now
        schema (ofFields writing depth document)).get? field.name) stored := by
    constructor
    · rintro ⟨final, hcombines, hstores⟩
      rwa [hcombines.unique (.plain hplain)] at hstores
    · exact fun hstores => ⟨_, .plain hplain, hstores⟩
  rw [hfinal, get?_prepare hschema hfield, ofFields, Fields.get?_mapValues, prepared_ofFields]
  cases schema.replacement? writing.now field (document.get? field.name) with
  | some value =>
      rw [Option.map_some, Option.some_or, ← Option.map_some]
      exact stores_madeDraft_iff hstart hsave htypes
  | none => exact stores_madeDraft_iff hstart hsave htypes

/-- A combined attribute is stored as its sources make it. -/
theorem stores_combined_iff (before : σ) (hfield : field ∈ schema.attributes)
    {sources : List String} {separator : String}
    (hcombine : field.combine? = some (sources, separator)) :
    (∃ final, Combines (Value.madeDraft writing depth) (prepare (Value.madeDraft writing depth)
        writing.now schema (ofFields writing depth document)) field final ∧
      Stores ⟨scope, place, schema⟩ field final stored) ↔
    schema.StoresJoined writing.now document field sources separator stored := by
  have hschema := hstart.wellFormed scope schema hreaches
  have htypes := hstart.repeatable.attribute_discerns hreaches hfield
  have hpresent := @present_prepare σ schema writing depth field document hschema hfield sources
    separator hcombine writing.now
  have hsupplied := supplied_prepare_iff hschema hfield hcombine writing.now
    (rfl : prepare (Value.madeDraft writing depth : Value → Draft σ) writing.now schema
      (ofFields writing depth document) = _)
  have hjoined : ∀ text, Stores ⟨scope, place, schema⟩ field
      (some (Value.madeDraft writing depth (.string text))) stored ↔
        stored = some (.string text) := fun text => by
    rw [← Option.map_some, stores_madeDraft_iff hstart hsave htypes,
      AttributeOf.storesAs_some_iff rfl, AttributeOf.types_of_combine? hcombine]
    exact Value.savesAs_joined_iff before hsave
  constructor
  · rintro ⟨final, hcombines, hstores⟩
    cases hcombines with
    | plain hplain =>
        rw [hplain] at hcombine
        cases hcombine
    | empty hagain hempty hgiven =>
        obtain ⟨rfl, rfl⟩ := Prod.mk.inj (Option.some.inj (hcombine.symm.trans hagain))
        rw [hpresent, List.filterMap_eq_nil_iff] at hempty
        cases hstores with
        | absent _ hoptional =>
            exact ⟨hsupplied.mp fun hown => by simp [hgiven hown], hempty, hoptional⟩
    | joined hagain hsome hgiven htext =>
        obtain ⟨rfl, rfl⟩ := Prod.mk.inj (Option.some.inj (hcombine.symm.trans hagain))
        obtain rfl := (hjoined _).mp hstores
        rw [hpresent] at hsome htext
        refine ⟨hsupplied.mp hgiven, ?_, _, htext, rfl⟩
        simpa [List.filterMap_eq_nil_iff, Option.ne_none_iff_isSome] using hsome
  · rintro ⟨hgiven, hstored⟩
    cases stored with
    | none =>
        obtain ⟨hempty, hoptional⟩ := hstored
        refine ⟨none, .empty hcombine ?_ fun hown => ?_, .absent (by simp) hoptional⟩
        · rwa [hpresent, List.filterMap_eq_nil_iff]
        · -- every source has a value and none has one
          rw [List.eq_nil_iff_forall_not_mem]
          intro source hsource
          rw [← Option.isSome_map, defined?_prepare hschema writing.now hfield] at hown
          simpa [hempty source hsource] using hgiven hown source hsource
    | some stored =>
        obtain ⟨⟨source, hsource, hvalue⟩, text, htext, rfl⟩ := hstored
        refine ⟨_, .joined hcombine ?_ (hsupplied.mpr hgiven) (hpresent ▸ htext),
          (hjoined text).mpr rfl⟩
        rw [hpresent]
        intro hempty
        simp [List.filterMap_eq_nil_iff.mp hempty source hsource] at hvalue

/-- Drafts are saved as the values that they stand for. -/
theorem saves_iff (before : σ) {fields : List (String × Value)} {item : Item} :
    Saves (Value.madeDraft writing depth) writing ⟨scope, place, schema⟩
        (Value.drafts (Value.madeDraft writing depth) writing fields) item ↔
      schema.SavesAs writing depth scope (schema.normalized fields) item := by
  constructor
  · intro hsaves
    have hattributes := hsaves.attributes
    rw [normalize_madeDraft] at hattributes
    exact
      { sorted := hsaves.sorted
        plain := fun field hfield hplain =>
          (stores_plain_iff hstart hsave hreaches hfield hplain).mp (hattributes field hfield)
        combined := fun field hfield sources separator hcombine =>
          (stores_combined_iff hstart hsave hreaches before hfield hcombine).mp
            (hattributes field hfield)
        declared := hsaves.declared }
  · intro hsaves
    refine ⟨hsaves.sorted, fun field hfield => ?_, hsaves.declared⟩
    rw [normalize_madeDraft]
    cases hcombine : field.combine? with
    | none =>
        exact (stores_plain_iff hstart hsave hreaches hfield hcombine).mpr
          (hsaves.plain field hfield hcombine)
    | some sourced =>
        obtain ⟨sources, separator⟩ := sourced
        exact (stores_combined_iff hstart hsave hreaches before hfield hcombine).mpr
          (hsaves.combined field hfield sources separator hcombine)

end Documents

end Drafts

/-! ## Documents -/

section Documents

variable {start scope : Scope σ} {schema : Schema σ} {writing : Writing} {depth : Nat}
  {place : Place} {fields : List (String × Value)} {item : Item}
  (hstart : start.Declarative) (hsave : writing.options = .save)

include hstart hsave

/-- What the stages of saving give for a document, in one run. -/
theorem SchemaOf.savesAs_of_yields (hreaches : start.Reaches scope schema) {before after : σ}
    (hrun : Yields (Drafts.write (Value.madeDraft writing depth) writing ⟨scope, place, schema⟩
      (Value.drafts (Value.madeDraft writing depth) writing fields)) before item after) :
    before = after ∧ schema.SavesAs writing depth scope (schema.normalized fields) item := by
  have hmake : Draft.Remade start (Value.madeDraft writing depth) (Value.madeDraft writing depth) :=
    ⟨Value.madeDraft_value writing depth, Value.follows_madeDraft hstart hsave le_rfl⟩
  obtain ⟨rfl, hsaves, -⟩ := Drafts.saves_elsewhere hmake hstart hsave hreaches
    (Value.follows_drafts hstart hsave hmake fields) place place hrun
  exact ⟨rfl, (Drafts.saves_iff hstart hsave hreaches before).mp hsaves⟩

theorem SchemaOf.SavesAs.gives (hreaches : start.Reaches scope schema) (before : σ)
    (hsaves : schema.SavesAs writing depth scope (schema.normalized fields) item) :
    (Drafts.write (Value.madeDraft writing depth) writing ⟨scope, place, schema⟩
      (Value.drafts (Value.madeDraft writing depth) writing fields)).Gives item :=
  ((Drafts.saves_iff hstart hsave hreaches before).mpr hsaves).gives hsave
    (Value.madeDraft_value writing depth) (hstart.wellFormed scope schema hreaches)
    (hstart.literal scope schema hreaches) (hstart.root_disabled hreaches)

/-- A document is saved attribute by attribute if its type leads into it. -/
theorem Value.savesAs_map_iff {types : List (CandidateType σ)} (htypes : start.Discerns scope types)
    (before : σ) (place : Place) {stored : Option WireValue} :
    (Value.map fields).SavesAs writing (depth + 1) scope types stored ↔
      ∃ choice, scope.resolve place types (.map fields) = .ok choice ∧
        match scope.enter? place choice.type with
        | some frame => ∃ item, stored = some (.map item) ∧
            frame.schema.SavesAs writing depth frame.scope (frame.schema.normalized fields) item
        | none => (Value.map fields).encodeAs choice.reading = .ok stored := by
  rw [Value.savesAs_iff_gives hstart hsave htypes place]
  simp only [Value.writer]
  rw [Value.gives_writeChosen_iff hsave before]
  refine exists_congr fun choice => and_congr_right fun hchoice => ?_
  have htype := (Scope.of_resolve hchoice).1
  cases henter : scope.enter? place choice.type with
  | none => rfl
  | some frame =>
      have hreaches := htypes.reaches htype henter
      simp only [Option.map_some, gives_bind_pure_iff before fun _ _ hsame => WireValue.map.inj hsame]
      constructor
      · rintro ⟨_, rfl, item, rfl, hgives⟩
        exact ⟨item, rfl, (SchemaOf.savesAs_of_yields hstart hsave hreaches (hgives before)).2⟩
      · rintro ⟨item, rfl, hsaves⟩
        exact ⟨_, rfl, item, rfl, hsaves.gives hstart hsave hreaches before⟩

end Documents

end ItemMapper
