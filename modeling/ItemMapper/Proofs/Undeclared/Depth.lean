import ItemMapper.Mapper
import ItemMapper.Proofs.Marshal.Throughout
import ItemMapper.Proofs.Required.Documents
import ItemMapper.Proofs.Schema.Patterns
import ItemMapper.Proofs.Undeclared.Leaves

/-!
# How deep patterns reach

A pattern without `**` keeps what stands as deep as it has segments, and `*` stands for one level
only.  Depth is counted from the document whose schema the patterns belong to, which a reference
makes a new one.  What patterns see is a text that is split at dots, so the count is right as long as
no key on the way has a dot, and the text begins with a key: the place is then told key by key
(`Place.Legible`).

What is kept of an undeclared value was reached by steps that are all matched
(`Value.exists_full_of_keep?`).  The steps have the keys of the stored leaf; only positions in lists
may have moved.  `Frame.KeepsAtDepth` says what follows for one document, however it is written, and
`Frame.throughout_of_yields` takes it to the documents inside.
-/

namespace ItemMapper

variable {σ : Type}

open Pipeline

/-! ## Patterns of a single length -/

namespace PathMatch

variable {head : String} {run pattern path : List String}

theorem Takes.length_eq (htakes : Takes head run) (hhead : head ≠ "**") : run.length = 1 := by
  cases htakes with
  | literal => rfl
  | one => rfl
  | many => exact absurd rfl hhead

/-- Without `**` each segment of a pattern takes one segment of the path. -/
theorem Aligned.length_eq (haligned : Aligned pattern path) (hsingle : "**" ∉ pattern) :
    pattern.length = path.length := by
  induction pattern generalizing path with
  | nil => rw [aligned_nil_iff.mp haligned]
  | cons head rest ih =>
      rw [List.mem_cons, not_or] at hsingle
      obtain ⟨run, below, hhead, hrest, rfl⟩ := aligned_cons_iff.mp haligned
      rw [List.length_cons, List.length_append, hhead.length_eq (Ne.symm hsingle.1), ih hrest hsingle.2,
        Nat.add_comm]

end PathMatch

namespace KeepUnknown

/-- The patterns by which undeclared data is kept. -/
def patterns : KeepUnknown → List String
  | .disabled | .everything => []
  | .matching patterns => patterns

/-- Not everything is kept, and no pattern stands for paths of several lengths. -/
def SingleLevel (keep : KeepUnknown) : Prop :=
  keep ≠ .everything ∧ ∀ pattern ∈ keep.patterns, "**" ∉ Dotted.split pattern

theorem singleLevel_matching {patterns : List String}
    (hpatterns : ∀ pattern ∈ patterns, "**" ∉ Dotted.split pattern) :
    (matching patterns).SingleLevel :=
  ⟨nofun, hpatterns⟩

theorem SingleLevel.exists_pattern {keep : KeepUnknown} (hsingle : keep.SingleLevel)
    {segments : List String} (hfull : keep.matchSegments segments = .full) :
    ∃ pattern ∈ keep.patterns, (Dotted.split pattern).length = segments.length := by
  cases keep with
  | disabled => cases hfull
  | everything => exact absurd rfl hsingle.1
  | matching patterns =>
      rw [matchSegments, foldl_closer_eq_full_iff] at hfull
      obtain hnone | ⟨pattern, hpattern, hmatch⟩ := hfull
      · cases hnone
      · have haligned := PathMatch.ofSegments_eq_full_iff.mp hmatch
        exact ⟨pattern, hpattern, haligned.length_eq (hsingle.2 pattern hpattern)⟩

end KeepUnknown

/-! ## Legible places -/

theorem Segment.index_text (position : Nat) :
    (index position).text ≠ "" ∧ '.' ∉ (index position).text.toList := by
  have htext : (index position).text.toList = Nat.toDigits 10 position := by
    simp [text, Nat.toString_eq_repr, Nat.repr]
  constructor
  · intro hempty
    rw [hempty] at htext
    exact Nat.toDigits_ne_nil htext.symm
  · intro hdot
    rw [htext] at hdot
    exact absurd (Decimal.isDigit_toDigits _ hdot) (by decide)

namespace Place

variable {place : Place}

/-- The place that steps lead to from here. -/
def along (place : Place) (steps : List Segment) : Place :=
  ⟨place.outer, place.inner ++ steps.map Segment.text⟩

theorem along_nil (place : Place) : place.along [] = place := by
  simp [along]

theorem child_along (place : Place) (key : String) (steps : List Segment) :
    (place.child key).along steps = place.along (.name key :: steps) := by
  simp [along, child, Segment.text]

theorem item_along (place : Place) (index : Nat) (steps : List Segment) :
    (place.item index).along steps = place.along (.index index :: steps) := by
  simp [along, item, child, Segment.text]

/-- The keys that patterns count can be told from the text of the place: no key has a dot, and the
first one leaves a trace. -/
structure Legible (place : Place) : Prop where
  undotted : ∀ key ∈ place.inner, '.' ∉ key.toList
  starts : keysText place.outer ≠ "" ∨ place.inner.head? ≠ some ""

theorem Legible.segments_eq (hlegible : place.Legible) (hinner : place.inner ≠ []) :
    place.segments = place.inner := by
  have hjoined : place.segments = Dotted.split (Dotted.join place.inner) := by
    rw [segments]
    by_cases houter : keysText place.outer = ""
    · have hstarts := hlegible.starts.resolve_left (not_not_intro houter)
      have htext : place.text = keysText place.inner := by
        rw [text, keysText, List.foldl_append, ← keysText, houter, keysText]
      rw [if_pos houter, htext, keysText_eq_join hstarts]
    · rw [if_neg houter]
  rw [hjoined, Dotted.split_join hinner hlegible.undotted]

/-- Where keys are the same, positions do not matter. -/
theorem Legible.of_keys {path steps : List Segment} (hlegible : (place.along path).Legible)
    (hkeys : steps.map Segment.key? = path.map Segment.key?) : (place.along steps).Legible := by
  have hname : ∀ key, Segment.name key ∈ steps → Segment.name key ∈ path := by
    intro key hmem
    have hkey : some key ∈ path.map Segment.key? := hkeys ▸ List.mem_map_of_mem hmem
    obtain ⟨other, hother, hsame⟩ := List.mem_map.mp hkey
    cases other with
    | name text => rwa [Option.some.inj hsame] at hother
    | index position => cases hsame
  constructor
  · intro text htext
    rcases List.mem_append.mp htext with houter | hstep
    · exact hlegible.undotted text (List.mem_append_left _ houter)
    · obtain ⟨step, hmem, rfl⟩ := List.mem_map.mp hstep
      cases step with
      | name key =>
          exact hlegible.undotted key (List.mem_append_right _ (List.mem_map_of_mem (hname key hmem)))
      | index position => exact (Segment.index_text position).2
  · refine hlegible.starts.imp id fun hstarts => ?_
    cases hinner : place.inner with
    | cons key rest => simpa [along, hinner] using hstarts
    | nil =>
        rcases steps with _ | ⟨step, steps⟩
        · simp [along, hinner]
        · cases step with
          | index position => simpa [along, hinner] using (Segment.index_text position).1
          | name key =>
              rcases path with _ | ⟨other, path⟩
              · cases hkeys
              · cases other with
                | index position => cases (List.cons.inj hkeys).1
                | name text =>
                    obtain rfl := Option.some.inj (List.cons.inj hkeys).1
                    simpa [along, hinner, Segment.text] using hstarts

end Place

/-! ## Kept leaves -/

/-- Steps that the patterns match lead to where a leaf was, and the leaf is at the same keys below a
path. -/
def Scope.KeptAlong (scope : Scope σ) (place : Place) (path leaf : List Segment) : Prop :=
  ∃ more steps, leaf = path ++ more ∧ steps.map Segment.key? = more.map Segment.key? ∧
    scope.unknownMatch (place.along steps) = .full

theorem Scope.KeptAlong.of_child {scope : Scope σ} {place : Place} {path leaf : List Segment}
    {key : String} (hkept : scope.KeptAlong (place.child key) (path ++ [.name key]) leaf) :
    scope.KeptAlong place path leaf := by
  obtain ⟨more, steps, rfl, hkeys, hfull⟩ := hkept
  refine ⟨.name key :: more, .name key :: steps, by simp, by simp [hkeys], ?_⟩
  rwa [← Place.child_along]

theorem Scope.KeptAlong.of_item {scope : Scope σ} {place : Place} {path leaf : List Segment}
    {index position : Nat}
    (hkept : scope.KeptAlong (place.item index) (path ++ [.index position]) leaf) :
    scope.KeptAlong place path leaf := by
  obtain ⟨more, steps, rfl, hkeys, hfull⟩ := hkept
  refine ⟨.index position :: more, .index index :: steps, by simp, by simp [hkeys, Segment.key?], ?_⟩
  rwa [← Place.item_along]

/-- What is stored of a scalar was matched itself. -/
theorem Scope.keptAlong_scalar {scope : Scope σ} {place : Place} {path : List Segment}
    {kept : Option WireValue} {stored : WireValue}
    (hkeep : (if scope.unknownMatch place = .full then kept else none) = some stored)
    {leaves : List (List Segment × WireValue)}
    (hleaves : kept = some stored → ∀ leaf ∈ leaves, leaf.1 = path) :
    ∀ leaf ∈ leaves, scope.KeptAlong place path leaf.1 := by
  intro leaf hleaf
  split at hkeep
  · next hfull =>
      refine ⟨[], [], by simp [hleaves hkeep leaf hleaf], rfl, ?_⟩
      rwa [Place.along_nil]
  · cases hkeep

mutual

theorem Value.exists_full_of_keep? (scope : Scope σ) : ∀ (value : Value) {place : Place}
    {path : List Segment} {stored : WireValue}, value.keep? scope place = some stored →
      ∀ leaf ∈ stored.leaves path, scope.KeptAlong place path leaf.1
  | .map fields, place, path, stored, hkeep => by
      simp only [Value.keep?] at hkeep
      split at hkeep
      · obtain rfl := Option.some.inj hkeep
        exact Value.exists_full_of_keepFields scope fields
      · cases hkeep
  | .list items, place, path, stored, hkeep => by
      simp only [Value.keep?] at hkeep
      split at hkeep
      · obtain rfl := Option.some.inj hkeep
        exact Value.exists_full_of_keepItems scope items 0 0
      · cases hkeep
  | .set members, place, path, stored, hkeep => by
      refine Scope.keptAlong_scalar hkeep fun hnatural leaf hleaf => ?_
      obtain ⟨_, hencodes⟩ := Value.encodes_of_natural? hnatural
      obtain ⟨_, _, hmembers, -⟩ := hencodes.members
      rw [WireValue.leaves_of_setMembers? hmembers] at hleaf
      cases hleaf
  | .undefined, place, path, stored, hkeep => 
      Scope.keptAlong_scalar hkeep fun hnone => by cases hnone
  | .null, _, _, _, hkeep | .bool _, _, _, _, hkeep | .number _, _, _, _, hkeep
  | .string _, _, _, _, hkeep | .binary _, _, _, _, hkeep | .date _, _, _, _, hkeep =>
      Scope.keptAlong_scalar hkeep fun hnatural leaf hleaf => by
        obtain rfl := Option.some.inj hnatural
        exact congrArg Prod.fst (List.mem_singleton.mp hleaf)

theorem Value.exists_full_of_keepItems (scope : Scope σ) : ∀ (items : List Value) {place : Place}
    {path : List Segment} (index position : Nat),
      ∀ leaf ∈ WireValue.leavesOfItems path position (Value.keepItems scope place index items),
        scope.KeptAlong place path leaf.1
  | [], _, _, _, _ => by simp [Value.keepItems, WireValue.leavesOfItems]
  | item :: rest, place, path, index, position => by
      rw [Value.keepItems]
      cases hkeep : item.keep? scope (place.item index) with
      | none => exact Value.exists_full_of_keepItems scope rest (index + 1) position
      | some stored =>
          intro leaf hleaf
          rcases List.mem_append.mp hleaf with hfirst | hrest
          · exact (Value.exists_full_of_keep? scope item hkeep leaf hfirst).of_item
          · exact Value.exists_full_of_keepItems scope rest (index + 1) (position + 1) leaf hrest

theorem Value.exists_full_of_keepFields (scope : Scope σ) : ∀ (fields : List (String × Value))
    {place : Place} {path : List Segment},
      ∀ leaf ∈ WireValue.leavesOfFields path (Value.keepFields scope place fields),
        scope.KeptAlong place path leaf.1
  | [], _, _ => by simp [Value.keepFields, WireValue.leavesOfFields]
  | (key, value) :: rest, place, path => by
      rw [Value.keepFields]
      cases hkeep : value.keep? scope (place.child key) with
      | none => exact Value.exists_full_of_keepFields scope rest
      | some stored =>
          intro leaf hleaf
          rcases List.mem_append.mp hleaf with hfirst | hrest
          · exact (Value.exists_full_of_keep? scope value hkeep leaf hfirst).of_child
          · exact Value.exists_full_of_keepFields scope rest leaf hrest

end

/-! ## One document -/

namespace Frame

variable {frame : Frame σ} {key : String} {stored : WireValue}

/-- An undeclared scalar in an item stands as deep as some pattern has segments, counted from the
document whose schema the patterns belong to. -/
def KeepsAtDepth (frame : Frame σ) (item : Item) : Prop :=
  frame.scope.root.keepUnknown.SingleLevel → ∀ key stored, frame.schema.attribute? key = none →
    item.get? key = some stored → ∀ leaf ∈ stored.leaves [.name key],
      (frame.place.along leaf.1).Legible →
        ∃ pattern ∈ frame.scope.root.keepUnknown.patterns,
          (Dotted.split pattern).length = frame.place.inner.length + leaf.1.length

/-- What is kept under a key is kept at the depth of a pattern. -/
theorem exists_pattern_of_keep? {value : Value} (hsingle : frame.scope.root.keepUnknown.SingleLevel)
    (hkeep : value.keep? frame.scope (frame.place.child key) = some stored) :
    ∀ leaf ∈ stored.leaves [.name key], (frame.place.along leaf.1).Legible →
      ∃ pattern ∈ frame.scope.root.keepUnknown.patterns,
        (Dotted.split pattern).length = frame.place.inner.length + leaf.1.length := by
  intro leaf hleaf hlegible
  obtain ⟨more, steps, hpath, hkeys, hfull⟩ :=
    Value.exists_full_of_keep? frame.scope value hkeep leaf hleaf
  rw [List.singleton_append] at hpath
  rw [Place.child_along] at hfull
  have hsame : (Segment.name key :: steps).map Segment.key? = leaf.1.map Segment.key? := by
    rw [hpath, List.map_cons, List.map_cons, hkeys]
  have hcounted := hlegible.of_keys hsame
  obtain ⟨pattern, hpattern, hlength⟩ := hsingle.exists_pattern hfull
  refine ⟨pattern, hpattern, ?_⟩
  have hsteps := congrArg List.length hsame
  rw [List.length_map, List.length_map] at hsteps
  rw [hlength, hcounted.segments_eq (by simp [Place.along]), ← hsteps, Place.along,
    List.length_append, List.length_map]

/-- However a document is settled, undeclared data is kept of its fields alone. -/
theorem Stores.keepsAtDepth {writing : Writing} {fields : List (String × Value)}
    {settled : Document} {item : Item} (hschema : frame.schema.WellFormed)
    (hstores : frame.Stores writing fields settled item) : frame.KeepsAtDepth item := by
  obtain ⟨_, _, drafts, _, _, -, hencode, -⟩ := hstores
  intro hsingle key stored hundeclared hstored
  obtain ⟨entries, _, hentries, hitem⟩ := yields_bind.mp hencode
  obtain ⟨rfl, -⟩ := yields_pure.mp hitem
  rcases List.mem_append.mp (Fields.mem_of_get?_ofList hstored) with hdeclared | hunknown
  · obtain ⟨_, hentry, rfl⟩ := List.mem_filterMap.mp hdeclared
    obtain ⟨field, hfield, hname⟩ := exists_related_right
      (hentries.forall₂_mapM fun _ _ _ _ => Drafts.name_of_encodeAttribute) hentry
    have hsame : key = field.name := hname _ rfl
    rw [hsame, hschema.attribute?_name hfield] at hundeclared
    cases hundeclared
  · obtain ⟨given, -, hkept⟩ := List.mem_filterMap.mp hunknown
    obtain ⟨_, hkeep, hsame⟩ := Option.map_eq_some_iff.mp hkept
    obtain ⟨rfl, rfl⟩ := Prod.mk.inj hsame
    exact exists_pattern_of_keep? hsingle hkeep

/-- The codec alone keeps undeclared data in the same way. -/
theorem keepsAtDepth_of_encodeFields (hschema : frame.schema.WellFormed)
    {fields : List (String × Value)} {entries : List (String × WireValue)}
    (hencode : Value.encodeFields frame fields = .ok entries) :
    frame.KeepsAtDepth (Fields.ofList entries) := by
  intro hsingle key stored hundeclared hstored
  obtain ⟨given, -, hmade⟩ :=
    (Value.of_encodeFields hencode).2 _ (Fields.mem_of_get?_ofList hstored)
  unfold encodeField at hmade
  cases hnative : frame.schema.nativeAttribute? given.1 with
  | none =>
      simp only [hnative, Except.ok.injEq, Option.map_eq_some_iff, Prod.mk.injEq] at hmade
      obtain ⟨_, hkeep, rfl, rfl⟩ := hmade
      exact exists_pattern_of_keep? hsingle hkeep
  | some field =>
      simp only [hnative, Except.bind_eq_ok, Except.pure_eq_ok, Option.map_eq_some_iff,
        Prod.mk.injEq] at hmade
      obtain ⟨_, -, _, -, rfl, -⟩ := hmade
      rw [hschema.attribute?_name (SchemaOf.mem_of_nativeAttribute? hnative)] at hundeclared
      cases hundeclared

end Frame

/-! ## Mappers -/

/-- Whatever the options are, undeclared scalars are kept at the depth of a pattern in all documents
of an item, counted from the document that the patterns belong to.  So they are in the documents that
the codec alone stores. -/
theorem Mapper.keeps_at_depth {mapper : Mapper σ} {writing : Writing} {document : Document}
    {before after : σ} {item : Item}
    (hschemas : ∀ scope schema, mapper.scope.Reaches scope schema → schema.WellFormed)
    (hrun : Yields (mapper.write writing document) before item after) :
    Frame.Throughout writing (fun frame _ _ item => frame.KeepsAtDepth item) mapper.scope.frame
        document item ∧
      ∀ (frame : Frame σ) fields entries, frame.schema.WellFormed →
        Value.encodeFields frame fields = .ok entries → frame.KeepsAtDepth (Fields.ofList entries) := by
  constructor
  · refine Frame.throughout_of_yields ⟨hschemas, ?_⟩ hrun
    exact fun frame fields settled item hschema hstores => hstores.keepsAtDepth hschema
  · exact fun frame fields entries hschema hencode =>
      Frame.keepsAtDepth_of_encodeFields hschema hencode

/-! ## Topics -/

/-- A topic has a title and may stand below another topic, and keeps undeclared data by some
patterns. -/
def SchemaOf.topic (patterns : List String) : Schema Unit where
  attributes := [.plain "title" [.primitive .string], .plain "parent" [.self]]
  keepUnknown := .matching patterns
  timestamps := none

/-- The mapper of the only model, which has the schema `SchemaOf.topic`. -/
def Mapper.topic (patterns : List String) : Mapper Unit :=
  ⟨⟨[⟨"Topic", .topic patterns, none⟩]⟩, ⟨"Topic", .topic patterns, none⟩⟩

theorem Scope.wellFormed_topic {patterns : List String} {scope : Scope Unit} {schema : Schema Unit}
    (hreaches : (Mapper.topic patterns).scope.Reaches scope schema) : schema.WellFormed := by
  have hclosed : (Mapper.topic patterns).scope.Closed
      (fun scope schema => scope = (Mapper.topic patterns).scope ∧ schema = .topic patterns)
      (fun scope type => scope = (Mapper.topic patterns).scope ∧
        (type = .primitive .string ∨ type = .self)) :=
    .of_noModel (by simp [Mapper.topic, Mapper.scope]) (by simp) (by simp)
      (by simp [SchemaOf.topic, AttributeOf.plain]) (by simp)
  obtain ⟨-, rfl⟩ := hclosed.of_reaches hreaches
  exact SchemaOf.wellFormed_of_build (show SchemaOf.build (SchemaOf.topic patterns).attributes
    (.matching patterns) none = .ok (.topic patterns) from rfl)

namespace Mapper

/-- The note on the parent of a topic is kept by `*`, since the parent is a topic itself. -/
theorem keeps_at_depth_topic :
    (∀ scope schema, (topic ["*"]).scope.Reaches scope schema → schema.WellFormed) ∧
      Yields ((topic ["*"]).write ⟨.plain, .epoch, 0⟩
        [("parent", .map [("note", .string "c")]), ("title", .string "a")]) ()
        [("parent", .map [("note", .string "c")]), ("title", .string "a")] () ∧
      Frame.Throughout ⟨.plain, .epoch, 0⟩ (fun frame _ _ item => frame.KeepsAtDepth item)
        (topic ["*"]).scope.frame
        [("parent", .map [("note", .string "c")]), ("title", .string "a")]
        [("parent", .map [("note", .string "c")]), ("title", .string "a")] ∧
      Value.encodeFields ⟨(topic ["*"]).scope, ⟨["parent"], []⟩, .topic ["*"]⟩
        [("note", .string "c")] = .ok [("note", .string "c")] ∧
      ∃ pattern ∈ ["*"], (Dotted.split pattern).length = 1 := by
  have hschemas : ∀ scope schema, (topic ["*"]).scope.Reaches scope schema → schema.WellFormed :=
    fun _ _ => Scope.wellFormed_topic
  have hrun : Yields ((topic ["*"]).write ⟨.plain, .epoch, 0⟩
      [("parent", .map [("note", .string "c")]), ("title", .string "a")]) ()
      [("parent", .map [("note", .string "c")]), ("title", .string "a")] () :=
    yields_of_value? (by decide +kernel)
  have hencode : Value.encodeFields ⟨(topic ["*"]).scope, ⟨["parent"], []⟩, .topic ["*"]⟩
      [("note", .string "c")] = .ok [("note", .string "c")] := rfl
  obtain ⟨hthroughout, hcodec⟩ := keeps_at_depth hschemas hrun
  refine ⟨hschemas, hrun, hthroughout, hencode, ?_⟩
  exact hcodec _ _ _ (hschemas _ _ .root) hencode (KeepUnknown.singleLevel_matching (by decide))
    "note" _ rfl rfl
    ([.name "note"], .string "c") (by decide) ⟨by decide, by decide⟩

/-- Counted from the outermost document, the note is two levels deep and kept by a pattern of one
segment.  Keys with dots, and an empty key at the beginning, are not told from other depths. -/
theorem topic_keeps_at_other_depths :
    (SchemaOf.topic ["*"]).keepUnknown.SingleLevel ∧ (SchemaOf.topic ["*.*"]).keepUnknown.SingleLevel ∧
      Yields ((topic ["*"]).write ⟨.plain, .epoch, 0⟩ [("parent", .map [("note", .string "c")])]) ()
        [("parent", .map [("note", .string "c")])] () ∧
      Yields ((topic ["*.*"]).write ⟨.plain, .epoch, 0⟩ [("seen.by", .string "c")]) ()
        [("seen.by", .string "c")] () ∧
      Yields ((topic ["*"]).write ⟨.plain, .epoch, 0⟩ [("", .map [("note", .string "c")])]) ()
        [("", .map [("note", .string "c")])] () ∧
      ([.name "parent", .name "note"], .string "c") ∈
        (WireValue.map [("parent", .map [("note", .string "c")])]).leaves [] ∧
      ([.name "seen.by"], .string "c") ∈ (WireValue.map [("seen.by", .string "c")]).leaves [] ∧
      ([.name "", .name "note"], .string "c") ∈
        (WireValue.map [("", .map [("note", .string "c")])]).leaves [] ∧
      (∀ pattern ∈ (SchemaOf.topic ["*"]).keepUnknown.patterns,
        (Dotted.split pattern).length ≠ 2) ∧
      ∀ pattern ∈ (SchemaOf.topic ["*.*"]).keepUnknown.patterns,
        (Dotted.split pattern).length ≠ 1 := by
  refine ⟨KeepUnknown.singleLevel_matching (by decide), KeepUnknown.singleLevel_matching (by decide),
    yields_of_value? (by decide +kernel), yields_of_value? (by decide +kernel),
    yields_of_value? (by decide +kernel), by decide, by decide, by decide, by decide, by decide⟩

end Mapper

end ItemMapper
