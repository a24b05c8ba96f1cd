import ItemMapper.Proofs.Spelling.Written

/-!
# What all drafts have in common

The stages of writing a document draft values again and again, but only by the one way to draft a
replacement.  What holds of the drafts of the fields and of every replacement therefore holds of all
drafts that the stages have settled in the end (`Drafts.All`, `Drafts.settle`), one lemma for each
stage.  New names are those of attributes and of timestamps (`Drafts.Names`).

The place of the document does not matter to the stages, except in the paths of their errors.  So the
same document is taken through the same drafts at any two places (`Drafts.agree_write_of`), and what is
left to compare is how the drafts are written there.
-/

namespace ItemMapper

variable {σ : Type}

open Pipeline

namespace Drafts

variable {named : String → Prop} {property : Draft σ → Prop}
  {make : Value → Draft σ} {writing : Writing} {schema : Schema σ} {drafts : Fields (Draft σ)}
  {near far : Place} {field : Attribute σ}

/-- The stages before the attributes are encoded. -/
def settle (make : Value → Draft σ) (writing : Writing) (schema : Schema σ) (place : Place)
    (fields : List (String × Draft σ)) : Pipeline σ (Fields (Draft σ)) := do
  let drafts ← schema.attributes.foldlM (fill make writing place)
    (stamp make writing schema (normalize schema fields))
  if writing.options.combine then
    Pipeline.ofExcept (schema.attributes.foldlM (combine make place) drafts)
  else pure drafts

/-- The item that settled drafts are encoded as. -/
def encode (writing : Writing) (frame : Frame σ) (drafts : Fields (Draft σ)) : Pipeline σ Item := do
  let declared ← frame.schema.attributes.mapM (encodeAttribute writing frame drafts)
  pure (Fields.ofList (declared.filterMap id ++ encodeUnknown frame drafts))

theorem write_eq (make : Value → Draft σ) (writing : Writing) (frame : Frame σ)
    (fields : List (String × Draft σ)) : write make writing frame fields = (do
      let drafts ← settle make writing frame.schema frame.place fields
      encode writing frame drafts) := by
  rw [settle, bind_assoc, write]
  refine bind_congr fun filled => ?_
  split
  · rfl
  · rfl

/-- All drafts have a property, and names of some kind. -/
def All (named : String → Prop) (property : Draft σ → Prop) (drafts : Fields (Draft σ)) : Prop :=
  ∀ field ∈ drafts, named field.1 ∧ property field.2

/-- The same drafts, all of which have a property. -/
def SameAll (named : String → Prop) (property : Draft σ → Prop)
    (drafts others : Fields (Draft σ)) : Prop :=
  others = drafts ∧ All named property drafts

theorem All.insert (hall : All named property drafts) {name : String} (hname : named name)
    {draft : Draft σ} (hdraft : property draft) : All named property (drafts.insert name draft) := by
  intro other hother
  rcases Fields.mem_insert hother with rfl | hother
  · exact ⟨hname, hdraft⟩
  · exact hall other hother

theorem All.erase (hall : All named property drafts) (name : String) :
    All named property (drafts.erase name) :=
  fun other hother => hall other (List.mem_filter.mp hother).1

theorem All.defined? (hall : All named property drafts) {name : String} {draft : Draft σ}
    (hdraft : Drafts.defined? drafts name = some draft) : property draft :=
  (hall _ (Fields.mem_of_get? (Option.filter_eq_some_iff.mp hdraft).1)).2

/-- The names that a schema brings in are of some kind. -/
structure Names (named : String → Prop) (schema : Schema σ) : Prop where
  field : ∀ field ∈ schema.attributes, named field.name
  stamp : ∀ stamps, schema.timestamps = some stamps → ∀ name,
    stamps.createdAt = some name ∨ stamps.updatedAt = some name → named name

theorem Names.all : Names (fun _ => True) schema :=
  ⟨fun _ _ => trivial, fun _ _ _ _ => trivial⟩

section Stages

variable (hnames : Names named schema) (hmake : ∀ value, property (make value))

include hnames

theorem all_normalize {fields : List (String × Draft σ)}
    (hfields : ∀ field ∈ fields, named field.1 ∧ property field.2) :
    All named property (normalize schema fields) := by
  intro entry hentry
  obtain ⟨given, hgiven, rfl⟩ := List.mem_map.mp (Fields.mem_of_mem_ofList hentry)
  obtain ⟨hname, hproperty⟩ := hfields given hgiven
  refine ⟨?_, hproperty⟩
  dsimp only
  cases hnative : schema.nativeAttribute? given.1 with
  | none => exact hname
  | some declared => exact hnames.field declared (SchemaOf.mem_of_nativeAttribute? hnative)

theorem all_stamp (hnow : property (make (.date writing.now))) (hall : All named property drafts) :
    All named property (stamp make writing schema drafts) := by
  unfold stamp
  split
  · exact hall
  · exact hall
  · next stamps hstamps _ =>
      extract_lets now stamped
      have hstamped : All named property stamped := by
        dsimp only [stamped]
        split
        · next name _ hcreated =>
            split
            · exact hall
            · exact hall.insert (hnames.stamp stamps hstamps name (.inl hcreated)) hnow
        · exact hall
      split
      · next name hupdated =>
          exact hstamped.insert (hnames.stamp stamps hstamps name (.inr hupdated)) hnow
      · exact hstamped

include hmake

theorem sameAll_fill (hfield : field ∈ schema.attributes) (hall : All named property drafts) :
    Pipeline.Agree (SameAll named property) (fill make writing near drafts field)
      (fill make writing far drafts field) := by
  have hinsert : ∀ {filled : Fields (Draft σ)}, All named property filled →
      ∀ value, All named property (filled.insert field.name (make value)) :=
    fun hfilled _ => hfilled.insert (hnames.field field hfield) (hmake _)
  unfold fill
  extract_lets path modified path' remodified
  have hmodified : ∀ {filled : Fields (Draft σ)}, All named property filled →
      Pipeline.Agree (SameAll named property) (modified filled) (remodified filled) := by
    intro filled hfilled
    dsimp only [modified, remodified]
    split
    · cases hdraft : Drafts.defined? filled field.name with
      | none => exact .pure ⟨rfl, hfilled⟩
      | some draft =>
          refine (agree_applyModifiers field.writeModifiers path path' draft.value).bind ?_
          rintro value _ rfl
          exact .pure ⟨rfl, hinsert hfilled value⟩
    · exact .pure ⟨rfl, hfilled⟩
  split
  · refine (agree_evaluateDefault writing.now field (values drafts) path path').bind ?_
    rintro found _ rfl
    cases found with
    | none => exact hmodified hall
    | some value => exact hmodified (hinsert hall value)
  · exact hmodified hall

theorem sameAll_combine (hfield : field ∈ schema.attributes) (hall : All named property drafts) :
    Except.Agree (SameAll named property) (combine make near drafts field)
      (combine make far drafts field) := by
  unfold combine
  cases field.combine? with
  | none => exact .ok ⟨rfl, hall⟩
  | some combined =>
      obtain ⟨sources, separator⟩ := combined
      dsimp only
      split
      · exact .error _ _
      · split
        · exact .ok ⟨rfl, hall.erase _⟩
        · refine (agree_joinSources (List.forall₂_same.mpr fun _ _ => rfl) separator _ _).bind ?_
          rintro text _ rfl
          exact .ok ⟨rfl, hall.insert (hnames.field field hfield) (hmake _)⟩

/-- The stages settle a document in the same way at any two places. -/
theorem sameAll_settle {fields : List (String × Draft σ)}
    (hfields : ∀ field ∈ fields, named field.1 ∧ property field.2) :
    Pipeline.Agree (SameAll named property) (settle make writing schema near fields)
      (settle make writing schema far fields) := by
  have hfilled : Pipeline.Agree (SameAll named property)
      (schema.attributes.foldlM (fill make writing near)
        (stamp make writing schema (normalize schema fields)))
      (schema.attributes.foldlM (fill make writing far)
        (stamp make writing schema (normalize schema fields))) := by
    refine .foldlM_same (fun field hfield drafts _ hdrafts => ?_)
      ⟨rfl, all_stamp hnames (hmake _) (all_normalize hnames hfields)⟩
    obtain ⟨rfl, hall⟩ := hdrafts
    exact sameAll_fill hnames hmake hfield hall
  unfold settle
  refine hfilled.bind fun _ filled hsame => ?_
  obtain ⟨rfl, hall⟩ := hsame
  split
  · refine Pipeline.Agree.ofExcept (.foldlM_same (fun field hfield drafts _ hdrafts => ?_) ⟨rfl, hall⟩)
    obtain ⟨rfl, hall⟩ := hdrafts
    exact sameAll_combine hnames hmake hfield hall
  · exact .pure ⟨rfl, hall⟩

/-- What holds of the drafts of the fields and of every replacement holds of all settled drafts. -/
theorem all_of_yields_settle {place : Place} {fields : List (String × Draft σ)}
    (hfields : ∀ field ∈ fields, named field.1 ∧ property field.2) {before after : σ}
    (hrun : Yields (settle make writing schema place fields) before drafts after) :
    All named property drafts := by
  have hsame : Pipeline.Agree (SameAll named property) (settle make writing schema place fields)
      (settle make writing schema place fields) := sameAll_settle hnames hmake hfields
  obtain ⟨_, -, _, hall⟩ := hsame.exists_yields hrun
  exact hall

/-- At any two places a document is taken through the same drafts.  What is made of the drafts in
the end decides how the results correspond. -/
theorem agree_write_of {scope : Scope σ} {fields : List (String × Draft σ)}
    {related : Item → Item → Prop}
    (hfields : ∀ field ∈ fields, named field.1 ∧ property field.2)
    (hencode : ∀ drafts, All named property drafts →
      Pipeline.Agree related (encode writing ⟨scope, near, schema⟩ drafts)
        (encode writing ⟨scope, far, schema⟩ drafts)) :
    Pipeline.Agree related (write make writing ⟨scope, near, schema⟩ fields)
      (write make writing ⟨scope, far, schema⟩ fields) := by
  rw [write_eq, write_eq]
  refine (sameAll_settle hnames hmake hfields).bind fun drafts _ hdrafts => ?_
  obtain ⟨rfl, hall⟩ := hdrafts
  exact hencode _ hall

end Stages

/-! ## What a run has done -/

/-- The fields of a document are settled by filling them in, and by combining them if that is asked
for. -/
theorem of_yields_settle {place : Place} {fields : List (String × Draft σ)} {before after : σ}
    (hrun : Yields (settle make writing schema place fields) before drafts after) :
    ∃ filled, Yields (schema.attributes.foldlM (fill make writing place)
        (stamp make writing schema (normalize schema fields))) before filled after ∧
      (drafts = filled ∨ schema.attributes.foldlM (combine make place) filled = .ok drafts) := by
  unfold settle at hrun
  obtain ⟨filled, between, hfilled, hrest⟩ := yields_bind.mp hrun
  split at hrest
  · obtain ⟨hcombined, rfl⟩ := yields_ofExcept.mp hrest
    exact ⟨filled, hfilled, .inr hcombined⟩
  · obtain ⟨rfl, rfl⟩ := yields_pure.mp hrest
    exact ⟨filled, hfilled, .inl rfl⟩

/-- Writing has filled in drafts, combined them if it was to, and encoded each attribute. -/
theorem of_yields_write {frame : Frame σ} {fields : List (String × Draft σ)} {before after : σ}
    {item : Item} (hrun : Yields (write make writing frame fields) before item after) :
    ∃ filled between drafts entries,
      Yields (frame.schema.attributes.foldlM (fill make writing frame.place)
        (stamp make writing frame.schema (normalize frame.schema fields))) before filled between ∧
      (drafts = filled ∨
        frame.schema.attributes.foldlM (combine make frame.place) filled = .ok drafts) ∧
      Yields (frame.schema.attributes.mapM (encodeAttribute writing frame drafts)) between entries
        after ∧
      item = Fields.ofList (entries.filterMap id ++ encodeUnknown frame drafts) := by
  rw [write_eq] at hrun
  obtain ⟨drafts, between, hsettle, hencode⟩ := yields_bind.mp hrun
  obtain ⟨filled, hfilled, hcombined⟩ := of_yields_settle hsettle
  obtain ⟨entries, _, hentries, hitem⟩ := yields_bind.mp hencode
  obtain ⟨rfl, rfl⟩ := yields_pure.mp hitem
  exact ⟨filled, between, drafts, entries, hfilled, hcombined, hentries, rfl⟩

/-- An attribute is encoded if it has a defined value, by writing its draft. -/
theorem of_yields_encodeAttribute {frame : Frame σ} {before after : σ}
    {entry : Option (String × WireValue)}
    (hrun : Yields (encodeAttribute writing frame drafts field) before entry after) :
    defined? drafts field.name = none ∧ entry = none ∨
      ∃ draft stored first last, defined? drafts field.name = some draft ∧
        Yields (draft.write frame.scope (frame.place.child field.name) field.types) first stored
          last ∧
        entry = stored.map fun stored => (field.name, stored) := by
  unfold encodeAttribute at hrun
  obtain ⟨-, hrun⟩ := yields_check.mp hrun
  cases hdraft : defined? drafts field.name with
  | none =>
      simp only [hdraft, yields_pure] at hrun
      exact .inl ⟨rfl, hrun.1.symm⟩
  | some draft =>
      simp only [hdraft, yields_bind, yields_pure] at hrun
      obtain ⟨_, first, -, stored, last, hstored, rfl, -⟩ := hrun
      exact .inr ⟨draft, stored, first, last, rfl, hstored, rfl⟩

/-- The draft of an attribute is written unless its value is undefined. -/
theorem of_yields_encodeAttribute_draft {frame : Frame σ} {before after : σ}
    {entry : Option (String × WireValue)} {draft : Draft σ}
    (hdraft : drafts.get? field.name = some draft)
    (hrun : Yields (encodeAttribute writing frame drafts field) before entry after) :
    draft.value.isUndefined = true ∧ entry = none ∨ ∃ stored first last,
      Yields (draft.write frame.scope (frame.place.child field.name) field.types) first stored
        last ∧ entry = stored.map fun stored => (field.name, stored) := by
  rcases of_yields_encodeAttribute hrun with
    ⟨hnone, rfl⟩ | ⟨found, stored, first, last, hfound, hstored, rfl⟩
  · exact .inl ⟨by simpa [defined?, hdraft, Option.filter_some] using hnone, rfl⟩
  · obtain rfl := Option.some.inj (hdraft.symm.trans (Option.filter_eq_some_iff.mp hfound).1)
    exact .inr ⟨stored, first, last, hstored, rfl⟩

/-- What is encoded has the name of the attribute. -/
theorem name_of_encodeAttribute {frame : Frame σ} {before after : σ}
    {entry : Option (String × WireValue)}
    (hrun : Yields (encodeAttribute writing frame drafts field) before entry after) :
    ∀ pair ∈ entry, pair.1 = field.name := by
  intro pair hpair
  rcases of_yields_encodeAttribute hrun with ⟨-, rfl⟩ | ⟨_, stored, _, _, -, -, rfl⟩
  · contradiction
  · obtain ⟨_, -, rfl⟩ := Option.map_eq_some_iff.mp hpair
    rfl

/-- What is encoded for an attribute is what is stored under its name. -/
theorem get?_of_entries {frame : Frame σ} (hschema : frame.schema.WellFormed)
    {entries : List (Option (String × WireValue))}
    (hnames : List.Forall₂ (fun other entry => ∀ pair ∈ entry, pair.1 = AttributeOf.name other)
      frame.schema.attributes entries) {entry : Option (String × WireValue)}
    (hentry : (field, entry) ∈ frame.schema.attributes.zip entries) :
    (Fields.ofList (entries.filterMap id ++ encodeUnknown frame drafts)).get? field.name =
      entry.map Prod.snd := by
  have hfield := (List.of_mem_zip hentry).1
  -- no other attribute has the name, and neither have undeclared fields
  have honly : ∀ stored, (field.name, stored) ∈ entries.filterMap id ++ encodeUnknown frame drafts →
      entry = some (field.name, stored) := by
    intro stored hstored
    rcases List.mem_append.mp hstored with hdeclared | hunknown
    · obtain ⟨_, hfound, rfl⟩ := List.mem_filterMap.mp hdeclared
      rw [← List.map_snd_zip hnames.length_eq.ge] at hfound
      obtain ⟨⟨declared, _⟩, hzip, rfl⟩ := List.mem_map.mp hfound
      have hname := (List.forall₂_iff_zip.mp hnames).2 hzip _ rfl
      obtain rfl := hschema.eq_of_name_eq hfield (List.of_mem_zip hzip).1 hname
      have hdistinct := hschema.distinct.of_map
      rw [← List.map_fst_zip hnames.length_eq.le] at hdistinct
      have hsame := List.inj_on_of_nodup_map hdistinct hentry hzip rfl
      simpa using hsame
    · obtain ⟨undeclared, hundeclared, hkept⟩ := List.mem_filterMap.mp hunknown
      obtain ⟨_, -, hsame⟩ := Option.map_eq_some_iff.mp hkept
      obtain ⟨hname, -⟩ := Prod.mk.inj hsame
      have hnone : (frame.schema.attribute? undeclared.1).isNone = true :=
        (List.mem_filter.mp hundeclared).2
      rw [hname, hschema.attribute?_name hfield] at hnone
      contradiction
  cases entry with
  | none =>
      rw [Option.map_none, Option.eq_none_iff_forall_ne_some]
      intro stored hstored
      cases honly stored (Fields.mem_of_get?_ofList hstored)
  | some pair =>
      obtain ⟨name, stored⟩ := pair
      obtain rfl := (List.forall₂_iff_zip.mp hnames).2 hentry _ rfl
      refine Fields.get?_ofList_of_mem (List.mem_append_left _ (List.mem_filterMap.mpr
        ⟨_, (List.of_mem_zip hentry).2, rfl⟩)) fun other hother => ?_
      simpa using (honly other hother).symm

end Drafts

end ItemMapper
