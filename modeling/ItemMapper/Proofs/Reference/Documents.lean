import ItemMapper.Proofs.Marshal.MovedReading
import ItemMapper.Proofs.Marshal.MovedWriting
import ItemMapper.Proofs.Reading.Documents
import ItemMapper.Proofs.Reference.Places
import ItemMapper.Proofs.Saving.Stages

/-!
# The document behind a reference

A run that writes a document passes its attributes one after another, and where the stages before
leave the value of one as it was given, a successful run encodes just this value
(`Drafts.exists_yields_of_given`).  If its only type is a reference, it is written as a document
there (`Value.exists_of_yields_writer_map`), and as the outermost document alike
(`Frame.yields_write_iff`).  Reading goes the same way back.
-/

namespace ItemMapper

variable {σ : Type}

open Pipeline

/-- Neither defaults nor functions of the application have a part in the attribute. -/
structure AttributeOf.Untouched (field : Attribute σ) : Prop where
  noDefault : field.defaultValue = none
  noWriteModifiers : field.writeModifiers = []
  noReadModifiers : field.readModifiers = []

/-- A value that is given stays as it is: no default replaces it, and nothing modifies it. -/
structure AttributeOf.Kept (field : Attribute σ) : Prop where
  unforced : field.defaultValue = none ∨ field.forceDefault = false
  noWriteModifiers : field.writeModifiers = []

theorem AttributeOf.Untouched.kept {field : Attribute σ} (huntouched : field.Untouched) :
    field.Kept :=
  ⟨.inl huntouched.noDefault, huntouched.noWriteModifiers⟩

/-- The attribute is not set to the time of writing. -/
def SchemaOf.Unstamped (schema : Schema σ) (options : MarshalOptions) (name : String) : Prop :=
  options.timestamps = .off ∨
    ∀ stamps, schema.timestamps = some stamps → stamps.updatedAt ≠ some name

/-! ## Stages that leave a draft alone -/

namespace Drafts

variable {make : Value → Draft σ} {writing : Writing} {schema : Schema σ} {place : Place}
  {drafts filled : Fields (Draft σ)} {draft : Draft σ} {name : String} {before after : σ}

theorem get?_stamp_of_given (hunstamped : schema.Unstamped writing.options name)
    (hgiven : drafts.get? name = some draft) :
    (stamp make writing schema drafts).get? name = some draft := by
  unfold stamp
  split
  · exact hgiven
  · exact hgiven
  · next stamps hstamps hmode =>
      have hupdatedAt := hunstamped.resolve_left (by simpa using hmode) stamps hstamps
      extract_lets now stamped
      have hstamped : stamped.get? name = some draft := by
        dsimp only [stamped]
        split
        · next created _ _ =>
            rw [get?_insert_absent, hgiven]
            simp
        · exact hgiven
      split
      · next updated hupdated =>
          rw [Fields.get?_insert, if_neg, hstamped]
          rintro rfl
          exact hupdatedAt hupdated
      · exact hstamped

/-- Filling in an attribute leaves the others alone. -/
theorem get?_of_yields_fill {field : Attribute σ} (hname : field.name ≠ name)
    (hrun : Yields (fill make writing place drafts field) before filled after) :
    filled.get? name = drafts.get? name := by
  have hinsert : ∀ (given : Fields (Draft σ)) value,
      (given.insert field.name (make value)).get? name = given.get? name :=
    fun given value => by rw [Fields.get?_insert, if_neg hname]
  unfold fill at hrun
  extract_lets path modified at hrun
  have hmodified : ∀ given last between, Yields (modified given) between last after →
      last.get? name = given.get? name := by
    intro given last between hlast
    dsimp only [modified] at hlast
    split at hlast
    · cases hdraft : defined? given field.name with
      | none =>
          simp only [hdraft, yields_pure] at hlast
          rw [hlast.1]
      | some draft =>
          simp only [hdraft, yields_bind, yields_pure] at hlast
          obtain ⟨value, _, -, rfl, -⟩ := hlast
          exact hinsert given value
    · rw [(yields_pure.mp hlast).1]
  split at hrun
  · obtain ⟨found, between, -, hfilled⟩ := yields_bind.mp hrun
    cases found with
    | none => exact hmodified _ _ _ hfilled
    | some value => rw [hmodified _ _ _ hfilled, hinsert]
  · exact hmodified _ _ _ hrun

/-- What is given for an attribute stays if nothing replaces or modifies it. -/
theorem eq_of_yields_fill {field : Attribute σ} (hkept : field.Kept)
    (hgiven : drafts.get? field.name = some draft)
    (hrun : Yields (fill make writing place drafts field) before filled after) :
    filled = drafts := by
  obtain ⟨hdefault | hforce, hmodifiers⟩ := hkept
  · simp only [fill, evaluateDefault, hdefault, hmodifiers, List.isEmpty_nil, Bool.not_true,
      Bool.and_false, Bool.false_eq_true, if_false, pure_bind, ite_self, yields_pure] at hrun
    exact hrun.1.symm
  · simp only [fill, wantsDefault, hgiven, hforce, hmodifiers, List.isEmpty_nil, Bool.not_true,
      Bool.and_false, Bool.false_and, Bool.false_eq_true, if_false, pure_bind, yields_pure] at hrun
    exact hrun.1.symm

/-- Each attribute is filled in once: the others find nothing of it and leave it nothing. -/
theorem exists_fill_of_foldlM {attributes : List (Attribute σ)}
    (hdistinct : (attributes.map AttributeOf.name).Nodup) {field : Attribute σ}
    (hfield : field ∈ attributes)
    (hrun : Yields (attributes.foldlM (fill make writing place) drafts) before filled after) :
    ∃ given found first last, given.get? field.name = drafts.get? field.name ∧
      Yields (fill make writing place given field) first found last ∧
      filled.get? field.name = found.get? field.name := by
  induction attributes generalizing drafts before with
  | nil => simp at hfield
  | cons first rest ih =>
      obtain ⟨hfirst, hrest⟩ := List.nodup_cons.mp hdistinct
      rw [List.foldlM_cons] at hrun
      obtain ⟨between, middle, hstep, hlater⟩ := yields_bind.mp hrun
      rcases List.mem_cons.mp hfield with rfl | hmem
      · have hkeep : ∀ other ∈ rest, ∀ given start found last,
            given.get? field.name = between.get? field.name →
              Yields (fill make writing place given other) start found last →
                found.get? field.name = between.get? field.name := by
          intro other hother given start found last hgiven hfilled
          have hname : other.name ≠ field.name := fun hsame =>
            hfirst (hsame ▸ List.mem_map_of_mem hother)
          rw [get?_of_yields_fill hname hfilled, hgiven]
        exact ⟨drafts, between, before, middle, rfl, hstep, hlater.of_foldlM hkeep rfl⟩
      · have hname : first.name ≠ field.name := fun hsame =>
          hfirst (hsame ▸ List.mem_map_of_mem hmem)
        obtain ⟨given, found, start, last, hgiven, hfilled, hfound⟩ := ih hrest hmem hlater
        exact ⟨given, found, start, last, hgiven.trans (get?_of_yields_fill hname hstep), hfilled,
          hfound⟩

theorem get?_of_foldlM_fill (hschema : schema.WellFormed) {field : Attribute σ}
    (hfield : field ∈ schema.attributes) (hkept : field.Kept)
    (hgiven : drafts.get? field.name = some draft)
    (hrun : Yields (schema.attributes.foldlM (fill make writing place) drafts) before filled after) :
    filled.get? field.name = some draft := by
  obtain ⟨given, found, _, _, hsame, hfilled, hfound⟩ :=
    exists_fill_of_foldlM hschema.distinct hfield hrun
  rw [hfound, eq_of_yields_fill hkept (hsame.trans hgiven) hfilled, hsame, hgiven]

theorem get?_of_foldlM_combine (hschema : schema.WellFormed) {field : Attribute σ}
    (hfield : field ∈ schema.attributes) (hplain : field.combine? = none)
    (hcombined : schema.attributes.foldlM (combine make place) drafts = .ok filled) :
    filled.get? field.name = drafts.get? field.name := by
  have hindependent : Scope.Independent schema.attributes :=
    @Scope.independent_attributes σ ⟨⟨[]⟩, schema⟩ hschema
  have hsame : Combines make drafts field (drafts.get? field.name) := .plain hplain
  exact ((of_foldlM_combine hindependent hcombined).1 field hfield).unique hsame

/-- An attribute that is given, not stamped, kept and not combined is written as given. -/
theorem exists_yields_of_given {frame : Frame σ} {field : Attribute σ}
    {fields : List (String × Draft σ)} {item : Item} (hschema : frame.schema.WellFormed)
    (hfield : field ∈ frame.schema.attributes) (hkept : field.Kept) (hplain : field.combine? = none)
    (hunstamped : frame.schema.Unstamped writing.options field.name)
    (hgiven : (normalize frame.schema fields).get? field.name = some draft)
    (hrun : Yields (write make writing frame fields) before item after) :
    draft.value.isUndefined = true ∧ item.get? field.name = none ∨ ∃ first last,
      Yields (draft.write frame.scope (frame.place.child field.name) field.types) first
        (item.get? field.name) last := by
  obtain ⟨filled, between, drafts, entries, hfilled, hcombined, hentries, rfl⟩ :=
    of_yields_write hrun
  have hstill := get?_of_foldlM_fill hschema hfield hkept
    (get?_stamp_of_given hunstamped hgiven) hfilled
  have hdraft : drafts.get? field.name = some draft := by
    rcases hcombined with rfl | hcombined
    · exact hstill
    · rw [get?_of_foldlM_combine hschema hfield hplain hcombined, hstill]
  obtain ⟨_, _, _, entry, _, _, -, -, hentry, hmem⟩ := hentries.exists_of_mem_mapM hfield
  rw [get?_of_entries hschema (hentries.forall₂_mapM fun _ _ _ _ => name_of_encodeAttribute) hmem]
  rcases of_yields_encodeAttribute_draft hdraft hentry with
    ⟨hundefined, rfl⟩ | ⟨stored, first, last, hstored, rfl⟩
  · exact .inl ⟨hundefined, rfl⟩
  · exact .inr ⟨first, last, by simpa [Function.comp_def] using hstored⟩

end Drafts

/-- Under stored names the value of such an attribute is in the document. -/
theorem Frame.exists_yields_of_given {frame : Frame σ} {field : Attribute σ} {writing : Writing}
    {document : Document} {value : Value} {item : Item} {before after : σ}
    (hschema : frame.schema.WellFormed) (hfield : field ∈ frame.schema.attributes)
    (hkept : field.Kept) (hplain : field.combine? = none)
    (hunstamped : frame.schema.Unstamped writing.options field.name)
    (hgiven : (frame.schema.normalized document).get? field.name = some value)
    (hrun : Yields (frame.write writing document) before item after) :
    value.isUndefined = true ∧ item.get? field.name = none ∨ ∃ first last,
      Yields (value.writer (Value.madeDraft writing writing.depth) writing frame.scope
        (frame.place.child field.name) field.types) first (item.get? field.name) last := by
  have hdraft : (Drafts.normalize frame.schema
      (Value.drafts (Value.madeDraft writing writing.depth) writing document)).get? field.name =
        some ⟨value, value.writer (Value.madeDraft writing writing.depth) writing⟩ := by
    rw [Drafts.normalize_drafts, Fields.get?_mapValues, hgiven, Option.map_some]
  exact Drafts.exists_yields_of_given hschema hfield hkept hplain hunstamped hdraft hrun

/-! ## References -/

/-- A document whose only type is a document is written as that. -/
theorem Value.exists_of_yields_writer_map {make : Value → Draft σ} {writing : Writing}
    (hcheck : writing.options.typeCheck = true) {fields : Document} {scope : Scope σ} {place : Place}
    {type : CandidateType σ} {frame : Frame σ} (henter : scope.enter? place type = some frame)
    {before after : σ} {stored : Option WireValue}
    (hrun : Yields ((Value.map fields).writer make writing scope place [type]) before stored after) :
    ∃ item last, stored = some (.map item) ∧
      Yields (Drafts.write make writing frame (Value.drafts make writing fields)) before item last := by
  simp only [writer, writeChosen] at hrun
  split at hrun
  · rw [if_pos hcheck] at hrun
    exact (yields_throw.mp hrun).elim
  · next choice hchoice =>
      have htype : choice.type = type := List.mem_singleton.mp
        (Scope.mem_choices.mp (Scope.of_choose? (Scope.resolve_eq_ok_iff.mp hchoice)).1).1
      simp only [htype, henter, Option.map_some, yields_bind, yields_pure] at hrun
      obtain ⟨_, last, ⟨item, _, hitem, rfl, rfl⟩, rfl, -⟩ := hrun
      exact ⟨item, _, rfl, hitem⟩

/-- A stored document whose only type is a document is read as that. -/
theorem WireValue.exists_of_yields_reader_map {options : MarshalOptions}
    (hcheck : options.typeCheck = true) {fields : Item} {scope : Scope σ} {place : Place}
    {type : CandidateType σ} {frame : Frame σ} (henter : scope.enter? place type = some frame)
    {before after : σ} {value : Value}
    (hrun : Yields ((WireValue.map fields).reader options scope place [type]) before value after) :
    ∃ document, value = .map document ∧
      Yields (frame.read options fields) before document after := by
  simp only [reader, readChosen] at hrun
  split at hrun
  · rw [if_pos hcheck] at hrun
    exact (yields_throw.mp hrun).elim
  · next choice hchoice =>
      have htype : choice.type = type := List.mem_singleton.mp (Scope.mem_of_resolveStored hchoice)
      simp only [htype, henter, Option.map_some, yields_bind, yields_pure] at hrun
      obtain ⟨document, _, hdocument, rfl, rfl⟩ := hrun
      exact ⟨document, rfl, hdocument⟩

namespace Frame

/-- Without modifiers an attribute is read as its stored value is. -/
theorem exists_yields_reader {frame : Frame σ} {options : MarshalOptions} {item : Item}
    {field : Attribute σ} (hmodifiers : field.readModifiers = []) {stored : WireValue}
    (hstored : item.get? field.name = some stored) {before after : σ} {value : Option Value}
    (hrun : Yields (frame.readField options item field) before value after) :
    ∃ decoded, value = some decoded ∧
      Yields (stored.reader options frame.scope (frame.place.child field.name) field.types)
        before decoded after := by
  simp only [readField, hstored, hmodifiers, applyModifiers, List.foldlM_nil, map_pure, ite_self,
    yields_bind, yields_pure] at hrun
  obtain ⟨decoded, _, hdecoded, rfl, rfl⟩ := hrun
  exact ⟨decoded, rfl, hdecoded⟩

variable {start : Scope σ} {place : Place}

/-- A document behind a reference is written like the outermost one. -/
theorem yields_write_iff (hportable : start.Portable) (hplace : place.text ≠ "")
    {writing : Writing} {document : Document} (hkeys : ∀ field ∈ document, field.1 ≠ "")
    {before after : σ} {item : Item} :
    Yields (start.frame.write writing document) before item after ↔
      Yields (Frame.write ⟨start, place.enter, start.root⟩ writing document) before item after := by
  have hschema := hportable.wellFormed
  have hnames : Drafts.Names (· ≠ "") start.root := {
    field := fun field hfield => SchemaOf.ne_empty_of_usable (hschema.usable field hfield)
    stamp := fun stamps hstamps name hname => by
      obtain ⟨field, hfield, rfl⟩ := hschema.stampsDeclared stamps hstamps name hname
      exact SchemaOf.ne_empty_of_usable (hschema.usable field hfield) }
  have hmake : ∀ value, (Value.madeDraft writing writing.depth value).Movable start.reach
      Scope.SeesAlike := Value.movable_madeDraft hportable.moves writing.depth
  refine (Drafts.agree_write_moved hportable.moves hmake .root hnames
    (fun key hkey => Scope.SeesAlike.of_key hplace hkey start) ?_).yields_iff
  rw [Value.drafts_eq_map, List.forall_mem_map]
  exact fun field hfield => ⟨hkeys field hfield, Value.movable_writer hportable.moves hmake _⟩

/-- An item behind a reference is read like the outermost one. -/
theorem yields_read_iff (hportable : start.Portable) (hplace : place.text ≠ "")
    {options : MarshalOptions} {item : Item} (hkeys : ∀ field ∈ item, field.1 ≠ "")
    {before after : σ} {document : Document} :
    Yields (start.frame.read options item) before document after ↔
      Yields (Frame.read ⟨start, place.enter, start.root⟩ options item) before document after := by
  refine (Sources.agree_read_moved hportable.moves .root
    (fun key (hkey : key ≠ "") => Scope.SeesAlike.of_key hplace hkey start) ?_).yields_iff
  rw [WireValue.sources_eq, Fields.mapValues, List.forall_mem_map]
  exact fun field hfield => ⟨hkeys field hfield, WireValue.movable_reader hportable.moves _⟩

end Frame

end ItemMapper
