import ItemMapper.Mapper
import ItemMapper.Proofs.Carried.Coding
import ItemMapper.Proofs.Marshal.Drafts
import ItemMapper.Proofs.Plain.Assignments

/-!
# What documents are written as

Writing takes values from three sources: the document, the functions of the application, and times
and combined texts.  If the functions make only values with a property of such values
(`Scope.Supplies`), then all drafts that the stages settle have it (`Drafts.given_of_yields_settle`),
and what a property is carried over to holds of the whole item (`Frame.carries_write`).

The drafts of replacements need not be known to have the property when they are made.  It is enough
that they carry it over if they have it (`Draft.Carries`).
-/

namespace ItemMapper

variable {σ : Type}

open Pipeline

/-- The functions of an attribute make values with a property of such values: its default of a
document, and its modifiers of one value. -/
structure AttributeOf.Supplies (given : Value → Prop) (field : Attribute σ) : Prop where
  default : ∀ now (document : Document) value, (∀ entry ∈ document, given entry.2) →
    field.DefaultsTo now document value → given value
  modified : ∀ options value other, given value → field.ModifiesTo options value other → given other

/-- The same of all attributes that can be reached. -/
def Scope.Supplies (start : Scope σ) (given : Value → Prop) : Prop :=
  ∀ schema, start.Mentions schema → ∀ field ∈ schema.attributes, field.Supplies given

/-- If the value of a draft has the one property, then all that is stored of it, as one of the types
that can be reached, has the other. -/
def Draft.Carries (start : Scope σ) (given : Value → Prop) (stored : WireValue → Prop)
    (draft : Draft σ) : Prop :=
  given draft.value → ∀ scope place types before form after, start.Covers scope →
    start.MentionsTypes types → Yields (draft.write scope place types) before (some form) after →
      stored form

variable {start : Scope σ} {given : Value → Prop} {stored : WireValue → Prop} {writing : Writing}

/-! ## The stages before attributes are encoded -/

namespace Drafts

variable {make : Value → Draft σ} {schema : Schema σ} {place : Place} {drafts : Fields (Draft σ)}
  {field : Attribute σ}

/-- All drafts have values with a property. -/
abbrev Given (given : Value → Prop) (drafts : Fields (Draft σ)) : Prop :=
  All (fun _ => True) (fun draft => given draft.value) drafts

theorem Given.values (hgiven : Given given drafts) : ∀ entry ∈ values drafts, given entry.2 := by
  intro entry hentry
  obtain ⟨draft, hdraft, rfl⟩ := List.mem_map.mp hentry
  exact (hgiven draft hdraft).2

section Stages

variable (hmake : ∀ value, (make value).value = value)

include hmake

theorem Given.insert (hgiven : Given given drafts) (name : String) {value : Value}
    (hvalue : given value) : Given given (drafts.insert name (make value)) :=
  All.insert hgiven trivial (by rwa [hmake])

theorem given_fill (hsupplies : field.Supplies given) (hgiven : Given given drafts)
    {before after : σ} {filled : Fields (Draft σ)}
    (hrun : Yields (fill make writing place drafts field) before filled after) :
    Given given filled := by
  unfold fill at hrun
  extract_lets path modified at hrun
  have hmodified : ∀ {defaulted last : Fields (Draft σ)} {first middle : σ},
      Given given defaulted → Yields (modified defaulted) first last middle → Given given last := by
    intro defaulted last first middle hdefaulted hlast
    dsimp only [modified] at hlast
    split at hlast
    · next hmodifiers =>
        cases hdraft : defined? defaulted field.name with
        | none =>
            simp only [hdraft, yields_pure] at hlast
            exact hlast.1 ▸ hdefaulted
        | some draft =>
            simp only [hdraft, yields_bind, yields_pure] at hlast
            obtain ⟨value, between, hvalue, rfl, -⟩ := hlast
            refine hdefaulted.insert hmake field.name
              (hsupplies.modified writing.options draft.value value (hdefaulted.defined? hdraft) ?_)
            rw [AttributeOf.ModifiesTo, if_pos (Bool.and_eq_true_iff.mp hmodifiers).1]
            exact ⟨path, first, between, hvalue⟩
    · exact (yields_pure.mp hlast).1 ▸ hdefaulted
  split at hrun
  · obtain ⟨found, between, hfound, hfilled⟩ := yields_bind.mp hrun
    cases found with
    | none => exact hmodified hgiven hfilled
    | some value =>
        exact hmodified (hgiven.insert hmake field.name (hsupplies.default writing.now _ value
          hgiven.values ⟨path, before, between, hfound⟩)) hfilled
  · exact hmodified hgiven hrun

theorem given_combine (hstring : ∀ text, given (.string text)) (hgiven : Given given drafts)
    {combined : Fields (Draft σ)} (hrun : combine make place drafts field = .ok combined) :
    Given given combined := by
  unfold combine at hrun
  cases hcombine : field.combine? with
  | none =>
      simp only [hcombine, Except.ok.injEq] at hrun
      exact hrun ▸ hgiven
  | some sourced =>
      simp only [hcombine] at hrun
      split at hrun
      · contradiction
      · split at hrun
        · obtain rfl := Except.ok.inj hrun
          exact All.erase hgiven field.name
        · obtain ⟨text, -, hinsert⟩ := Except.bind_eq_ok.mp hrun
          obtain rfl := Except.ok.inj hinsert
          exact hgiven.insert hmake field.name (hstring text)

/-- The stages settle values with a property as such values. -/
theorem given_of_yields_settle (hcarries : Carries given stored)
    (hsupplies : ∀ field ∈ schema.attributes, field.Supplies given)
    {fields : List (String × Draft σ)} (hfields : ∀ field ∈ fields, given field.2.value)
    {before after : σ}
    (hrun : Yields (settle make writing schema place fields) before drafts after) :
    Given given drafts := by
  obtain ⟨filled, hfilled, hcombined⟩ := of_yields_settle hrun
  have hnow : given (make (.date writing.now)).value := by
    rw [hmake]
    exact hcarries.givenDate writing.now
  have hstart : Given given (stamp make writing schema (normalize schema fields)) :=
    all_stamp .all hnow (all_normalize .all fun field hfield => ⟨trivial, hfields field hfield⟩)
  have hgiven : Given given filled :=
    Yields.of_foldlM (fun field hfield _ _ _ _ hgiven hstep =>
      given_fill hmake (hsupplies field hfield) hgiven hstep) hstart hfilled
  rcases hcombined with rfl | hcombined
  · exact hgiven
  · exact Except.of_foldlM (fun field _ _ _ hgiven hstep =>
      given_combine hmake hcarries.givenString hgiven hstep) hgiven hcombined

end Stages

/-! ## Documents -/

theorem carries_encodeAttribute {frame : Frame σ} (hcovers : start.Covers frame.scope)
    (hmentions : start.Mentions frame.schema) (hfield : field ∈ frame.schema.attributes)
    (hgiven : Given given drafts)
    (hdrafts : All (fun _ => True) (Draft.Carries start given stored) drafts) {before after : σ}
    {entry : Option (String × WireValue)}
    (hrun : Yields (encodeAttribute writing frame drafts field) before entry after) :
    ∀ pair ∈ entry, stored pair.2 := by
  intro pair hpair
  rcases of_yields_encodeAttribute hrun with ⟨-, rfl⟩ | ⟨draft, form, _, _, hdraft, hform, rfl⟩
  · contradiction
  · obtain ⟨written, rfl, rfl⟩ := Option.map_eq_some_iff.mp hpair
    exact hdrafts.defined? hdraft (hgiven.defined? hdraft) _ _ _ _ _ _ hcovers
      (Scope.mentionsTypes_of_field hmentions hfield) hform

theorem carries_encodeUnknown (hcarries : Carries given stored) {frame : Frame σ}
    (hgiven : Given given drafts) : ∀ pair ∈ encodeUnknown frame drafts, stored pair.2 := by
  intro pair hpair
  obtain ⟨draft, hdraft, hkept⟩ := List.mem_filterMap.mp hpair
  obtain ⟨form, hform, rfl⟩ := Option.map_eq_some_iff.mp hkept
  exact hcarries.keep? (hgiven draft (List.mem_filter.mp hdraft).1).2 hform

/-- A document is written as an item with the property, if its drafts and all replacements carry it
over. -/
theorem carries_write (hcarries : Carries given stored) (hsupplies : start.Supplies given)
    {frame : Frame σ} (hcovers : start.Covers frame.scope) (hmentions : start.Mentions frame.schema)
    (hmake : ∀ value, (make value).value = value)
    (hmade : ∀ value, (make value).Carries start given stored) {fields : List (String × Draft σ)}
    (hfields : ∀ field ∈ fields, given field.2.value ∧ field.2.Carries start given stored)
    {before after : σ} {item : Item}
    (hrun : Yields (write make writing frame fields) before item after) :
    ∀ pair ∈ item, stored pair.2 := by
  rw [write_eq] at hrun
  obtain ⟨drafts, between, hsettle, hencode⟩ := yields_bind.mp hrun
  have hsettled : Given given drafts :=
    given_of_yields_settle hmake hcarries (hsupplies frame.schema hmentions)
      (fun field hfield => (hfields field hfield).1) hsettle
  have hall : All (fun _ => True) (Draft.Carries start given stored) drafts :=
    all_of_yields_settle .all hmade (fun field hfield => ⟨trivial, (hfields field hfield).2⟩) hsettle
  obtain ⟨entries, _, hentries, hitem⟩ := yields_bind.mp hencode
  obtain ⟨rfl, rfl⟩ := yields_pure.mp hitem
  intro pair hpair
  rcases List.mem_append.mp (Fields.mem_of_mem_ofList hpair) with hdeclared | hunknown
  · have hsteps : List.Forall₂ (fun field entry => ∃ first last,
        Yields (encodeAttribute writing frame drafts field) first entry last)
        frame.schema.attributes entries :=
      hentries.forall₂_mapM fun _ _ first last hstep => ⟨first, last, hstep⟩
    obtain ⟨entry, hentry, hsome⟩ := List.mem_filterMap.mp hdeclared
    obtain ⟨field, hfield, _, _, hstep⟩ := exists_related_right hsteps hentry
    exact carries_encodeAttribute hcovers hmentions hfield hsettled hall hstep pair hsome
  · exact carries_encodeUnknown hcarries hsettled pair hunknown

end Drafts

/-! ## Values -/

namespace Value

theorem carries_writeChosen (hcarries : Carries given stored) {value : Value} {scope : Scope σ}
    {place : Place} {types : List (CandidateType σ)}
    {inside : CandidateType σ → Option (Pipeline σ WireValue)} (hgiven : given value)
    (hinside : ∀ type ∈ types, ∀ nested, inside type = some nested →
      ∀ before form after, Yields nested before form after → stored form)
    {before after : σ} {form : WireValue}
    (hrun : Yields (value.writeChosen writing scope place types inside) before (some form) after) :
    stored form := by
  unfold writeChosen at hrun
  split at hrun
  · split at hrun
    · exact (yields_throw.mp hrun).elim
    · exact hcarries.natural? hgiven (yields_pure.mp hrun).1
  · next choice hchoice =>
      split at hrun
      · next nested hnested =>
          obtain ⟨written, _, hwritten, hsome⟩ := yields_bind.mp hrun
          obtain rfl := Option.some.inj (yields_pure.mp hsome).1
          exact hinside _ (Scope.of_resolve hchoice).1 nested hnested _ _ _ hwritten
      · exact hcarries.encodeAs value hgiven (yields_ofExcept.mp hrun).1

mutual

theorem carries_writer (hcarries : Carries given stored) (hsupplies : start.Supplies given)
    {depth : Nat} (hmade : ∀ value, (madeDraft writing depth value).Carries start given stored) :
    ∀ value : Value,
      Draft.Carries start given stored ⟨value, value.writer (madeDraft writing depth) writing⟩
  | .undefined => by
      intro hgiven scope place types before form after _ _ hrun
      simp only [writer] at hrun
      cases (yields_pure.mp hrun).1
  | .list items => by
      intro hgiven scope place types before form after hcovers hmentions hrun
      simp only [writer] at hrun
      refine carries_writeChosen hcarries hgiven
        (fun type htype nested hnested before form after hform => ?_) hrun
      split at hnested
      · obtain rfl := Option.some.inj hnested
        obtain ⟨forms, _, hforms, hlist⟩ := yields_bind.mp hform
        obtain rfl := (yields_pure.mp hlist).1
        exact hcarries.list (carries_writeItems hcarries hsupplies hmade items
          (hcarries.list_iff.mp hgiven) hcovers
          (Scope.mentionsTypes_of_array (hmentions _ htype)) hforms)
      · contradiction
  | .map fields => by
      intro hgiven scope place types before form after hcovers hmentions hrun
      simp only [writer] at hrun
      refine carries_writeChosen hcarries hgiven
        (fun type htype nested hnested before form after hform => ?_) hrun
      obtain ⟨frame, henter, rfl⟩ := Option.map_eq_some_iff.mp hnested
      obtain ⟨item, _, hitem, hmap⟩ := yields_bind.mp hform
      obtain rfl := (yields_pure.mp hmap).1
      obtain ⟨hinner, hreaches⟩ := hcovers.enter? (hmentions type htype) henter
      exact hcarries.map (Drafts.carries_write hcarries hsupplies hinner hreaches
        (madeDraft_value writing depth) hmade
        (carries_drafts hcarries hsupplies hmade fields (hcarries.fields hgiven)) hitem)
  | .null | .bool _ | .number _ | .string _ | .binary _ | .date _ | .set _ => by
      intro hgiven scope place types before form after _ _ hrun
      simp only [writer] at hrun
      exact carries_writeChosen hcarries hgiven (fun _ _ _ hnone => by contradiction) hrun

theorem carries_writeItems (hcarries : Carries given stored) (hsupplies : start.Supplies given)
    {depth : Nat} (hmade : ∀ value, (madeDraft writing depth value).Carries start given stored) :
    ∀ (items : List Value) {scope : Scope σ} {place : Place} {elements : List (CandidateType σ)}
      {index : Nat} {before after : σ} {forms : List WireValue}, (∀ item ∈ items, given item) →
      start.Covers scope → start.MentionsTypes elements →
      Yields (writeItems (madeDraft writing depth) writing scope place elements index items) before
        forms after → ∀ form ∈ forms, stored form
  | [], _, _, _, _, _, _, _, _, _, _, hrun => by
      rw [writeItems] at hrun
      obtain rfl := (yields_pure.mp hrun).1
      simp
  | item :: rest, _, _, _, _, _, _, _, hgiven, hcovers, hmentions, hrun => by
      obtain ⟨hitem, hrest⟩ := List.forall_mem_cons.mp hgiven
      simp only [writeItems, yields_bind, yields_pure] at hrun
      obtain ⟨form, _, hform, others, _, hothers, rfl, -⟩ := hrun
      refine List.forall_mem_append.mpr ⟨fun written hwritten => ?_,
        carries_writeItems hcarries hsupplies hmade rest hrest hcovers hmentions hothers⟩
      obtain rfl := Option.mem_toList.mp hwritten
      exact carries_writer hcarries hsupplies hmade item hitem _ _ _ _ _ _ hcovers hmentions hform

theorem carries_drafts (hcarries : Carries given stored) (hsupplies : start.Supplies given)
    {depth : Nat} (hmade : ∀ value, (madeDraft writing depth value).Carries start given stored) :
    ∀ fields : List (String × Value), (∀ field ∈ fields, given field.2) →
      ∀ draft ∈ drafts (madeDraft writing depth) writing fields,
        given draft.2.value ∧ draft.2.Carries start given stored
  | [], _ => by simp [drafts]
  | (key, value) :: rest, hgiven => by
      obtain ⟨hvalue, hrest⟩ := List.forall_mem_cons.mp hgiven
      rw [drafts, List.forall_mem_cons]
      exact ⟨⟨hvalue, carries_writer hcarries hsupplies hmade value⟩,
        carries_drafts hcarries hsupplies hmade rest hrest⟩

end

theorem carries_madeDraft (hcarries : Carries given stored) (hsupplies : start.Supplies given)
    (depth : Nat) (value : Value) : (madeDraft writing depth value).Carries start given stored := by
  induction depth generalizing value with
  | zero =>
      intro hgiven scope place types before form after _ _ hrun
      simp only [madeDraft, shallowDraft] at hrun hgiven
      split at hrun
      · cases (yields_pure.mp hrun).1
      · exact (yields_throw.mp hrun).elim
      · exact (yields_throw.mp hrun).elim
      · exact carries_writeChosen hcarries hgiven (fun _ _ _ hnone => by contradiction) hrun
  | succ depth ih =>
      rw [madeDraft, writerTo_eq]
      exact carries_writer hcarries hsupplies ih value

end Value

/-- A document of values with a property is written as an item of values with the other one. -/
theorem Frame.carries_write (hcarries : Carries given stored) (hsupplies : start.Supplies given)
    {document : Document} (hgiven : ∀ entry ∈ document, given entry.2) {before after : σ}
    {item : Item} (hrun : Yields (start.frame.write writing document) before item after) :
    ∀ pair ∈ item, stored pair.2 := by
  have hmade : ∀ value, (Value.madeDraft writing writing.depth value).Carries start given stored :=
    Value.carries_madeDraft hcarries hsupplies writing.depth
  exact Drafts.carries_write hcarries hsupplies ⟨rfl, start, .root⟩ ⟨start, .root⟩
    (Value.madeDraft_value writing writing.depth) hmade
    (Value.carries_drafts hcarries hsupplies hmade document hgiven) hrun

/-! ## Keys -/

namespace Mapper

variable {mapper : Mapper σ}

theorem carries_keyField (hcarries : Carries given stored) {document : Document}
    (hgiven : ∀ entry ∈ document, given entry.2) {field : Attribute σ} {pair : String × WireValue}
    (hpair : mapper.keyField document field = .ok pair) : stored pair.2 := by
  unfold keyField at hpair
  dsimp only at hpair
  split at hpair
  · contradiction
  · next value hvalue =>
      have hvalue : given value := by
        rcases Option.or_eq_some_iff.mp hvalue with hfound | ⟨-, hfound⟩ <;>
          exact hgiven _ (Fields.mem_of_get? hfound)
      obtain ⟨form, hform, hpair⟩ := Except.bind_eq_ok.mp hpair
      cases form with
      | none => simp at hpair
      | some form =>
          obtain rfl := Except.pure_eq_ok.mp hpair
          exact hcarries.encode hvalue hform

theorem carries_key (hcarries : Carries given stored) {document : Document}
    (hgiven : ∀ entry ∈ document, given entry.2) {item : Item}
    (hkey : mapper.key document = .ok item) : ∀ pair ∈ item, stored pair.2 := by
  simp only [key, Except.bind_eq_ok, Except.pure_eq_ok] at hkey
  obtain ⟨pairs, hpairs, rfl⟩ := hkey
  intro pair hpair
  obtain ⟨field, -, hfield⟩ := exists_related_right (Except.mapM_eq_ok.mp hpairs)
    (Fields.mem_of_mem_ofList hpair)
  exact carries_keyField hcarries hgiven hfield

end Mapper

end ItemMapper
