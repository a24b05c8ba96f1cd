import ItemMapper.Proofs.Marshal.Drafts
import ItemMapper.Proofs.Marshal.Vanishing
import ItemMapper.Proofs.Plain.Assignments
import ItemMapper.Proofs.Reading.Documents

/-!
# All documents of an item

A document is written by settling its fields and encoding what they have become, and the documents
in these values are written in the same way.  What holds of each document that passes through the
stages can therefore be said of all of them at once: `Frame.Throughout` goes through an item along
with the values that it is written from, lists item by item, documents by their settled fields, and
all other values as a whole.  A claim about documents shows what one run of the stages does, and
`Frame.throughout_of_yields` is the recursion.

Values that are written as a whole are not looked into.  The only documents that they hide stand in
a list that is the key of a referenced model, which the codec alone stores.
-/

namespace ItemMapper

variable {σ : Type}

open Pipeline

/-- The stages before attributes are encoded may turn the fields of a document into these values,
depending on the state of the application and on how deep the document stands in replacements. -/
def Frame.Settles (frame : Frame σ) (writing : Writing) (fields : List (String × Value))
    (settled : Document) : Prop :=
  ∃ depth before drafts after,
    Yields (Drafts.settle (Value.madeDraft writing depth) writing frame.schema frame.place
      (Value.drafts (Value.madeDraft writing depth) writing fields)) before drafts after ∧
    Drafts.values drafts = settled

/-- A run of the stages turns the fields of a document into the settled ones and stores these. -/
def Frame.Stores (frame : Frame σ) (writing : Writing) (fields : List (String × Value))
    (settled : Document) (item : Item) : Prop :=
  ∃ depth before drafts between after,
    Yields (Drafts.settle (Value.madeDraft writing depth) writing frame.schema frame.place
      (Value.drafts (Value.madeDraft writing depth) writing fields)) before drafts between ∧
    Yields (Drafts.encode writing frame drafts) between item after ∧
    Drafts.values drafts = settled

theorem Frame.Stores.settles {frame : Frame σ} {writing : Writing} {fields : List (String × Value)}
    {settled : Document} {item : Item} (hstores : frame.Stores writing fields settled item) :
    frame.Settles writing fields settled := by
  obtain ⟨depth, before, drafts, between, _, hsettle, -, hvalues⟩ := hstores
  exact ⟨depth, before, drafts, between, hsettle, hvalues⟩

mutual

/-- A property holds of the way in which a document is stored, and of all documents inside. -/
inductive Frame.Throughout (writing : Writing)
    (law : Frame σ → List (String × Value) → Document → Item → Prop) :
    Frame σ → List (String × Value) → Item → Prop where
  | intro {frame : Frame σ} {fields : List (String × Value)} {settled : Document} {item : Item}
      (hsettles : frame.Settles writing fields settled) (hlaw : law frame fields settled item)
      (hgiven : ∀ field ∈ frame.schema.attributes, (item.get? field.name).isSome = true →
        (settled.get? field.name).isSome = true)
      (hinside : ∀ field ∈ frame.schema.attributes, ∀ value stored,
        settled.get? field.name = some value → item.get? field.name = some stored →
          Value.Throughout writing law frame.scope (frame.place.child field.name) field.types value
            stored) :
      Frame.Throughout writing law frame fields item

/-- A property holds of the way in which all documents in a value are stored. -/
inductive Value.Throughout (writing : Writing)
    (law : Frame σ → List (String × Value) → Document → Item → Prop) :
    Scope σ → Place → List (CandidateType σ) → Value → WireValue → Prop where
  /-- A document of an object type, or behind a reference. -/
  | document {scope : Scope σ} {place : Place} {types : List (CandidateType σ)} {choice : Choice σ}
      {frame : Frame σ} {fields : List (String × Value)} {item : Item}
      (hchoice : scope.resolve place types (.map fields) = .ok choice)
      (henter : scope.enter? place choice.type = some frame)
      (hdocument : Frame.Throughout writing law frame fields item) :
      Value.Throughout writing law scope place types (.map fields) (.map item)
  | list {scope : Scope σ} {place : Place} {types elements : List (CandidateType σ)}
      {choice : Choice σ} {items : List Value} {storeds : List WireValue}
      (hchoice : scope.resolve place types (.list items) = .ok choice)
      (harray : choice.type = .array elements)
      (hitems : Value.ItemsThroughout writing law scope place elements 0 items storeds) :
      Value.Throughout writing law scope place types (.list items) (.list storeds)
  /-- A value without documents of its own, or the key of a referenced model. -/
  | whole {scope : Scope σ} {place : Place} {types : List (CandidateType σ)} {choice : Choice σ}
      {value : Value} {stored : WireValue} (hchoice : scope.resolve place types value = .ok choice)
      (hmap : ∀ fields, value = .map fields → choice.reading.enter? = none)
      (hlist : ∀ items elements, value = .list items → choice.reading.type = .array elements →
        ∃ name, choice.type = .model name)
      (hencode : value.encodeAs choice.reading = .ok (some stored)) :
      Value.Throughout writing law scope place types value stored
  /-- A value that has none of the types, where these are not checked. -/
  | untyped {scope : Scope σ} {place : Place} {types : List (CandidateType σ)} {cause : MapperError}
      {value : Value} {stored : WireValue} (hunchecked : writing.options.typeCheck = false)
      (hmisfit : scope.resolve place types value = .error cause)
      (hnatural : value.natural? = some stored) :
      Value.Throughout writing law scope place types value stored

/-- The same of the items of a list, from a position on. -/
inductive Value.ItemsThroughout (writing : Writing)
    (law : Frame σ → List (String × Value) → Document → Item → Prop) :
    Scope σ → Place → List (CandidateType σ) → Nat → List Value → List WireValue → Prop where
  | nil {scope : Scope σ} {place : Place} {elements : List (CandidateType σ)} {index : Nat} :
      Value.ItemsThroughout writing law scope place elements index [] []
  | stored {scope : Scope σ} {place : Place} {elements : List (CandidateType σ)} {index : Nat}
      {item : Value} {rest : List Value} {stored : WireValue} {others : List WireValue}
      (hitem : Value.Throughout writing law scope (place.item index) elements item stored)
      (hrest : Value.ItemsThroughout writing law scope place elements (index + 1) rest others) :
      Value.ItemsThroughout writing law scope place elements index (item :: rest)
        (stored :: others)
  | dropped {scope : Scope σ} {place : Place} {elements : List (CandidateType σ)} {index : Nat}
      {item : Value} {rest : List Value} {others : List WireValue}
      (hitem : item.StoresNothing writing.options.typeCheck scope (place.item index) elements)
      (hrest : Value.ItemsThroughout writing law scope place elements (index + 1) rest others) :
      Value.ItemsThroughout writing law scope place elements index (item :: rest) others

end

/-- The property holds whenever a document that can be reached passes through the stages. -/
structure Scope.Upholds (start : Scope σ) (writing : Writing)
    (law : Frame σ → List (String × Value) → Document → Item → Prop) : Prop where
  wellFormed : ∀ scope schema, start.Reaches scope schema → schema.WellFormed
  holds : ∀ frame fields settled item, frame.schema.WellFormed →
    frame.Stores writing fields settled item → law frame fields settled item

/-- What is stored of a draft, as one of the types that can be reached, holds documents of which the
property holds. -/
def Draft.Upholds (start : Scope σ) (writing : Writing)
    (law : Frame σ → List (String × Value) → Document → Item → Prop) (draft : Draft σ) : Prop :=
  ∀ scope place types before stored after, start.Covers scope → start.MentionsTypes types →
    Yields (draft.write scope place types) before (some stored) after →
      Value.Throughout writing law scope place types draft.value stored

variable {start : Scope σ} {writing : Writing}
  {law : Frame σ → List (String × Value) → Document → Item → Prop}

/-! ## Documents -/

namespace Drafts

variable {frame : Frame σ} {drafts : Fields (Draft σ)} {before after : σ} {item : Item}

/-- What an item holds of an attribute is what has been encoded for it. -/
theorem exists_encodeAttribute_of_yields_encode (hschema : frame.schema.WellFormed)
    (hrun : Yields (encode writing frame drafts) before item after) {field : Attribute σ}
    (hfield : field ∈ frame.schema.attributes) :
    ∃ entry first last, Yields (encodeAttribute writing frame drafts field) first entry last ∧
      item.get? field.name = entry.map Prod.snd := by
  obtain ⟨entries, _, hentries, hitem⟩ := yields_bind.mp hrun
  obtain ⟨rfl, rfl⟩ := yields_pure.mp hitem
  obtain ⟨_, _, _, entry, first, last, -, -, hentry, hmem⟩ := hentries.exists_of_mem_mapM hfield
  exact ⟨entry, first, last, hentry, get?_of_entries hschema
    (hentries.forall₂_mapM fun _ _ _ _ => name_of_encodeAttribute) hmem⟩

/-- If the property holds of what is written of each draft, it holds throughout the document. -/
theorem throughout_of_yields (hholds : start.Upholds writing law)
    (hcovers : start.Covers frame.scope) (hmentions : start.Mentions frame.schema)
    {fields : List (String × Value)} {depth : Nat}
    (hmake : ∀ value, (Value.madeDraft writing depth value).Upholds start writing law)
    (hfields : ∀ field ∈ Value.drafts (Value.madeDraft writing depth) writing fields,
      field.2.Upholds start writing law)
    (hrun : Yields (write (Value.madeDraft writing depth) writing frame
      (Value.drafts (Value.madeDraft writing depth) writing fields)) before item after) :
    Frame.Throughout writing law frame fields item := by
  obtain ⟨reached, hreaches⟩ := hmentions
  have hschema := hholds.wellFormed reached frame.schema hreaches
  rw [write_eq] at hrun
  obtain ⟨drafts, between, hsettle, hencode⟩ := yields_bind.mp hrun
  have hall : All (fun _ => True) (Draft.Upholds start writing law) drafts :=
    all_of_yields_settle .all hmake (fun field hfield => ⟨trivial, hfields field hfield⟩) hsettle
  have hstores : frame.Stores writing fields (values drafts) item :=
    ⟨depth, before, drafts, between, after, hsettle, hencode, rfl⟩
  refine .intro hstores.settles (hholds.holds _ _ _ _ hschema hstores) ?_ ?_
  · intro field hfield hsome
    obtain ⟨entry, _, _, hentry, hget⟩ := exists_encodeAttribute_of_yields_encode hschema hencode hfield
    rw [values, Fields.get?_mapValues, Option.isSome_map]
    rcases of_yields_encodeAttribute hentry with ⟨-, rfl⟩ | ⟨draft, _, _, _, hdraft, -, -⟩
    · simp [hget] at hsome
    · exact Option.isSome_of_eq_some (Option.filter_eq_some_iff.mp hdraft).1
  · intro field hfield value stored hvalue hholds
    obtain ⟨draft, hdraft, rfl⟩ := Option.map_eq_some_iff.mp
      ((Fields.get?_mapValues ..).symm.trans hvalue)
    obtain ⟨entry, _, _, hentry, hget⟩ := exists_encodeAttribute_of_yields_encode hschema hencode hfield
    rw [hget] at hholds
    rcases of_yields_encodeAttribute_draft hdraft hentry with
      ⟨-, rfl⟩ | ⟨found, _, _, hstored, rfl⟩
    · contradiction
    · obtain ⟨_, hfound, rfl⟩ := Option.map_eq_some_iff.mp hholds
      obtain ⟨written, rfl, rfl⟩ := Option.map_eq_some_iff.mp hfound
      exact (hall _ (Fields.mem_of_get? hdraft)).2 _ _ _ _ _ _ hcovers
        (Scope.mentionsTypes_of_field ⟨reached, hreaches⟩ hfield) hstored

end Drafts

/-! ## Values -/

namespace Value

variable {value : Value} {scope : Scope σ} {place : Place} {types : List (CandidateType σ)}

/-- A value that is written as a whole hides no documents but those of a key. -/
theorem throughout_of_encodeAs {choice : Choice σ}
    (hchoice : scope.resolve place types value = .ok choice)
    (hmap : ∀ fields, value = .map fields → scope.enter? place choice.type = none)
    (hlist : ∀ items, value = .list items → ∀ elements, choice.type ≠ .array elements)
    {stored : WireValue} (hencode : value.encodeAs choice.reading = .ok (some stored)) :
    Value.Throughout writing law scope place types value stored := by
  refine .whole hchoice (fun fields hvalue => ?_) (fun items elements hvalue harray => ?_) hencode
  · have hreading := Scope.reading_of_document hchoice (by rw [hvalue]; rfl)
    rw [hreading]
    exact hmap fields hvalue
  · by_contra hkey
    have hreading := (Scope.of_resolve hchoice).2
    rw [Scope.readings_of_ne_model fun name hname => hkey ⟨name, hname⟩, List.mem_singleton] at hreading
    rw [hreading] at harray
    exact hlist items hvalue elements harray

theorem throughout_writeChosen {inside : CandidateType σ → Option (Pipeline σ WireValue)}
    (hinside : ∀ (choice : Choice σ) nested, scope.resolve place types value = .ok choice →
      inside choice.type = some nested → ∀ before stored after,
        Yields nested before stored after →
          Value.Throughout writing law scope place types value stored)
    (hwhole : ∀ choice : Choice σ, inside choice.type = none →
      (∀ fields, value = .map fields → scope.enter? place choice.type = none) ∧
        ∀ items, value = .list items → ∀ elements, choice.type ≠ .array elements)
    {before after : σ} {stored : WireValue}
    (hrun : Yields (value.writeChosen writing scope place types inside) before (some stored) after) :
    Value.Throughout writing law scope place types value stored := by
  unfold writeChosen at hrun
  split at hrun
  · next cause hmisfit =>
      split at hrun
      · exact (yields_throw.mp hrun).elim
      · next hunchecked =>
          exact .untyped (by simpa using hunchecked) hmisfit (yields_pure.mp hrun).1
  · next choice hchoice =>
      split at hrun
      · next nested hnested =>
          obtain ⟨written, _, hwritten, hsome⟩ := yields_bind.mp hrun
          obtain rfl := Option.some.inj (yields_pure.mp hsome).1
          exact hinside choice nested hchoice hnested _ _ _ hwritten
      · next hnone =>
          obtain ⟨hmap, hlist⟩ := hwhole choice hnone
          exact throughout_of_encodeAs hchoice hmap hlist (yields_ofExcept.mp hrun).1

mutual

theorem upholds_writer (hholds : start.Upholds writing law) {depth : Nat}
    (hmake : ∀ value, (madeDraft writing depth value).Upholds start writing law) :
    ∀ value : Value,
      Draft.Upholds start writing law ⟨value, value.writer (madeDraft writing depth) writing⟩
  | .undefined => by
      intro scope place types before stored after _ _ hrun
      simp only [writer] at hrun
      cases (yields_pure.mp hrun).1
  | .list items => by
      intro scope place types before stored after hcovers hmentions hrun
      simp only [writer] at hrun
      refine throughout_writeChosen
        (fun choice nested hchoice hnested before stored after hstored => ?_)
        (fun choice hnone => ⟨fun _ hvalue => by contradiction, fun _ _ elements harray => ?_⟩) hrun
      · split at hnested
        · next elements harray =>
            obtain rfl := Option.some.inj hnested
            obtain ⟨storeds, _, hstoreds, hlist⟩ := yields_bind.mp hstored
            obtain rfl := (yields_pure.mp hlist).1
            have helements := Scope.mentionsTypes_of_array
              (harray ▸ hmentions choice.type (Scope.of_resolve hchoice).1)
            exact .list hchoice harray
              (throughout_writeItems hholds hmake items hcovers helements hstoreds)
        · contradiction
      · simp [harray] at hnone
  | .map fields => by
      intro scope place types before stored after hcovers hmentions hrun
      simp only [writer] at hrun
      refine throughout_writeChosen
        (fun choice nested hchoice hnested before stored after hstored => ?_)
        (fun choice hnone => ⟨fun _ _ => by simpa using hnone, fun _ hvalue => by contradiction⟩) hrun
      obtain ⟨frame, henter, rfl⟩ := Option.map_eq_some_iff.mp hnested
      obtain ⟨item, _, hitem, hmap⟩ := yields_bind.mp hstored
      obtain rfl := (yields_pure.mp hmap).1
      obtain ⟨hinner, hreaches⟩ :=
        hcovers.enter? (hmentions choice.type (Scope.of_resolve hchoice).1) henter
      exact .document hchoice henter (Drafts.throughout_of_yields hholds hinner hreaches hmake
        (upholds_drafts hholds hmake fields) hitem)
  | .null | .bool _ | .number _ | .string _ | .binary _ | .date _ | .set _ => by
      intro scope place types before stored after _ _ hrun
      simp only [writer] at hrun
      exact throughout_writeChosen (fun _ _ _ hnone => by contradiction)
        (fun _ _ => ⟨fun _ hvalue => by contradiction, fun _ hvalue => by contradiction⟩) hrun

theorem throughout_writeItems (hholds : start.Upholds writing law) {depth : Nat}
    (hmake : ∀ value, (madeDraft writing depth value).Upholds start writing law) :
    ∀ (items : List Value) {scope : Scope σ} {place : Place} {elements : List (CandidateType σ)}
      {index : Nat} {before after : σ} {storeds : List WireValue}, start.Covers scope →
      start.MentionsTypes elements →
      Yields (writeItems (madeDraft writing depth) writing scope place elements index items) before
        storeds after →
      Value.ItemsThroughout writing law scope place elements index items storeds
  | [], _, _, _, _, _, _, _, _, _, hrun => by
      rw [writeItems] at hrun
      obtain rfl := (yields_pure.mp hrun).1
      exact .nil
  | item :: rest, _, _, _, _, _, _, _, hcovers, hmentions, hrun => by
      simp only [writeItems, yields_bind, yields_pure] at hrun
      obtain ⟨stored, _, hstored, others, _, hothers, rfl, -⟩ := hrun
      have hrest := throughout_writeItems hholds hmake rest hcovers hmentions hothers
      cases stored with
      | none => exact .dropped ((tells_writer item hstored).mp rfl) hrest
      | some stored =>
          exact .stored (upholds_writer hholds hmake item _ _ _ _ _ _ hcovers hmentions hstored) hrest

theorem upholds_drafts (hholds : start.Upholds writing law) {depth : Nat}
    (hmake : ∀ value, (madeDraft writing depth value).Upholds start writing law) :
    ∀ fields : List (String × Value), ∀ draft ∈ drafts (madeDraft writing depth) writing fields,
      draft.2.Upholds start writing law
  | [] => by simp [drafts]
  | (key, value) :: rest => by
      rw [drafts, List.forall_mem_cons]
      exact ⟨upholds_writer hholds hmake value, upholds_drafts hholds hmake rest⟩

end

theorem upholds_madeDraft (hholds : start.Upholds writing law) (depth : Nat) (value : Value) :
    (madeDraft writing depth value).Upholds start writing law := by
  induction depth generalizing value with
  | zero =>
      intro scope place types before stored after _ _ hrun
      simp only [madeDraft, shallowDraft] at hrun
      split at hrun
      · cases (yields_pure.mp hrun).1
      · exact (yields_throw.mp hrun).elim
      · exact (yields_throw.mp hrun).elim
      · next hlist hmap =>
          exact throughout_writeChosen (fun _ _ _ hnone => by contradiction)
            (fun _ _ => ⟨fun fields hvalue => (hmap fields hvalue).elim,
              fun items hvalue => (hlist items hvalue).elim⟩) hrun
  | succ depth ih =>
      rw [madeDraft, writerTo_eq]
      exact upholds_writer hholds ih value

end Value

/-- A property of all documents that pass through the stages holds throughout an item. -/
theorem Frame.throughout_of_yields (hholds : start.Upholds writing law) {document : Document}
    {before after : σ} {item : Item}
    (hrun : Yields (start.frame.write writing document) before item after) :
    Frame.Throughout writing law start.frame document item := by
  have hmade := Value.upholds_madeDraft hholds writing.depth
  exact Drafts.throughout_of_yields hholds ⟨rfl, start, .root⟩ ⟨start, .root⟩ hmade
    (Value.upholds_drafts hholds hmade document) hrun

end ItemMapper
