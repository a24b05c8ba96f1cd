import ItemMapper.Proofs.Marshal.Drafts
import ItemMapper.Proofs.Plain.Codec
import ItemMapper.Proofs.Registration.Shared

/-!
# Writing and reading over another registry

Where two registries share some types, values of these types are written and read over the one as
over the other, with the same results, the same errors and the same calls of the application.  As
in writing itself there are three steps: a value with a type is encoded (`Value.encodeAs_rebase`),
the ways to write what is in a document are the same by recursion on it
(`Value.sameOver_writer`), and those to write a replacement by recursion on the depth
(`Value.sameOver_madeDraft`).  The stages in between draft values as the schema says and do not
look at the registry (`Drafts.write_rebase`).
-/

namespace ItemMapper

variable {σ : Type}

open Pipeline

variable {registry other : Registry σ} {types : CandidateType σ → Prop} {scope : Scope σ}
  {frame : Frame σ} {candidates : List (CandidateType σ)}

/-! ## Values with a type -/

theorem Reading.encodeScalar_rebase (reading : Reading σ) (other : Registry σ) (value : Value) :
    (reading.rebase other).encodeScalar value = reading.encodeScalar value :=
  rfl

section Encoding

variable (hshares : registry.Shares other types)

include hshares

/-- A value that is encoded the same as each type is encoded the same as one of several. -/
theorem Scope.encode_over_of {value : Value}
    (hvalue : ∀ reading : Reading σ, reading.In registry types →
      value.encodeAs (reading.rebase other) = value.encodeAs reading)
    (hscope : scope.In registry types) (htypes : ∀ type ∈ candidates, types type) (place : Place) :
    (scope.rebase other).encode place candidates value = scope.encode place candidates value := by
  rw [encode, encode, resolve_rebase hshares hscope htypes]
  split
  · rfl
  · cases hchoice : scope.resolve place candidates value with
    | error cause => rfl
    | ok choice => exact hvalue _ (in_of_resolve hshares hscope htypes hchoice).2

namespace Value

mutual

/-- A value with a type is encoded the same over both registries. -/
theorem encodeAs_rebase : ∀ (value : Value) (reading : Reading σ), reading.In registry types →
    value.encodeAs (reading.rebase other) = value.encodeAs reading
  | .list items, ⟨scope, place, type⟩, hreading => by
      simp only [encodeAs, Reading.rebase]
      split
      · next elements =>
          rw [encodeItems_rebase items hreading.scope (hshares.element hreading.type)]
      · rfl
  | .map fields, ⟨scope, place, type⟩, hreading => by
      simp only [encodeAs, Reading.rebase, Reading.enter?]
      rw [Scope.enter?_rebase hshares hreading.scope hreading.type]
      cases hframe : scope.enter? place type with
      | none => rfl
      | some frame =>
          dsimp only [Option.map_some]
          rw [encodeFields_rebase fields
            (Scope.in_of_enter? hshares hreading.scope hreading.type hframe)]
  | .undefined, _, _ | .null, _, _ | .bool _, _, _ | .number _, _, _ | .string _, _, _
  | .binary _, _, _ | .date _, _, _ | .set _, _, _ => by
      simp only [encodeAs, Reading.encodeScalar_rebase]

theorem encodeItems_rebase : ∀ (items : List Value) {scope : Scope σ} {place : Place}
    {elements : List (CandidateType σ)} {index : Nat}, scope.In registry types →
      (∀ type ∈ elements, types type) →
        encodeItems (scope.rebase other) place elements index items =
          encodeItems scope place elements index items
  | [], _, _, _, _, _, _ => rfl
  | item :: rest, _, _, _, _, hscope, htypes => by
      rw [encodeItems_cons, encodeItems_cons, encodeItems_rebase rest hscope htypes,
        Scope.encode_over_of hshares (encodeAs_rebase item) hscope htypes]

theorem encodeFields_rebase : ∀ (fields : List (String × Value)) {frame : Frame σ},
    frame.In registry types → encodeFields (frame.rebase other) fields = encodeFields frame fields
  | [], _, _ => rfl
  | (key, value) :: rest, frame, hframe => by
      have hfield : (frame.rebase other).encodeField key value = frame.encodeField key value := by
        simp only [Frame.encodeField, Frame.rebase]
        cases hfield : frame.schema.nativeAttribute? key with
        | none =>
            dsimp only
            rw [keep?_rebase]
        | some field =>
            dsimp only
            rw [Scope.encode_over_of hshares (encodeAs_rebase value) hframe.scope
              (hframe.schema.nativeAttribute? hfield)]
      rw [encodeFields_cons, encodeFields_cons, encodeFields_rebase rest hframe, hfield]

end

end Value

theorem Scope.encode_rebase (hscope : scope.In registry types)
    (htypes : ∀ type ∈ candidates, types type) (place : Place) (value : Value) :
    (scope.rebase other).encode place candidates value = scope.encode place candidates value :=
  encode_over_of hshares (value.encodeAs_rebase hshares) hscope htypes place

end Encoding

/-! ## Drafts -/

/-- A draft is written the same over both registries. -/
def Draft.SameOver (registry other : Registry σ) (types : CandidateType σ → Prop)
    (draft : Draft σ) : Prop :=
  ∀ (scope : Scope σ) (place : Place) (candidates : List (CandidateType σ)),
    scope.In registry types → (∀ type ∈ candidates, types type) →
      draft.write (scope.rebase other) place candidates = draft.write scope place candidates

namespace Drafts

variable {make : Value → Draft σ} {writing : Writing} {drafts : Fields (Draft σ)}

theorem encodeAttribute_rebase (hframe : frame.In registry types)
    (hdrafts : All (fun _ => True) (Draft.SameOver registry other types) drafts)
    {field : Attribute σ} (hfield : field ∈ frame.schema.attributes) :
    encodeAttribute writing (frame.rebase other) drafts field =
      encodeAttribute writing frame drafts field := by
  simp only [encodeAttribute, Frame.rebase]
  cases hdraft : defined? drafts field.name with
  | none => rfl
  | some draft =>
      dsimp only
      rw [hdrafts.defined? hdraft _ _ _ hframe.scope (hframe.schema field hfield)]

theorem encodeUnknown_rebase (frame : Frame σ) (other : Registry σ) (drafts : Fields (Draft σ)) :
    encodeUnknown (frame.rebase other) drafts = encodeUnknown frame drafts := by
  simp only [encodeUnknown, Frame.rebase, Value.keep?_rebase]

/-- A document is taken through the same stages, and its drafts are written the same in the end. -/
theorem write_rebase (hmake : ∀ value, (make value).SameOver registry other types)
    (hframe : frame.In registry types) {fields : List (String × Draft σ)}
    (hfields : ∀ field ∈ fields, field.2.SameOver registry other types) :
    write make writing (frame.rebase other) fields = write make writing frame fields := by
  rw [write_eq, write_eq]
  refine bind_congr_of_yields fun drafts before after hrun => ?_
  have hdrafts : All (fun _ => True) (Draft.SameOver registry other types) drafts :=
    all_of_yields_settle .all hmake (fun field hfield => ⟨trivial, hfields field hfield⟩) hrun
  simp only [encode, encodeUnknown_rebase]
  exact congrArg (· >>= _) (mapM_congr fun field => encodeAttribute_rebase hframe hdrafts)

end Drafts

/-! ## Ways to write -/

section Writing

variable {make : Value → Draft σ} {writing : Writing}

theorem Value.writeChosen_rebase (hshares : registry.Shares other types)
    (hscope : scope.In registry types) (htypes : ∀ type ∈ candidates, types type) {place : Place}
    {value : Value} {inside farther : CandidateType σ → Option (Pipeline σ WireValue)}
    (hinside : ∀ type ∈ candidates, farther type = inside type) :
    value.writeChosen writing (scope.rebase other) place candidates farther =
      value.writeChosen writing scope place candidates inside := by
  rw [writeChosen, writeChosen, Scope.resolve_rebase hshares hscope htypes]
  cases hchoice : scope.resolve place candidates value with
  | error cause => rfl
  | ok choice =>
      obtain ⟨htype, hreading⟩ := Scope.in_of_resolve hshares hscope htypes hchoice
      dsimp only [Except.map, Choice.rebase]
      rw [hinside _ htype, value.encodeAs_rebase hshares _ hreading]

namespace Value

mutual

/-- The way to write a value is the same over both registries. -/
theorem sameOver_writer (hshares : registry.Shares other types)
    (hmake : ∀ value, (make value).SameOver registry other types) :
    ∀ value : Value, Draft.SameOver registry other types ⟨value, value.writer make writing⟩
  | .undefined, _, _, _, _, _ => by simp only [writer]
  | .list items, scope, place, candidates, hscope, htypes => by
      simp only [writer]
      refine writeChosen_rebase hshares hscope htypes fun type htype => ?_
      cases type with
      | array elements =>
          dsimp only
          rw [writeItems_rebase hshares hmake items hscope (hshares.element (htypes _ htype))]
      | _ => rfl
  | .map fields, scope, place, candidates, hscope, htypes => by
      simp only [writer]
      refine writeChosen_rebase hshares hscope htypes fun type htype => ?_
      rw [Scope.enter?_rebase hshares hscope (htypes type htype)]
      cases hframe : scope.enter? place type with
      | none => rfl
      | some frame =>
          dsimp only [Option.map_some]
          rw [Drafts.write_rebase hmake
            (Scope.in_of_enter? hshares hscope (htypes type htype) hframe)
            (sameOver_drafts hshares hmake fields)]
  | .null, _, _, _, hscope, htypes | .bool _, _, _, _, hscope, htypes
  | .number _, _, _, _, hscope, htypes | .string _, _, _, _, hscope, htypes
  | .binary _, _, _, _, hscope, htypes | .date _, _, _, _, hscope, htypes
  | .set _, _, _, _, hscope, htypes => by
      simp only [writer]
      exact writeChosen_rebase hshares hscope htypes fun _ _ => rfl

theorem writeItems_rebase (hshares : registry.Shares other types)
    (hmake : ∀ value, (make value).SameOver registry other types) :
    ∀ (items : List Value) {scope : Scope σ} {place : Place} {elements : List (CandidateType σ)}
      {index : Nat}, scope.In registry types → (∀ type ∈ elements, types type) →
        writeItems make writing (scope.rebase other) place elements index items =
          writeItems make writing scope place elements index items
  | [], _, _, _, _, _, _ => by simp only [writeItems]
  | item :: rest, scope, _, elements, _, hscope, htypes => by
      have hitem : ∀ place, item.writer make writing (scope.rebase other) place elements =
          item.writer make writing scope place elements :=
        fun place => sameOver_writer hshares hmake item scope place elements hscope htypes
      simp only [writeItems, hitem, writeItems_rebase hshares hmake rest hscope htypes]

theorem sameOver_drafts (hshares : registry.Shares other types)
    (hmake : ∀ value, (make value).SameOver registry other types) :
    ∀ fields : List (String × Value),
      ∀ draft ∈ drafts make writing fields, draft.2.SameOver registry other types
  | [] => by simp [drafts]
  | (key, value) :: rest => by
      rw [drafts, List.forall_mem_cons]
      exact ⟨sameOver_writer hshares hmake value, sameOver_drafts hshares hmake rest⟩

end

/-! ### Replacements -/

variable (hshares : registry.Shares other types)

include hshares

theorem sameOver_shallowDraft (value : Value) :
    (value.shallowDraft (σ := σ) writing).SameOver registry other types := by
  intro scope place candidates hscope htypes
  unfold shallowDraft
  cases value with
  | undefined | list _ | map _ => rfl
  | _ =>
      dsimp only
      exact writeChosen_rebase hshares hscope htypes fun _ _ => rfl

theorem sameOver_writerTo : ∀ (depth : Nat) (value : Value),
    Draft.SameOver registry other types ⟨value, writerTo writing depth value⟩
  | 0, value => by
      rw [writerTo]
      exact sameOver_writer hshares (sameOver_shallowDraft hshares) value
  | depth + 1, value => by
      rw [writerTo]
      exact sameOver_writer hshares (sameOver_writerTo depth) value

theorem sameOver_madeDraft (depth : Nat) (value : Value) :
    (madeDraft writing depth value).SameOver registry other types := by
  cases depth with
  | zero => exact sameOver_shallowDraft hshares value
  | succ depth => exact sameOver_writerTo hshares depth value

end Value

/-- A document is written the same over both registries. -/
theorem Frame.write_rebase (hshares : registry.Shares other types)
    (hframe : frame.In registry types) (writing : Writing) (document : Document) :
    (frame.rebase other).write writing document = frame.write writing document :=
  Drafts.write_rebase (Value.sameOver_madeDraft hshares writing.depth) hframe
    (Value.sameOver_drafts hshares (Value.sameOver_madeDraft hshares writing.depth) document)

end Writing

/-! ## Ways to read -/

theorem WireValue.decodeLeaf_rebase (stored : WireValue) (reading : Reading σ)
    (other : Registry σ) : stored.decodeLeaf (reading.rebase other) = stored.decodeLeaf reading :=
  rfl

/-- A stored value is read the same over both registries. -/
def Source.SameOver (registry other : Registry σ) (types : CandidateType σ → Prop)
    (source : Source σ) : Prop :=
  ∀ (scope : Scope σ) (place : Place) (candidates : List (CandidateType σ)),
    scope.In registry types → (∀ type ∈ candidates, types type) →
      source.read (scope.rebase other) place candidates = source.read scope place candidates

namespace Sources

variable {options : MarshalOptions} {sources : Fields (Source σ)}

theorem readAttribute_rebase (hframe : frame.In registry types)
    (hsources : ∀ source ∈ sources, source.2.SameOver registry other types)
    {field : Attribute σ} (hfield : field ∈ frame.schema.attributes) (document : Document) :
    readAttribute options (frame.rebase other) sources document field =
      readAttribute options frame sources document field := by
  simp only [readAttribute, Frame.rebase]
  cases hsource : sources.get? field.name with
  | none => rfl
  | some source =>
      dsimp only
      rw [hsources _ (Fields.mem_of_get? hsource) _ _ _ hframe.scope (hframe.schema field hfield)]

theorem readUnknown_rebase (frame : Frame σ) (other : Registry σ) (document : Document)
    (field : String × Source σ) :
    readUnknown (frame.rebase other) document field = readUnknown frame document field := by
  simp only [readUnknown, Frame.rebase, WireValue.keep?_rebase]

theorem read_rebase (hframe : frame.In registry types)
    (hsources : ∀ source ∈ sources, source.2.SameOver registry other types) :
    read options (frame.rebase other) sources = read options frame sources := by
  have hunknown : readUnknown (frame.rebase other) = readUnknown frame :=
    funext fun document => funext fun field => readUnknown_rebase frame other document field
  simp only [read, hunknown]
  exact congrArg (· >>= _) (foldlM_congr (fun _ => readAttribute_rebase hframe hsources) [])

end Sources

section Reading

variable {options : MarshalOptions}

namespace WireValue

theorem readChosen_rebase (hshares : registry.Shares other types)
    (hscope : scope.In registry types) (htypes : ∀ type ∈ candidates, types type) {place : Place}
    {stored : WireValue} {inside farther : CandidateType σ → Option (Pipeline σ Value)}
    (hinside : ∀ type ∈ candidates, farther type = inside type) :
    stored.readChosen options (scope.rebase other) place candidates farther =
      stored.readChosen options scope place candidates inside := by
  rw [readChosen, readChosen, Scope.resolveStored_rebase hshares hscope htypes]
  cases hchoice : scope.resolveStored place candidates stored with
  | error cause => rfl
  | ok choice =>
      dsimp only [Except.map, Choice.rebase]
      rw [hinside _ (Scope.mem_of_resolveStored hchoice), decodeLeaf_rebase]

mutual

/-- The way to read a stored value is the same over both registries. -/
theorem sameOver_reader (hshares : registry.Shares other types) :
    ∀ stored : WireValue, Source.SameOver registry other types ⟨stored, stored.reader options⟩
  | .list items, scope, place, candidates, hscope, htypes => by
      simp only [reader]
      refine readChosen_rebase hshares hscope htypes fun type htype => ?_
      cases type with
      | array elements =>
          dsimp only
          rw [readItems_rebase hshares items hscope (hshares.element (htypes _ htype))]
      | _ => rfl
  | .map fields, scope, place, candidates, hscope, htypes => by
      simp only [reader]
      refine readChosen_rebase hshares hscope htypes fun type htype => ?_
      rw [Scope.enter?_rebase hshares hscope (htypes type htype)]
      cases hframe : scope.enter? place type with
      | none => rfl
      | some frame =>
          dsimp only [Option.map_some]
          rw [Sources.read_rebase (Scope.in_of_enter? hshares hscope (htypes type htype) hframe)
            (sameOver_sources hshares fields)]
  | .string _, _, _, _, hscope, htypes | .number _, _, _, _, hscope, htypes
  | .binary _, _, _, _, hscope, htypes | .boolean _, _, _, _, hscope, htypes
  | .null _, _, _, _, hscope, htypes | .stringSet _, _, _, _, hscope, htypes
  | .numberSet _, _, _, _, hscope, htypes | .binarySet _, _, _, _, hscope, htypes => by
      simp only [reader]
      exact readChosen_rebase hshares hscope htypes fun _ _ => rfl

theorem readItems_rebase (hshares : registry.Shares other types) :
    ∀ (items : List WireValue) {scope : Scope σ} {place : Place}
      {elements : List (CandidateType σ)} {index : Nat}, scope.In registry types →
        (∀ type ∈ elements, types type) →
          readItems options (scope.rebase other) place elements index items =
            readItems options scope place elements index items
  | [], _, _, _, _, _, _ => by simp only [readItems]
  | item :: rest, scope, _, elements, _, hscope, htypes => by
      have hitem : ∀ place, item.reader options (scope.rebase other) place elements =
          item.reader options scope place elements :=
        fun place => sameOver_reader hshares item scope place elements hscope htypes
      simp only [readItems, hitem, readItems_rebase hshares rest hscope htypes]

theorem sameOver_sources (hshares : registry.Shares other types) :
    ∀ fields : List (String × WireValue),
      ∀ source ∈ sources options fields, source.2.SameOver registry other types
  | [] => by simp [sources]
  | (key, stored) :: rest => by
      rw [sources, List.forall_mem_cons]
      exact ⟨sameOver_reader hshares stored, sameOver_sources hshares rest⟩

end

end WireValue

/-- An item is read the same over both registries. -/
theorem Frame.read_rebase (hshares : registry.Shares other types) (hframe : frame.In registry types)
    (options : MarshalOptions) (item : Item) :
    (frame.rebase other).read options item = frame.read options item :=
  Sources.read_rebase hframe (WireValue.sameOver_sources hshares item)

end Reading

end ItemMapper
