import ItemMapper.Proofs.Marshal.Failures
import ItemMapper.Proofs.Marshal.Throughout
import ItemMapper.Proofs.Unchecked.Refusals

/-!
# Writing without the check of types

The check of types decides about values that none of the types takes: without it they take their
natural form.  It does not decide about values that have been chosen a type which then refuses them.
`Value.HoldsRefused` follows the writing of a document to such a value, through nested documents as
the stages settle them and through lists.

Without the check a document fails for the type of a value only if there is a refused value in it
(`Frame.failsOnly_write`).  Where the stages leave everything as it is, nothing else makes it fail
(`Frame.failsOnly_write_unchecked`, `Frame.HoldsRefused.exists_fails`).
-/

namespace ItemMapper

variable {σ : Type}

open Pipeline

/-- Conversion alone, with natural forms for values that have none of their types. -/
def MarshalOptions.unchecked : MarshalOptions :=
  { plain with typeCheck := false }

/-! ## Refused values -/

/-- A refused value stands somewhere in a value as it is written. -/
inductive Value.HoldsRefused (writing : Writing) :
    Scope σ → Place → List (CandidateType σ) → Value → Prop
  | here {scope : Scope σ} {place : Place} {types : List (CandidateType σ)} {value : Value}
      (hrefused : value.Refused scope place types) : HoldsRefused writing scope place types value
  | item {scope : Scope σ} {place : Place} {types elements : List (CandidateType σ)}
      {choice : Choice σ} {items : List Value} {index : Nat} {item : Value}
      (hchoice : scope.resolve place types (.list items) = .ok choice)
      (harray : choice.type = .array elements) (hitem : items[index]? = some item)
      (hinside : HoldsRefused writing scope (place.item index) elements item) :
      HoldsRefused writing scope place types (.list items)
  | field {scope : Scope σ} {place : Place} {types : List (CandidateType σ)} {choice : Choice σ}
      {frame : Frame σ} {fields : List (String × Value)} {settled : Document}
      {field : Attribute σ} {value : Value}
      (hchoice : scope.resolve place types (.map fields) = .ok choice)
      (henter : scope.enter? place choice.type = some frame)
      (hsettles : frame.Settles writing fields settled) (hfield : field ∈ frame.schema.attributes)
      (hvalue : settled.get? field.name = some value)
      (hinside : HoldsRefused writing frame.scope (frame.place.child field.name) field.types
        value) :
      HoldsRefused writing scope place types (.map fields)

/-- A refused value stands somewhere in a document as it is written. -/
def Frame.HoldsRefused (frame : Frame σ) (writing : Writing) (fields : List (String × Value)) :
    Prop :=
  ∃ settled, frame.Settles writing fields settled ∧ ∃ field ∈ frame.schema.attributes, ∃ value,
    settled.get? field.name = some value ∧
      value.HoldsRefused writing frame.scope (frame.place.child field.name) field.types

/-- A failure that has nothing to do with types, or one for a type where a value is refused. -/
def Blame (aside : MapperError → Prop) (refused : Prop) (cause : MapperError) : Prop :=
  aside cause ∨ (cause.IsMismatch ∧ refused)

namespace Blame

variable {aside : MapperError → Prop} {refused other : Prop} {cause : MapperError}

theorem imp (hrefused : refused → other) (hblame : Blame aside refused cause) :
    Blame aside other cause :=
  hblame.imp_right (And.imp_right hrefused)

/-- A failure for a type, where others are aside. -/
theorem of_isMismatch (hblame : Blame (fun cause => ¬ cause.IsMismatch) refused cause)
    (hmismatch : cause.IsMismatch) : refused :=
  (hblame.resolve_left (not_not.mpr hmismatch)).2

/-- A failure where there are no others. -/
theorem alone (hblame : Blame (fun _ => False) refused cause) : cause.IsMismatch ∧ refused :=
  hblame.resolve_left not_false

end Blame

/-! ## Failures of writing -/

section Writing

variable {writing : Writing} {depth : Nat} {aside : MapperError → Prop}

/-- Writing a draft as whatever type fails aside or, for its type, at a refused value. -/
def Draft.Blames (writing : Writing) (aside : MapperError → Prop) (draft : Draft σ) : Prop :=
  ∀ scope place types, FailsOnly
    (Blame aside (draft.value.HoldsRefused writing scope place types))
    (draft.write scope place types)

/-- The stages fail aside only, and no draft that they settle is at fault if none of the fields
is. -/
structure Drafts.FailAside (σ : Type) (writing : Writing) (depth : Nat)
    (aside : MapperError → Prop) : Prop where
  settle : ∀ (schema : Schema σ) place fields,
    FailsOnly aside (settle (Value.madeDraft writing depth) writing schema place fields)
  settled : ∀ (schema : Schema σ) place fields drafts before after,
    (∀ field ∈ fields, field.2.Blames writing aside) →
      Yields (Drafts.settle (Value.madeDraft writing depth) writing schema place fields) before
        drafts after →
        ∀ field ∈ drafts, field.2.Blames writing aside
  missing : ∀ given : Option (Draft σ), isMissing writing.options.required given = true →
    ∀ path, aside (.validation (.missing path))
  check : ∀ (field : Attribute σ) value path,
    FailsOnly aside (checkValue writing.options field value path)

/-- If only refused values fail in the fields of a document, then so it is in the document. -/
theorem Drafts.failsOnly_write (hstages : FailAside σ writing depth aside) (frame : Frame σ)
    {fields : List (String × Value)}
    (hfields : ∀ field ∈ Value.drafts (Value.madeDraft writing depth) writing fields,
      Draft.Blames (σ := σ) writing aside field.2) :
    FailsOnly (Blame aside (frame.HoldsRefused writing fields))
      (write (Value.madeDraft writing depth) writing frame
        (Value.drafts (Value.madeDraft writing depth) writing fields)) := by
  rw [write_eq]
  refine ((hstages.settle frame.schema frame.place _).mono fun _ => .inl).bind
    fun before drafts after hsettle => ?_
  refine .bind (.mapM fun field hfield => failsOnly_encodeAttribute
    (fun given hmissing path => .inl (hstages.missing given hmissing path))
    (fun value path => (hstages.check field value path).mono fun _ => .inl)
    fun draft hdraft => ?_) fun _ _ _ _ => .pure _
  have hget := (Option.filter_eq_some_iff.mp hdraft).1
  refine (hstages.settled _ _ _ _ _ _ hfields hsettle _ (Fields.mem_of_get? hget) _ _ _).mono
    fun cause => .imp fun hrefused => ?_
  refine ⟨values drafts, ⟨depth, before, drafts, after, hsettle, rfl⟩, field, hfield, draft.value,
    ?_, hrefused⟩
  rw [values, Fields.get?_mapValues, hget, Option.map_some]

namespace Value

/-- A value fails inside, or because the chosen type refuses it. -/
theorem failsOnly_writeChosen (hcheck : writing.options.typeCheck = false) {value : Value}
    {scope : Scope σ} {place : Place} {types : List (CandidateType σ)}
    {inside : CandidateType σ → Option (Pipeline σ WireValue)}
    (hinside : ∀ (choice : Choice σ) nested, scope.resolve place types value = .ok choice →
      inside choice.type = some nested →
        FailsOnly (Blame aside (value.HoldsRefused writing scope place types)) nested)
    (hwhole : ∀ choice : Choice σ, inside choice.type = none →
      (∀ fields, value = .map fields → scope.enter? place choice.type = none) ∧
        ∀ items, value = .list items → ∀ elements, choice.type ≠ .array elements) :
    FailsOnly (Blame aside (value.HoldsRefused writing scope place types))
      (value.writeChosen writing scope place types inside) := by
  unfold writeChosen
  split
  · rw [hcheck]
    exact .pure _
  · next choice hchoice =>
      split
      · next nested hnested =>
          exact (hinside choice nested hchoice hnested).bind fun _ _ _ _ => .pure _
      · next hnone =>
          obtain ⟨hmap, hlist⟩ := hwhole choice hnone
          exact .ofExcept fun cause hencode => .inr ⟨isMismatch_of_encodeAs value hencode,
            .here (refused_of_encodeAs hchoice hmap hlist hencode)⟩

mutual

theorem blames_writer (hcheck : writing.options.typeCheck = false)
    (hstages : Drafts.FailAside σ writing depth aside) : ∀ value : Value,
      Draft.Blames (σ := σ) writing aside ⟨value, value.writer (madeDraft writing depth) writing⟩
  | .undefined => by
      intro scope place types
      simp only [writer]
      exact .pure none
  | .list items => by
      intro scope place types
      simp only [writer]
      refine failsOnly_writeChosen hcheck (fun choice nested hchoice hnested => ?_)
        fun choice hnone => ⟨fun _ hvalue => by contradiction, fun _ _ elements harray => ?_⟩
      · split at hnested
        · next elements harray =>
            obtain rfl := Option.some.inj hnested
            refine .bind ?_ fun _ _ _ _ => .pure _
            apply failsOnly_writeItems hcheck hstages items
            intro index item hitem hrefused
            rw [Nat.zero_add] at hrefused
            exact .item hchoice harray hitem hrefused
        · contradiction
      · simp [harray] at hnone
  | .map fields => by
      intro scope place types
      simp only [writer]
      refine failsOnly_writeChosen hcheck (fun choice nested hchoice hnested => ?_)
        fun choice hnone => ⟨fun _ _ => by simpa using hnone, fun _ hvalue => by contradiction⟩
      obtain ⟨frame, henter, rfl⟩ := Option.map_eq_some_iff.mp hnested
      refine .bind ?_ fun _ _ _ _ => .pure _
      refine (Drafts.failsOnly_write hstages frame (blames_drafts hcheck hstages fields)).mono
        fun cause => .imp ?_
      rintro ⟨settled, hsettles, field, hfield, value, hvalue, hrefused⟩
      exact .field hchoice henter hsettles hfield hvalue hrefused
  | .null | .bool _ | .number _ | .string _ | .binary _ | .date _ | .set _ => by
      intro scope place types
      simp only [writer]
      exact failsOnly_writeChosen hcheck (fun _ _ _ hnone => by contradiction)
        fun _ _ => ⟨fun _ hvalue => by contradiction, fun _ hvalue => by contradiction⟩

theorem failsOnly_writeItems (hcheck : writing.options.typeCheck = false)
    (hstages : Drafts.FailAside σ writing depth aside) {refused : Prop} :
    ∀ (items : List Value) {scope : Scope σ} {place : Place} {elements : List (CandidateType σ)}
      {start : Nat},
      (∀ index (item : Value), items[index]? = some item →
        item.HoldsRefused writing scope (place.item (start + index)) elements → refused) →
      FailsOnly (Blame aside refused)
        (writeItems (madeDraft writing depth) writing scope place elements start items)
  | [], _, _, _, _, _ => by
      simp only [writeItems]
      exact .pure []
  | item :: rest, scope, place, elements, start, hitems => by
      simp only [writeItems]
      have hitem := blames_writer hcheck hstages item scope (place.item start) elements
      have hrest := failsOnly_writeItems hcheck hstages rest fun index other hother hrefused =>
        hitems (index + 1) other hother (by rwa [← Nat.add_assoc, Nat.add_right_comm])
      exact (hitem.mono fun cause => .imp (hitems 0 item rfl)).bind fun _ _ _ _ =>
        hrest.bind fun _ _ _ _ => .pure _

theorem blames_drafts (hcheck : writing.options.typeCheck = false)
    (hstages : Drafts.FailAside σ writing depth aside) : ∀ fields : List (String × Value),
      ∀ field ∈ drafts (madeDraft writing depth) writing fields,
        Draft.Blames (σ := σ) writing aside field.2
  | [] => by simp [drafts]
  | (key, value) :: rest => by
      rw [drafts, List.forall_mem_cons]
      exact ⟨blames_writer hcheck hstages value, blames_drafts hcheck hstages rest⟩

end

end Value

/-- The stages fail aside from types if what they put in the place of a value does. -/
theorem Drafts.failAside (hmake : ∀ value : Value, Draft.Blames (σ := σ) writing
      (fun cause => ¬ cause.IsMismatch) (value.madeDraft writing depth)) :
    FailAside σ writing depth fun cause => ¬ cause.IsMismatch where
  settle := failsOnly_settle _ _
  settled := fun schema place fields drafts before after hfields hrun field hfield => by
    have hall := all_of_yields_settle (Names.all : Names (fun _ => True) schema) hmake
      (fun field hfield => ⟨trivial, hfields field hfield⟩) hrun
    exact (hall field hfield).2
  missing := by simp [MapperError.IsMismatch]
  check := failsOnly_checkValue _

/-- What the stages put in the place of a value fails like a given one. -/
theorem Value.blames_madeDraft (hcheck : writing.options.typeCheck = false) (depth : Nat)
    (value : Value) : Draft.Blames (σ := σ) writing (fun cause => ¬ cause.IsMismatch)
      (value.madeDraft writing depth) := by
  induction depth generalizing value with
  | zero =>
      intro scope place types
      simp only [madeDraft, shallowDraft]
      split
      · exact .pure none
      · exact .throw (.inl (by simp [MapperError.IsMismatch]))
      · exact .throw (.inl (by simp [MapperError.IsMismatch]))
      · next hlist hmap =>
          exact failsOnly_writeChosen hcheck (fun _ _ _ hnone => by contradiction)
            fun _ _ => ⟨fun fields hvalue => (hmap fields hvalue).elim,
              fun items hvalue => (hlist items hvalue).elim⟩
  | succ depth ih =>
      rw [madeDraft, writerTo_eq]
      exact blames_writer hcheck (Drafts.failAside ih) value

/-- Without the check of types, a document fails for a type only if it holds a refused value. -/
theorem Frame.failsOnly_write (hcheck : writing.options.typeCheck = false) (frame : Frame σ)
    (document : Document) :
    FailsOnly (fun cause => cause.IsMismatch → frame.HoldsRefused writing document)
      (frame.write writing document) := by
  have hstages := Drafts.failAside (Value.blames_madeDraft (σ := σ) hcheck writing.depth)
  exact (Drafts.failsOnly_write hstages frame (Value.blames_drafts hcheck hstages document)).mono
    fun _ => Blame.of_isMismatch

end Writing

/-! ## Conversion alone -/

section Unchecked

variable {now : Instant} {limit depth : Nat} {scope : Scope σ} {place : Place}
  {types elements : List (CandidateType σ)}

namespace Drafts

/-- Conversion alone leaves the fields of a document as they are. -/
theorem settle_unchecked (make : Value → Draft σ) (schema : Schema σ) (place : Place)
    (fields : List (String × Draft σ)) :
    settle make ⟨.unchecked, now, limit⟩ schema place fields = pure (normalize schema fields) := by
  -- the stages do not depend on the check of types
  have hplain : settle make ⟨.unchecked, now, limit⟩ schema place fields =
      settle make ⟨.plain, now, limit⟩ schema place fields := rfl
  have hfill := foldlM_fill_plain ⟨make, now, limit⟩ place schema.attributes
  rw [hplain, settle, stamp_plain]
  refine (congrArg (· >>= _) (hfill _)).trans ?_
  rw [pure_bind]
  rfl

theorem failAside_unchecked :
    FailAside σ ⟨.unchecked, now, limit⟩ depth fun _ => False where
  settle := fun schema place fields => by
    rw [settle_unchecked]
    exact .pure _
  settled := fun schema place fields drafts before after hfields hrun => by
    rw [settle_unchecked, yields_pure] at hrun
    obtain ⟨rfl, -⟩ := hrun
    have hall := all_normalize (Names.all : Names (fun _ => True) schema) fun field hfield =>
      ⟨trivial, hfields field hfield⟩
    exact fun field hfield => (hall field hfield).2
  missing := by simp [isMissing, MarshalOptions.unchecked, MarshalOptions.plain]
  check := fun field value path => .pure ()

end Drafts

/-- Conversion alone fails for types only, at refused values. -/
theorem Frame.failsOnly_write_unchecked (frame : Frame σ) (document : Document) :
    FailsOnly (fun cause => cause.IsMismatch ∧
        frame.HoldsRefused ⟨.unchecked, now, limit⟩ document)
      (frame.write ⟨.unchecked, now, limit⟩ document) :=
  (Drafts.failsOnly_write Drafts.failAside_unchecked frame
    (Value.blames_drafts rfl Drafts.failAside_unchecked document)).mono fun _ => Blame.alone

/-- The settled fields are those of the document, under stored names. -/
theorem Frame.Settles.eq_normalized {frame : Frame σ} {fields : List (String × Value)}
    {settled : Document} (hsettles : frame.Settles ⟨.unchecked, now, limit⟩ fields settled) :
    settled = frame.schema.normalized fields := by
  obtain ⟨depth, before, drafts, after, hrun, rfl⟩ := hsettles
  rw [Drafts.settle_unchecked, yields_pure] at hrun
  obtain ⟨rfl, -⟩ := hrun
  rw [Drafts.normalize_drafts, Drafts.values]
  simp [Fields.mapValues, Function.comp_def]

/-- Every field of a document has been written. -/
theorem Drafts.exists_yields_of_write {make : Value → Draft σ} {frame : Frame σ}
    {fields : List (String × Value)} {field : Attribute σ} {value : Value}
    (hfield : field ∈ frame.schema.attributes)
    (hvalue : (frame.schema.normalized fields).get? field.name = some value)
    (hdefined : value ≠ .undefined) {before after : σ} {item : Item}
    (hrun : Yields (write make ⟨.unchecked, now, limit⟩ frame
      (Value.drafts make ⟨.unchecked, now, limit⟩ fields)) before item after) :
    ∃ first stored last, Yields (value.writer make ⟨.unchecked, now, limit⟩ frame.scope
      (frame.place.child field.name) field.types) first stored last := by
  rw [write_eq, settle_unchecked, pure_bind] at hrun
  obtain ⟨entries, _, hentries, -⟩ := yields_bind.mp hrun
  obtain ⟨_, _, _, entry, first, last, -, -, hentry, -⟩ := hentries.exists_of_mem_mapM hfield
  have hdraft : (normalize frame.schema (Value.drafts make ⟨.unchecked, now, limit⟩ fields)).get?
      field.name = some ⟨value, value.writer make ⟨.unchecked, now, limit⟩⟩ := by
    rw [normalize_drafts, Fields.get?_mapValues, hvalue, Option.map_some]
  rcases of_yields_encodeAttribute_draft hdraft hentry with
    ⟨hundefined, -⟩ | ⟨stored, first, last, hstored, -⟩
  · exact (hdefined (Value.eq_undefined hundefined)).elim
  · exact ⟨first, stored, last, hstored⟩

namespace Value

/-- Every item of a list has been written. -/
theorem exists_yields_of_writeItems {make : Value → Draft σ} {writing : Writing}
    {items : List Value} {item : Value} {start index : Nat} {before after : σ}
    {storeds : List WireValue} (hitem : items[index]? = some item)
    (hrun : Yields (writeItems make writing scope place elements start items) before storeds
      after) :
    ∃ first stored last,
      Yields (item.writer make writing scope (place.item (start + index)) elements) first stored
        last := by
  induction items generalizing start index storeds before after with
  | nil => simp at hitem
  | cons other rest ih =>
      simp only [writeItems, yields_bind] at hrun
      obtain ⟨stored, between, hstored, others, _, hothers, -⟩ := hrun
      cases index with
      | zero =>
          obtain rfl : other = item := by simpa using hitem
          exact ⟨_, _, _, hstored⟩
      | succ index =>
          obtain ⟨first, stored, last, hfound⟩ := ih (by simpa using hitem) hothers
          exact ⟨first, stored, last, by rwa [Nat.add_right_comm, Nat.add_assoc] at hfound⟩

variable {value : Value} {writing : Writing}

theorem HoldsRefused.ne_undefined (hrefused : value.HoldsRefused writing scope place types) :
    value ≠ .undefined := by
  cases hrefused with
  | here hrefused => exact hrefused.whole.1
  | item => simp
  | field => simp

/-- A refused value is not written. -/
theorem Refused.not_yields (hrefused : value.Refused scope place types) (make : Value → Draft σ)
    {before after : σ} {stored : Option WireValue} :
    ¬ Yields (value.writer make writing scope place types) before stored after := by
  intro hrun
  obtain ⟨choice, hchoice⟩ := hrefused.exists_choice
  obtain ⟨hdefined, hmap, hlist⟩ := hrefused.whole
  refine hrefused.encodeAs_ne_ok hchoice stored ?_
  cases value with
  | undefined => exact (hdefined rfl).elim
  | map fields => exact (hmap fields rfl).elim
  | list items =>
      have harray := hlist items rfl choice hchoice
      simp only [writer, writeChosen, hchoice] at hrun
      exact (yields_ofExcept.mp hrun).1
  | _ =>
      simp only [writer, writeChosen, hchoice] at hrun
      exact (yields_ofExcept.mp hrun).1

/-- Writing stops at a refused value. -/
theorem HoldsRefused.not_yields
    (hrefused : value.HoldsRefused ⟨.unchecked, now, limit⟩ scope place types)
    (make : Value → Draft σ) : ∀ {before after : σ} {stored : Option WireValue},
      ¬ Yields (value.writer make ⟨.unchecked, now, limit⟩ scope place types) before stored
        after := by
  induction hrefused with
  | here hrefused => exact hrefused.not_yields make
  | item hchoice harray hitem _ ih =>
      intro before after stored hrun
      simp only [writer, writeChosen, hchoice, harray] at hrun
      obtain ⟨_, _, hlist, -⟩ := yields_bind.mp hrun
      obtain ⟨storeds, _, hstoreds, -⟩ := yields_bind.mp hlist
      obtain ⟨_, _, _, hfound⟩ := exists_yields_of_writeItems hitem hstoreds
      rw [Nat.zero_add] at hfound
      exact ih hfound
  | field hchoice henter hsettles hfield hvalue hinside ih =>
      intro before after stored hrun
      simp only [writer, writeChosen, hchoice, henter, Option.map_some] at hrun
      obtain ⟨_, _, hmap, -⟩ := yields_bind.mp hrun
      obtain ⟨item, _, hitem, -⟩ := yields_bind.mp hmap
      rw [hsettles.eq_normalized] at hvalue
      obtain ⟨_, _, _, hfound⟩ :=
        Drafts.exists_yields_of_write hfield hvalue hinside.ne_undefined hitem
      exact ih hfound

end Value

/-- A refused value is a reason to fail. -/
theorem Frame.HoldsRefused.exists_fails {frame : Frame σ} {document : Document}
    (hrefused : frame.HoldsRefused ⟨.unchecked, now, limit⟩ document) (before : σ) :
    ∃ cause, Fails (frame.write ⟨.unchecked, now, limit⟩ document) before cause := by
  obtain ⟨settled, hsettles, field, hfield, value, hvalue, hholds⟩ := hrefused
  refine (fails_or_yields _ before).resolve_right ?_
  rintro ⟨item, after, hrun⟩
  rw [hsettles.eq_normalized] at hvalue
  obtain ⟨_, _, _, hfound⟩ := Drafts.exists_yields_of_write hfield hvalue hholds.ne_undefined hrun
  exact hholds.not_yields _ hfound

end Unchecked

end ItemMapper
