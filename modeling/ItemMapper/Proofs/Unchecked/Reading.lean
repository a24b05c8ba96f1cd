import ItemMapper.Proofs.Unchecked.Writing

/-!
# Reading without the check of types

As in writing, the check decides only about stored values that none of the types takes.
`WireValue.HoldsRefused` follows the reading of an item to a value that the chosen type refuses.  No
function of the application comes before that, so such a value is a reason to fail with all options
(`Frame.ReadsRefused.exists_fails`); without the check it is the only reason to fail for a type
(`Frame.failsOnly_read`).
-/

namespace ItemMapper

variable {σ : Type}

open Pipeline

/-- A refused value stands somewhere in a stored value as it is read. -/
inductive WireValue.HoldsRefused :
    Scope σ → Place → List (CandidateType σ) → WireValue → Prop
  | here {scope : Scope σ} {place : Place} {types : List (CandidateType σ)} {stored : WireValue}
      (hrefused : stored.Refused scope place types) : HoldsRefused scope place types stored
  | item {scope : Scope σ} {place : Place} {types elements : List (CandidateType σ)}
      {choice : Choice σ} {items : List WireValue} {index : Nat} {item : WireValue}
      (hchoice : scope.resolveStored place types (.list items) = .ok choice)
      (harray : choice.type = .array elements) (hitem : items[index]? = some item)
      (hinside : HoldsRefused scope (place.item index) elements item) :
      HoldsRefused scope place types (.list items)
  | field {scope : Scope σ} {place : Place} {types : List (CandidateType σ)} {choice : Choice σ}
      {frame : Frame σ} {fields : Item} {field : Attribute σ} {stored : WireValue}
      (hchoice : scope.resolveStored place types (.map fields) = .ok choice)
      (henter : scope.enter? place choice.type = some frame)
      (hfield : field ∈ frame.schema.attributes) (hstored : fields.get? field.name = some stored)
      (hinside : HoldsRefused frame.scope (frame.place.child field.name) field.types stored) :
      HoldsRefused scope place types (.map fields)

/-- A refused value stands somewhere in an item as it is read. -/
def Frame.ReadsRefused (frame : Frame σ) (item : Item) : Prop :=
  ∃ field ∈ frame.schema.attributes, ∃ stored, item.get? field.name = some stored ∧
    stored.HoldsRefused frame.scope (frame.place.child field.name) field.types

variable {options : MarshalOptions} {aside : MapperError → Prop}
  {frame : Frame σ} {scope : Scope σ} {place : Place} {types elements : List (CandidateType σ)}
  {stored : WireValue}

/-- Modifiers fail aside only, if they run at all. -/
def MarshalOptions.ModifyAside (σ : Type) (options : MarshalOptions)
    (aside : MapperError → Prop) : Prop :=
  options.modifiers = true → ∀ (modifiers : List (Modifier σ)) path value,
    FailsOnly aside (applyModifiers modifiers path value)

/-- If only refused values fail in the fields of an item, then so it is in the item. -/
theorem Frame.failsOnly_read_of (hmodify : options.ModifyAside σ aside) {item : Item}
    (hfields : ∀ field ∈ frame.schema.attributes, ∀ stored, item.get? field.name = some stored →
      FailsOnly (Blame aside
          (stored.HoldsRefused frame.scope (frame.place.child field.name) field.types))
        (stored.reader options frame.scope (frame.place.child field.name) field.types)) :
    FailsOnly (Blame aside (frame.ReadsRefused item)) (frame.read options item) := by
  rw [read_eq]
  refine .bind (.mapM fun field hfield => ?_) fun _ _ _ _ => .pure _
  unfold readField
  split
  · exact .pure none
  · next stored hstored =>
      refine ((hfields field hfield stored hstored).mono fun cause => .imp fun hrefused =>
        ⟨field, hfield, stored, hstored, hrefused⟩).bind fun _ _ _ _ => ?_
      split
      · next hmodifiers =>
          rw [map_eq_pure_bind]
          exact ((hmodify hmodifiers _ _ _).mono fun _ => .inl).bind fun _ _ _ _ => .pure _
      · exact .pure _

namespace WireValue

theorem failsOnly_readChosen (hcheck : options.typeCheck = false)
    {inside : CandidateType σ → Option (Pipeline σ Value)}
    (hinside : ∀ (choice : Choice σ) nested, scope.resolveStored place types stored = .ok choice →
      inside choice.type = some nested →
        FailsOnly (Blame aside (stored.HoldsRefused scope place types)) nested) :
    FailsOnly (Blame aside (stored.HoldsRefused scope place types))
      (stored.readChosen options scope place types inside) := by
  unfold readChosen
  split
  · rw [hcheck]
    exact .pure _
  · next choice hchoice =>
      split
      · next nested hnested => exact hinside choice nested hchoice hnested
      · exact .ofExcept fun cause hdecode => .inr
          ⟨isMismatch_of_decodeLeaf hdecode, .here (refused_of_decodeLeaf hchoice hdecode)⟩

mutual

theorem failsOnly_reader (hcheck : options.typeCheck = false)
    (hmodify : options.ModifyAside σ aside) :
    ∀ (stored : WireValue) (scope : Scope σ) (place : Place) (types : List (CandidateType σ)),
      FailsOnly (Blame aside (stored.HoldsRefused scope place types))
        (stored.reader options scope place types)
  | .list items, scope, place, types => by
      simp only [reader]
      refine failsOnly_readChosen hcheck fun choice nested hchoice hnested => ?_
      split at hnested
      · next elements harray =>
          obtain rfl := Option.some.inj hnested
          refine .bind ?_ fun _ _ _ _ => .pure _
          apply failsOnly_readItems hcheck hmodify items
          intro index item hitem hrefused
          rw [Nat.zero_add] at hrefused
          exact .item hchoice harray hitem hrefused
      · contradiction
  | .map fields, scope, place, types => by
      simp only [reader]
      refine failsOnly_readChosen hcheck fun choice nested hchoice hnested => ?_
      obtain ⟨frame, henter, rfl⟩ := Option.map_eq_some_iff.mp hnested
      refine .bind ?_ fun _ _ _ _ => .pure _
      refine (Frame.failsOnly_read_of hmodify fun field hfield stored hstored =>
        failsOnly_fields hcheck hmodify fields _ (Fields.mem_of_get? hstored) _ _ _).mono
        fun cause => .imp ?_
      rintro ⟨field, hfield, stored, hstored, hrefused⟩
      exact .field hchoice henter hfield hstored hrefused
  | .string _, scope, place, types | .number _, scope, place, types
  | .binary _, scope, place, types | .stringSet _, scope, place, types
  | .numberSet _, scope, place, types | .binarySet _, scope, place, types
  | .boolean _, scope, place, types | .null _, scope, place, types => by
      simp only [reader]
      exact failsOnly_readChosen hcheck fun _ _ _ hnone => by contradiction

theorem failsOnly_readItems (hcheck : options.typeCheck = false)
    (hmodify : options.ModifyAside σ aside) {refused : Prop} :
    ∀ (items : List WireValue) {scope : Scope σ} {place : Place}
      {elements : List (CandidateType σ)} {start : Nat},
      (∀ index (item : WireValue), items[index]? = some item →
        item.HoldsRefused scope (place.item (start + index)) elements → refused) →
      FailsOnly (Blame aside refused)
        (readItems options scope place elements start items)
  | [], _, _, _, _, _ => by
      simp only [readItems]
      exact .pure []
  | item :: rest, scope, place, elements, start, hitems => by
      simp only [readItems]
      have hitem := failsOnly_reader hcheck hmodify item scope (place.item start) elements
      have hrest := failsOnly_readItems hcheck hmodify rest fun index other hother hrefused =>
        hitems (index + 1) other hother (by rwa [← Nat.add_assoc, Nat.add_right_comm])
      exact (hitem.mono fun cause => .imp (hitems 0 item rfl)).bind fun _ _ _ _ =>
        hrest.bind fun _ _ _ _ => .pure _

theorem failsOnly_fields (hcheck : options.typeCheck = false)
    (hmodify : options.ModifyAside σ aside) :
    ∀ (fields : List (String × WireValue)), ∀ field ∈ fields, ∀ (scope : Scope σ) (place : Place)
      (types : List (CandidateType σ)),
      FailsOnly (Blame aside (field.2.HoldsRefused scope place types))
        (field.2.reader options scope place types)
  | [] => by simp
  | (key, stored) :: rest => by
      rw [List.forall_mem_cons]
      exact ⟨failsOnly_reader hcheck hmodify stored, failsOnly_fields hcheck hmodify rest⟩

end

end WireValue

/-- Without the check of types, an item fails for a type only if it holds a refused value. -/
theorem Frame.failsOnly_read (hcheck : options.typeCheck = false) (frame : Frame σ) (item : Item) :
    FailsOnly (fun cause => cause.IsMismatch → frame.ReadsRefused item)
      (frame.read options item) := by
  have hmodify : options.ModifyAside σ fun cause => ¬ cause.IsMismatch :=
    fun _ => failsOnly_applyModifiers
  exact (failsOnly_read_of hmodify fun field _ stored _ =>
    WireValue.failsOnly_reader hcheck hmodify stored _ _ _).mono fun _ => Blame.of_isMismatch

/-- Every field of an item has been read. -/
theorem Frame.exists_yields_of_read {item : Item} {field : Attribute σ} {document : Document}
    {before after : σ} (hfield : field ∈ frame.schema.attributes)
    (hstored : item.get? field.name = some stored)
    (hrun : Yields (frame.read options item) before document after) :
    ∃ first value last, Yields (stored.reader options frame.scope (frame.place.child field.name)
      field.types) first value last := by
  rw [read_eq] at hrun
  obtain ⟨loaded, _, hloaded, -⟩ := yields_bind.mp hrun
  obtain ⟨_, _, _, _, _, _, -, -, hread, -⟩ := hloaded.exists_of_mem_mapM hfield
  simp only [readField, hstored] at hread
  obtain ⟨value, _, hvalue, -⟩ := yields_bind.mp hread
  exact ⟨_, value, _, hvalue⟩

/-- Reading stops at a refused value, whatever the options are. -/
theorem WireValue.HoldsRefused.not_yields (hrefused : stored.HoldsRefused scope place types) :
    ∀ {before after : σ} {value : Value},
      ¬ Yields (stored.reader options scope place types) before value after := by
  induction hrefused with
  | @here scope place types stored hrefused =>
      intro before after value hrun
      obtain ⟨hlist, hmap⟩ := hrefused.whole
      obtain ⟨choice, _, _, hchoice, -⟩ := id hrefused
      refine hrefused.decodeLeaf_ne_ok hchoice value ?_
      cases stored with
      | list items => exact (hlist items rfl).elim
      | map fields => exact (hmap fields rfl).elim
      | _ =>
          simp only [reader, readChosen, hchoice] at hrun
          exact (yields_ofExcept.mp hrun).1
  | item hchoice harray hitem _ ih =>
      intro before after value hrun
      simp only [reader, readChosen, hchoice, harray] at hrun
      obtain ⟨values, _, hvalues, -⟩ := yields_bind.mp hrun
      obtain ⟨_, _, _, hfound⟩ := exists_yields_of_readItems hitem hvalues
      rw [Nat.zero_add] at hfound
      exact ih hfound
  | field hchoice henter hfield hstored _ ih =>
      intro before after value hrun
      simp only [reader, readChosen, hchoice, henter, Option.map_some] at hrun
      obtain ⟨document, _, hdocument, -⟩ := yields_bind.mp hrun
      obtain ⟨_, _, _, hfound⟩ := Frame.exists_yields_of_read hfield hstored hdocument
      exact ih hfound

/-- A refused value is a reason to fail, whatever the options are. -/
theorem Frame.ReadsRefused.exists_fails {item : Item} (hrefused : frame.ReadsRefused item)
    (before : σ) : ∃ cause, Fails (frame.read options item) before cause := by
  obtain ⟨field, hfield, stored, hstored, hholds⟩ := hrefused
  refine (fails_or_yields _ before).resolve_right ?_
  rintro ⟨document, after, hrun⟩
  obtain ⟨_, _, _, hfound⟩ := exists_yields_of_read hfield hstored hrun
  exact hholds.not_yields hfound

/-- Without modifiers there is no other. -/
theorem Frame.failsOnly_read_unmodified (hcheck : options.typeCheck = false)
    (hmodifiers : options.modifiers = false) (frame : Frame σ) (item : Item) :
    FailsOnly (fun cause => cause.IsMismatch ∧ frame.ReadsRefused item)
      (frame.read options item) := by
  have hmodify : options.ModifyAside σ fun _ => False := by
    intro hmodified
    rw [hmodifiers] at hmodified
    contradiction
  exact (failsOnly_read_of hmodify fun field _ stored _ =>
    WireValue.failsOnly_reader hcheck hmodify stored _ _ _).mono fun _ => Blame.alone

end ItemMapper
