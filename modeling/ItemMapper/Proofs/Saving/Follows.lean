import ItemMapper.Proofs.Plain.Assignments
import ItemMapper.Proofs.Saving.Declarative

/-!
# Saving at other places and depths

One step of saving follows another if it gives the same wherever the other one succeeds, whatever
the state of the application, which both leave as it is (`Pipeline.Follows`).  With declarative
schemas a value is written in the same way at every place (`Value.follows_writer`), and the depth
to which replacements may be nested is a bound and nothing else: what is written at some depth is
written in the same way at every greater one (`Value.follows_madeDraft`).
-/

namespace ItemMapper

variable {σ α β : Type}

open Pipeline

/-! ## Steps that follow others -/

namespace Pipeline

/-- Where the first step succeeds, both leave the state alone and give the same. -/
def Follows (step other : Pipeline σ α) : Prop :=
  ∀ before value after, Yields step before value after →
    before = after ∧ step.Gives value ∧ other.Gives value

namespace Follows

theorem pure (value : α) : Follows (Pure.pure value : Pipeline σ α) (Pure.pure value) := by
  intro before given after hrun
  obtain ⟨rfl, rfl⟩ := yields_pure.mp hrun
  exact ⟨rfl, fun _ => yields_pure_self, fun _ => yields_pure_self⟩

theorem throw (cause : MapperError) (other : Pipeline σ α) :
    Follows (MonadExcept.throw cause) other :=
  fun _ _ _ hrun => (yields_throw.mp hrun).elim

theorem ofExcept {result other : Except MapperError α}
    (hresult : ∀ value, result = .ok value → other = .ok value) :
    Follows (σ := σ) (.ofExcept result) (.ofExcept other) := by
  intro before value after hrun
  obtain ⟨hvalue, rfl⟩ := yields_ofExcept.mp hrun
  exact ⟨rfl, fun _ => yields_ofExcept.mpr ⟨hvalue, rfl⟩,
    fun _ => yields_ofExcept.mpr ⟨hresult value hvalue, rfl⟩⟩

theorem bind {step other : Pipeline σ α} {next after : α → Pipeline σ β}
    (hstep : Follows step other) (hnext : ∀ middle, Follows (next middle) (after middle)) :
    Follows (step >>= next) (other >>= after) := by
  intro before value last hrun
  obtain ⟨middle, between, hmiddle, hrest⟩ := yields_bind.mp hrun
  obtain ⟨rfl, hmiddles, hothers⟩ := hstep _ _ _ hmiddle
  obtain ⟨rfl, hrests, hafters⟩ := hnext middle _ _ _ hrest
  exact ⟨rfl, fun state => (hmiddles state).bind (hrests state),
    fun state => (hothers state).bind (hafters state)⟩

theorem still {step other : Pipeline σ α} (hstep : Follows step other) : Still step :=
  fun before value after hrun =>
    ⟨(hstep before value after hrun).1, (hstep before value after hrun).2.1⟩

theorem gives {step other : Pipeline σ α} (hstep : Follows step other) {value : α}
    (hvalue : step.Gives value) : other.Gives value :=
  fun state => (hstep _ _ _ (hvalue state)).2.2 state

end Follows

end Pipeline

/-! ## Drafts that follow others -/

/-- Two drafts have the same value, and the second is written at any place as the first is at any
other. -/
structure Draft.Follows (start : Scope σ) (draft other : Draft σ) : Prop where
  value : other.value = draft.value
  write : ∀ {scope : Scope σ} {types : List (CandidateType σ)}, start.Discerns scope types →
    ∀ near far, (draft.write scope near types).Follows (other.write scope far types)

/-- Replacements are drafted as they are, and the second way to draft them follows the first. -/
structure Draft.Remade (start : Scope σ) (make remake : Value → Draft σ) : Prop where
  value : ∀ value, (make value).value = value
  follows : ∀ value, (make value).Follows start (remake value)

namespace Drafts

variable {start : Scope σ} {make remake : Value → Draft σ} {writing : Writing}
  {drafts others : Fields (Draft σ)} {field : Attribute σ}

/-- Under every stored name stand drafts that follow, or none. -/
theorem follows_normalize (schema : Schema σ) {fields refields : List (String × Draft σ)}
    (hfields : Fields.Rel (fun _ => Draft.Follows start) fields refields) (name : String) :
    Option.Rel (Draft.Follows start) ((normalize schema fields).get? name)
      ((normalize schema refields).get? name) := by
  have hnormalized : Fields.Rel (fun _ => Draft.Follows start) (normalize schema fields)
      (normalize schema refields) := by
    refine Fields.Rel.ofList ?_
    rw [Fields.Rel, List.forall₂_map_left_iff, List.forall₂_map_right_iff]
    exact List.Forall₂.imp (fun _ _ hfollows => ⟨by simp [hfollows.1], hfollows.2⟩) hfields
  exact hnormalized.get? name

variable (hmake : Draft.Remade start make remake)

include hmake

theorem rel_prepared (now : Instant) (schema : Schema σ) {given other : Option (Draft σ)}
    (hgiven : Option.Rel (Draft.Follows start) given other) :
    Option.Rel (Draft.Follows start) (prepared make now schema field given)
      (prepared remake now schema field other) := by
  have hvalues : other.map Draft.value = given.map Draft.value := by
    cases hgiven with
    | none => rfl
    | some hfollows => simp [hfollows.value]
  unfold prepared
  rw [hvalues]
  cases schema.replacement? now field (given.map Draft.value) with
  | none => exact hgiven
  | some value => exact .some (hmake.follows value)

omit hmake in
theorem defined?_of_rel {given other : Option (Draft σ)}
    (hrel : Option.Rel (Draft.Follows start) given other) :
    (other.filter fun draft => !draft.value.isUndefined).map Draft.value =
      (given.filter fun draft => !draft.value.isUndefined).map Draft.value := by
  cases hrel with
  | none => rfl
  | some hfollows =>
      simp only [Option.filter_some, hfollows.value]
      split <;> simp [hfollows.value]

/-- What an attribute becomes elsewhere. -/
theorem Combines.exists_follows {final : Option (Draft σ)}
    (hcombines : Combines make drafts field final)
    (hself : Option.Rel (Draft.Follows start) (drafts.get? field.name) (others.get? field.name))
    (hsources : ∀ sources separator, field.combine? = some (sources, separator) →
      ∀ source ∈ sources,
        Option.Rel (Draft.Follows start) (drafts.get? source) (others.get? source)) :
    ∃ refinal, Combines remake others field refinal ∧
      Option.Rel (Draft.Follows start) final refinal := by
  have hsome : ∀ {name}, Option.Rel (Draft.Follows start) (drafts.get? name) (others.get? name) →
      (defined? others name).isSome = (defined? drafts name).isSome := fun {name} hrel => by
    rw [← Option.isSome_map, defined?, defined?_of_rel hrel, Option.isSome_map, defined?]
  have hpresent : ∀ {sources separator}, field.combine? = some (sources, separator) →
      present others sources = present drafts sources := fun hcombine =>
    List.filterMap_congr fun source hsource =>
      defined?_of_rel (hsources _ _ hcombine source hsource)
  cases hcombines with
  | plain hplain => exact ⟨_, .plain hplain, hself⟩
  | empty hcombine hnone hgiven =>
      refine ⟨none, .empty hcombine ((hpresent hcombine).trans hnone) ?_, .none⟩
      rwa [hsome hself]
  | @joined sources separator text hcombine hpresentSome hgiven htext =>
      refine ⟨_, .joined hcombine (by rwa [hpresent hcombine]) ?_ ?_,
        .some (hmake.follows (.string text))⟩
      · intro hown source hsource
        rw [hsome hself] at hown
        rw [hsome (hsources _ _ hcombine source hsource)]
        exact hgiven hown source hsource
      · rwa [hpresent hcombine]

omit hmake in
/-- What is stored for it elsewhere. -/
theorem Stores.follows {scope : Scope σ} {schema : Schema σ} {near far : Place}
    (htypes : start.Discerns scope field.types) {final refinal : Option (Draft σ)}
    {stored : Option WireValue} (hstores : Stores ⟨scope, near, schema⟩ field final stored)
    (hrel : Option.Rel (Draft.Follows start) final refinal) :
    Stores ⟨scope, far, schema⟩ field refinal stored := by
  cases hstores with
  | absent hnone hoptional =>
      refine .absent (fun draft hdraft => ?_) hoptional
      cases hrel with
      | none => cases hdraft
      | some hfollows =>
          obtain rfl := Option.some.inj hdraft
          rw [hfollows.value]
          exact hnone _ rfl
  | written hdefined hwrite =>
      cases hrel with
      | some hfollows =>
          exact .written (by rwa [hfollows.value]) ((hfollows.write htypes _ _).gives hwrite)

section Documents

variable (hstart : start.Declarative) (hsave : writing.options = .save) {scope : Scope σ}
  {schema : Schema σ} (hreaches : start.Reaches scope schema)
  {fields refields : List (String × Draft σ)}
  (hfields : Fields.Rel (fun _ => Draft.Follows start) fields refields)

include hstart hreaches hfields

/-- What all attributes become elsewhere. -/
theorem Combines.exists_elsewhere (hfield : field ∈ schema.attributes) {final : Option (Draft σ)}
    (hfinal : Combines make (prepare make writing.now schema (normalize schema fields)) field
      final) :
    ∃ refinal, Combines remake
        (prepare remake writing.now schema (normalize schema refields)) field refinal ∧
      Option.Rel (Draft.Follows start) final refinal := by
  have hschema := hstart.wellFormed scope schema hreaches
  have hprepared : ∀ field ∈ schema.attributes, Option.Rel (Draft.Follows start)
      ((prepare make writing.now schema (normalize schema fields)).get? field.name)
      ((prepare remake writing.now schema (normalize schema refields)).get? field.name) := by
    intro field hfield
    rw [get?_prepare hschema hfield, get?_prepare hschema hfield]
    exact rel_prepared hmake _ schema (follows_normalize schema hfields field.name)
  refine hfinal.exists_follows hmake (hprepared field hfield) ?_
  intro sources separator hcombine source hsource
  obtain ⟨other, hother, rfl, -⟩ :=
    hschema.plainSources field hfield sources separator hcombine source hsource
  exact hprepared other hother

include hsave

/-- A document is saved elsewhere as the same item. -/
theorem saves_elsewhere (near far : Place) {before after : σ} {item : Item}
    (hrun : Yields (Drafts.write make writing ⟨scope, near, schema⟩ fields) before item after) :
    before = after ∧ Saves make writing ⟨scope, near, schema⟩ fields item ∧
      Saves remake writing ⟨scope, far, schema⟩ refields item := by
  have htypes : ∀ field ∈ schema.attributes, start.Discerns scope field.types :=
    fun field hfield => hstart.repeatable.attribute_discerns hreaches hfield
  obtain ⟨rfl, hsaves⟩ := saves_of_yields hsave hmake.value
    (hstart.wellFormed scope schema hreaches) (hstart.literal scope schema hreaches)
    (hstart.root_disabled hreaches) (fun field hfield draft hdraft => by
      obtain ⟨_, -, hrel⟩ := hdraft.exists_elsewhere hmake hstart hreaches hfields hfield
      cases hrel with
      | some hfollows => exact (hfollows.write (htypes field hfield) _ near).still) hrun
  refine ⟨rfl, hsaves, hsaves.sorted, fun field hfield => ?_, hsaves.declared⟩
  obtain ⟨final, hfinal, hstores⟩ := hsaves.attributes field hfield
  obtain ⟨refinal, hrefinal, hrel⟩ := hfinal.exists_elsewhere hmake hstart hreaches hfields hfield
  exact ⟨refinal, hrefinal, hstores.follows (htypes field hfield) hrel⟩

theorem follows_write (near far : Place) :
    (Drafts.write make writing ⟨scope, near, schema⟩ fields).Follows
      (Drafts.write remake writing ⟨scope, far, schema⟩ refields) := by
  have hschema := hstart.wellFormed scope schema hreaches
  have hliteral := hstart.literal scope schema hreaches
  have hdisabled := hstart.root_disabled hreaches
  intro before item after hrun
  obtain ⟨rfl, hsaves, hagain⟩ := saves_elsewhere hmake hstart hsave hreaches hfields near far hrun
  refine ⟨rfl, hsaves.gives hsave hmake.value hschema hliteral hdisabled,
    hagain.gives hsave (fun value => ?_) hschema hliteral hdisabled⟩
  rw [(hmake.follows value).value, hmake.value]

end Documents

end Drafts

/-! ## Values -/

/-- A value that is written at once is written in the same way elsewhere. -/
theorem Value.encodeAs_at {start scope : Scope σ} (hstart : start.Declarative)
    {types : List (CandidateType σ)} (htypes : start.Discerns scope types) {value : Value}
    {near far : Place} {choice other : Choice σ}
    (hchoice : scope.resolve near types value = .ok choice)
    (hother : scope.resolve far types value = .ok other) (htype : other.type = choice.type)
    (hreading : other.reading.type = choice.reading.type)
    (hlist : ∀ items, value = .list items → ∀ elements, choice.type ≠ .array elements)
    (hmap : ∀ fields, value = .map fields → scope.enter? near choice.type = none)
    {stored : Option WireValue} (hencode : value.encodeAs choice.reading = .ok stored) :
    value.encodeAs other.reading = .ok stored := by
  have hmem := (htypes.apart.resolve_iff.mp hchoice).1
  have hothers := (htypes.apart.resolve_iff.mp hother).1
  cases value with
  | list items =>
      have harray := hlist items rfl
      rw [Reading.encodeScalar_of_encodeAs_list hstart.repeatable htypes hmem harray] at hencode
      rw [Reading.encodeScalar_of_encodeAs_list hstart.repeatable htypes hothers
        (by rwa [htype])]
      exact (Reading.encodeScalar_at hreading _).eq_ok_iff.mp hencode
  | map fields =>
      have hnear := hmap fields rfl
      have hfar : scope.enter? far other.type = none := by
        rcases Scope.enter?_at (fun _ _ => True) (fun _ => trivial) trivial scope other.type with
          ⟨_, _, _, _, _, hsome, -⟩ | ⟨-, hnone⟩
        · rw [htype, hnear] at hsome
          cases hsome
        · exact hnone
      rw [encodeAs, Scope.reading_of_document hchoice rfl, Reading.enter?, hnear] at hencode
      rw [encodeAs, Scope.reading_of_document hother rfl, Reading.enter?, hfar]
      exact (Reading.encodeScalar_at htype _).eq_ok_iff.mp hencode
  | _ =>
      simp only [encodeAs] at hencode ⊢
      exact (Reading.encodeScalar_at hreading _).eq_ok_iff.mp hencode

section Writers

variable {start : Scope σ} (hstart : start.Declarative) {writing : Writing}
  (hsave : writing.options = .save)

include hstart hsave

/-- A value goes on elsewhere as it does at hand, inside or at once. -/
theorem Value.follows_writeChosen {scope : Scope σ} {types : List (CandidateType σ)}
    (htypes : start.Discerns scope types) (value : Value) {near far : Place}
    {inside reinside : CandidateType σ → Option (Pipeline σ WireValue)}
    (hinside : ∀ type ∈ types,
      (∃ nested renested, inside type = some nested ∧ reinside type = some renested ∧
          nested.Follows renested) ∨
        inside type = none ∧ reinside type = none ∧
          (∀ items, value = .list items → ∀ elements, type ≠ .array elements) ∧
            ∀ fields, value = .map fields → scope.enter? near type = none) :
    (value.writeChosen writing scope near types inside).Follows
      (value.writeChosen writing scope far types reinside) := by
  have hcheck : writing.options.typeCheck = true := by rw [hsave]; rfl
  unfold writeChosen
  cases hchoice : scope.resolve near types value with
  | error cause =>
      simp only [hcheck, if_true]
      exact .throw cause _
  | ok choice =>
      obtain ⟨other, hother, htype, hreading⟩ := hstart.resolve_at htypes hchoice far
      simp only [hother, htype]
      rcases hinside choice.type (Scope.of_resolve hchoice).1 with
        ⟨nested, renested, hnested, hrenested, hfollows⟩ | ⟨hnone, hrenone, hlist, hmap⟩
      · simp only [hnested, hrenested]
        exact hfollows.bind fun stored => .pure (some stored)
      · simp only [hnone, hrenone]
        exact .ofExcept fun stored hencode =>
          value.encodeAs_at hstart htypes hchoice hother htype hreading hlist hmap hencode

omit hstart hsave

variable {make remake : Value → Draft σ}

mutual

/-- A value is written elsewhere as it is at hand if replacements are. -/
theorem Value.follows_writer (hstart : start.Declarative) (hsave : writing.options = .save)
    (hmake : Draft.Remade start make remake) :
    ∀ (value : Value) {scope : Scope σ} {types : List (CandidateType σ)},
      start.Discerns scope types → ∀ near far, (value.writer make writing scope near types).Follows
        (value.writer remake writing scope far types)
  | .undefined, _, _, _, _, _ => by
      simp only [Value.writer]
      exact .pure none
  | .list items, scope, types, htypes, near, far => by
      simp only [Value.writer]
      refine Value.follows_writeChosen hstart hsave htypes _ fun type htype => ?_
      cases type with
      | array elements =>
          refine .inl ⟨_, _, rfl, rfl, ?_⟩
          exact (Value.follows_writeItems hstart hsave hmake items
            (hstart.repeatable.elements_discerns htypes htype) near far 0 0).bind
              fun storeds => .pure (WireValue.list storeds)
      | _ => exact .inr ⟨rfl, rfl, by simp, by simp⟩
  | .map fields, scope, types, htypes, near, far => by
      simp only [Value.writer]
      refine Value.follows_writeChosen hstart hsave htypes _ fun type htype => ?_
      rcases Scope.enter?_at (fun _ _ => True) (fun _ => trivial) trivial scope type with
        ⟨inner, schema, nearer, farther, hopens, hnear, hfar, -⟩ | ⟨hnear, hfar⟩
      · refine .inl ⟨_, _, by rw [hnear]; rfl, by rw [hfar]; rfl, ?_⟩
        exact (Drafts.follows_write hmake hstart hsave
          (.inside (htypes.uses type htype) hopens) (Value.follows_drafts hstart hsave hmake fields)
          nearer farther).bind fun item => .pure (WireValue.map item)
      · exact .inr ⟨by rw [hnear]; rfl, by rw [hfar]; rfl, by simp, fun _ _ => hnear⟩
  | .null, _, _, htypes, _, _ | .bool _, _, _, htypes, _, _ | .number _, _, _, htypes, _, _
  | .string _, _, _, htypes, _, _ | .binary _, _, _, htypes, _, _ | .date _, _, _, htypes, _, _
  | .set _, _, _, htypes, _, _ => by
      simp only [Value.writer]
      exact Value.follows_writeChosen hstart hsave htypes _ fun _ _ =>
        .inr ⟨rfl, rfl, by simp, by simp⟩

theorem Value.follows_writeItems (hstart : start.Declarative) (hsave : writing.options = .save)
    (hmake : Draft.Remade start make remake) :
    ∀ (items : List Value) {scope : Scope σ} {elements : List (CandidateType σ)},
      start.Discerns scope elements → ∀ near far index reindex,
        (Value.writeItems make writing scope near elements index items).Follows
          (Value.writeItems remake writing scope far elements reindex items)
  | [], _, _, _, _, _, _, _ => by
      simp only [Value.writeItems]
      exact .pure []
  | item :: rest, scope, elements, helements, near, far, index, reindex => by
      simp only [Value.writeItems]
      apply (Value.follows_writer hstart hsave hmake item helements _ _).bind
      intro stored
      apply (Value.follows_writeItems hstart hsave hmake rest helements near far (index + 1)
        (reindex + 1)).bind
      exact fun others => .pure (stored.toList ++ others)

theorem Value.follows_drafts (hstart : start.Declarative) (hsave : writing.options = .save)
    (hmake : Draft.Remade start make remake) :
    ∀ fields : List (String × Value),
      Fields.Rel (fun _ => Draft.Follows start) (Value.drafts make writing fields)
        (Value.drafts remake writing fields)
  | [] => .nil
  | (key, value) :: rest => by
      rw [Value.drafts, Value.drafts]
      exact .cons ⟨rfl, rfl, Value.follows_writer hstart hsave hmake value⟩
        (Value.follows_drafts hstart hsave hmake rest)

end

end Writers

/-! ## Replacements at other depths -/

section Depths

variable {start : Scope σ} (hstart : start.Declarative) {writing : Writing}
  (hsave : writing.options = .save)

include hstart hsave

/-- What is written without lists and documents is written as well where these are possible. -/
theorem Value.follows_shallowDraft (value : Value) {other : Draft σ}
    (hother : other = value.shallowDraft writing ∨
      ∃ make, other = ⟨value, value.writer make writing⟩) :
    (value.shallowDraft writing).Follows start other where
  value := by rcases hother with rfl | ⟨make, rfl⟩ <;> rfl
  write := by
    intro scope types htypes near far
    have hleaf : ∀ value : Value, (∀ items, value ≠ .list items) → (∀ fields, value ≠ .map fields) →
        (value.writeChosen writing scope near types fun _ => none).Follows
          (value.writeChosen writing scope far types fun _ => none) :=
      fun value hlist hmap => value.follows_writeChosen hstart hsave htypes fun _ _ =>
        .inr ⟨rfl, rfl, fun items hitems => absurd hitems (hlist items),
          fun fields hfields => absurd hfields (hmap fields)⟩
    cases value with
    | undefined =>
        rcases hother with rfl | ⟨make, rfl⟩
        · exact .pure none
        · simp only [Value.writer]
          exact .pure none
    | list items => exact .throw _ _
    | map fields => exact .throw _ _
    | _ =>
        rcases hother with rfl | ⟨make, rfl⟩
        · exact hleaf _ (by simp) (by simp)
        · simp only [Value.writer]
          exact hleaf _ (by simp) (by simp)

/-- A replacement is written as well where replacements may be nested deeper. -/
theorem Value.follows_madeDraft {depth deeper : Nat} (hdepth : depth ≤ deeper) (value : Value) :
    (value.madeDraft writing depth).Follows start (value.madeDraft writing deeper) := by
  induction depth generalizing deeper value with
  | zero =>
      refine value.follows_shallowDraft hstart hsave ?_
      cases deeper with
      | zero => exact .inl rfl
      | succ deeper =>
          exact .inr ⟨Value.madeDraft writing deeper, by rw [madeDraft, writerTo_eq]⟩
  | succ depth ih =>
      obtain ⟨deeper, rfl⟩ : ∃ previous, deeper = previous + 1 := ⟨deeper - 1, by omega⟩
      refine ⟨rfl, fun htypes near far => ?_⟩
      have hmake : Draft.Remade start (Value.madeDraft writing depth)
          (Value.madeDraft writing deeper) :=
        ⟨Value.madeDraft_value writing depth, ih (by omega)⟩
      simp only [madeDraft, writerTo_eq]
      exact Value.follows_writer hstart hsave hmake value htypes near far

end Depths

end ItemMapper
