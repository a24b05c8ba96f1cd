import ItemMapper.Proofs.Saving.Readable

/-!
# What is saved again as it was

An item that was saved and read is saved again as it was exactly if it is stable
(`Frame.Stable`): saving stores no attribute that a document in it is without, and makes every
combined attribute what is stored for it.  This is asked of every document in the item but for
those that saving puts there itself, whatever is given (`SchemaOf.Overrides`).

Nothing is asked of what is stored.  A stored value that was saved and can be read lasts, so that
what is read has the type that the stored value was given (`WireValue.Returns`), and what saving
puts in its place is what it has put there before (`SchemaOf.replacement?_again`).  The recursion on
the stored value is `WireValue.savesAs_read_iff`.
-/

namespace ItemMapper

variable {σ : Type}

open Pipeline

/-! ## What saving puts in the place of what is given -/

namespace SchemaOf

variable {schema : Schema σ} {now : Instant} {field : Attribute σ} {value other : Value}

/-- Saving puts a value of its own in the place of whatever is given for the attribute. -/
def Overrides (schema : Schema σ) (now : Instant) (field : Attribute σ) : Prop :=
  ∀ given : Value, given.isUndefined = false →
    (schema.replacement? now field (some given)).isSome = true

theorem replacement?_of_literal {literal : Value} (hliteral : field.literal? = some literal)
    (given : Option Value) : schema.replacement? now field given =
      ((schema.stamp? now field.name given).or given).elim (some literal) fun current =>
        if field.forceDefault && !current.isUndefined then some literal
        else schema.stamp? now field.name given := by
  simp only [replacement?, hliteral]
  cases (schema.stamp? now field.name given).or given <;> rfl

theorem replacement?_of_noLiteral (hliteral : field.literal? = none) (given : Option Value) :
    schema.replacement? now field given = schema.stamp? now field.name given := by
  simp [replacement?, hliteral]

/-- Which value is given makes no difference. -/
theorem replacement?_congr (hvalue : value.isUndefined = false)
    (hother : other.isUndefined = false) :
    schema.replacement? now field (some value) = schema.replacement? now field (some other) := by
  have hstamp : schema.stamp? now field.name (some value) =
      schema.stamp? now field.name (some other) := by
    simp [stamp?]
  cases hliteral : field.literal? with
  | none => rw [replacement?_of_noLiteral hliteral, replacement?_of_noLiteral hliteral, hstamp]
  | some literal =>
      rw [replacement?_of_literal hliteral, replacement?_of_literal hliteral, hstamp]
      cases schema.stamp? now field.name (some other) with
      | none => simp [hvalue, hother]
      | some time => rfl

theorem overrides_of_replacement? (hvalue : value.isUndefined = false)
    (hreplaced : (schema.replacement? now field (some value)).isSome = true) :
    schema.Overrides now field := fun given hgiven => by
  rwa [replacement?_congr hgiven hvalue]

/-- A time that is set whatever is given is set where nothing is given as well. -/
theorem stamp?_of_some {name : String} {time : Value}
    (hstamp : schema.stamp? now name (some value) = some time) (given : Option Value) :
    schema.stamp? now name given = some time := by
  unfold stamp? at hstamp ⊢
  cases htimestamps : schema.timestamps with
  | none => simp [htimestamps] at hstamp
  | some stamps =>
      simp only [htimestamps, Option.isNone_some, Bool.false_eq_true, and_false, or_false] at hstamp
      split at hstamp
      · next hupdated => simpa [hupdated] using hstamp
      · cases hstamp

/-- What takes the place of a value took the place of what was given before, if there was a value
to store. -/
theorem replacement?_again {given : Option Value} {replaced : Value}
    (hvalue : value.isUndefined = false)
    (hagain : schema.replacement? now field (some value) = some replaced)
    (hstored : (((schema.replacement? now field given).or given).filter fun value =>
      !value.isUndefined).isSome = true) :
    schema.replacement? now field given = some replaced := by
  cases hliteral : field.literal? with
  | none =>
      rw [replacement?_of_noLiteral hliteral] at hagain ⊢
      exact stamp?_of_some hagain given
  | some literal =>
      rw [replacement?_of_literal hliteral] at hagain hstored ⊢
      cases htime : schema.stamp? now field.name (some value) with
      | some time =>
          rw [stamp?_of_some htime given]
          rwa [htime] at hagain
      | none =>
          -- the default is forced, so that it was put there unless nothing was to be stored
          simp only [htime, Option.none_or, Option.elim_some, hvalue, Bool.not_false, Bool.and_true,
            Option.ite_none_right_eq_some] at hagain
          obtain ⟨hforce, hsame⟩ := hagain
          cases hcurrent : (schema.stamp? now field.name given).or given with
          | none => exact hsame
          | some current =>
              simp only [hcurrent, Option.elim_some, hforce, Bool.true_and] at hstored ⊢
              cases hdefined : current.isUndefined with
              | false => simpa [hdefined] using hsame
              | true => simp [hdefined, hcurrent, Option.filter_some] at hstored

end SchemaOf

/-! ## What is stable -/

/-- Saving the document gives the item for everything that the item is without and for everything
that is combined. -/
structure SchemaOf.Restores (schema : Schema σ) (writing : Writing) (scope : Scope σ)
    (document : Document) (item : Item) : Prop where
  absent : ∀ field ∈ schema.attributes, field.combine? = none → item.get? field.name = none →
    field.StoresAs writing writing.depth scope (schema.replacement? writing.now field none) none
  joined : ∀ field ∈ schema.attributes, ∀ sources separator,
    field.combine? = some (sources, separator) →
      schema.StoresJoined writing.now document field sources separator (item.get? field.name)

namespace WireValue

mutual

/-- Every document in a stored value is restored by saving what is read of it. -/
def Stable (writing : Writing) : WireValue → Scope σ → Place → List (CandidateType σ) → Prop
  | .list items, scope, place, types =>
    ∀ elements, .array elements ∈ types → WireValue.ItemsStable writing scope place elements 0 items
  | .map fields, scope, place, types =>
    ∀ type ∈ types, ∀ frame, scope.enter? place type = some frame →
      (∀ document, frame.ReadsAs fields document →
        frame.schema.Restores writing frame.scope document fields) ∧
      WireValue.FieldsStable writing frame fields
  | _, _, _, _ => True

/-- Every stored item is stable, from a position on. -/
def ItemsStable (writing : Writing) (scope : Scope σ) (place : Place)
    (elements : List (CandidateType σ)) : Nat → List WireValue → Prop
  | _, [] => True
  | index, item :: rest =>
    item.Stable writing scope (place.item index) elements ∧
      WireValue.ItemsStable writing scope place elements (index + 1) rest

/-- Every stored field is stable that saving does not override. -/
def FieldsStable (writing : Writing) (frame : Frame σ) : List (String × WireValue) → Prop
  | [] => True
  | (key, stored) :: rest =>
    (∀ field, frame.schema.attribute? key = some field →
      ¬ frame.schema.Overrides writing.now field →
        stored.Stable writing frame.scope (frame.place.child key) field.types) ∧
      WireValue.FieldsStable writing frame rest

end

end WireValue

/-- An item is restored by saving what is read of it, and so is every document in it. -/
def Frame.Stable (frame : Frame σ) (writing : Writing) (item : Item) : Prop :=
  (∀ document, frame.ReadsAs item document →
    frame.schema.Restores writing frame.scope document item) ∧
  WireValue.FieldsStable writing frame item

theorem WireValue.fieldsStable_iff {writing : Writing} {frame : Frame σ}
    {fields : List (String × WireValue)} : FieldsStable writing frame fields ↔
      ∀ entry ∈ fields, ∀ field, frame.schema.attribute? entry.1 = some field →
        ¬ frame.schema.Overrides writing.now field →
          entry.2.Stable writing frame.scope (frame.place.child entry.1) field.types := by
  induction fields with
  | nil => simp [FieldsStable]
  | cons entry rest ih => rw [FieldsStable, ih, List.forall_mem_cons]

/-! ## One document -/

theorem Frame.ReadsAs.unique {frame : Frame σ} {item : Item} {document other : Document}
    (before : σ) (hreads : frame.ReadsAs item document) (hother : frame.ReadsAs item other) :
    document = other := by
  simpa using (hreads before).symm.trans (hother before)

theorem Frame.ReadsAs.sorted {frame : Frame σ} {item : Item} {document : Document} (before : σ)
    (hreads : frame.ReadsAs item document) : Fields.Sorted document := by
  obtain ⟨loaded, -, rfl⟩ := (Frame.readsAs_iff before).mp hreads
  exact Fields.sorted_ofList _

section Documents

variable {start : Scope σ} {writing : Writing}

/-- What is stored for an attribute is stored again: what takes the place of a value took it
before, and a value that nothing takes the place of is saved as it was. -/
theorem SchemaOf.stored_again_iff {schema : Schema σ} {scope : Scope σ} {field : Attribute σ}
    {depth : Nat} {given : Option Value} {back : Value} {stored : WireValue}
    (hback : back.isUndefined = false)
    (hstored : match schema.replacement? writing.now field given with
      | some value => field.StoresAs writing depth scope (some value) (some stored)
      | none => field.StoresAs writing (depth + 1) scope given (some stored)) :
    (match schema.replacement? writing.now field (some back) with
      | some value => field.StoresAs writing depth scope (some value) (some stored)
      | none => field.StoresAs writing (depth + 1) scope (some back) (some stored)) ↔
    (¬ schema.Overrides writing.now field →
      back.SavesAs writing (depth + 1) scope field.types (some stored)) := by
  cases hagain : schema.replacement? writing.now field (some back) with
  | none =>
      have hkeeps : ¬ schema.Overrides writing.now field := fun hoverrides => by
        simpa [hagain] using hoverrides back hback
      simp only [AttributeOf.storesAs_some_iff hback, hkeeps, not_false_eq_true, forall_const]
  | some replaced =>
      have hoverrides : schema.Overrides writing.now field :=
        overrides_of_replacement? hback (by rw [hagain]; rfl)
      have hdefined : (((schema.replacement? writing.now field given).or given).filter fun value =>
          !value.isUndefined).isSome = true := by
        rw [Option.isSome_iff_ne_none]
        intro hnone
        cases hreplaced : schema.replacement? writing.now field given with
        | none =>
            simp only [hreplaced, Option.none_or] at hstored hnone
            simp [AttributeOf.StoresAs, hnone] at hstored
        | some value =>
            simp only [hreplaced, Option.some_or] at hstored hnone
            simp [AttributeOf.StoresAs, hnone] at hstored
      rw [replacement?_again hback hagain hdefined] at hstored
      exact ⟨fun _ hkeeps => absurd hoverrides hkeeps, fun _ => hstored⟩

/-- Where nothing is given there is nothing to save but what takes its place. -/
theorem SchemaOf.absent_again_iff {schema : Schema σ} {scope : Scope σ} {field : Attribute σ}
    {depth : Nat} : (match schema.replacement? writing.now field none with
      | some value => field.StoresAs writing depth scope (some value) none
      | none => field.StoresAs writing (depth + 1) scope none none) ↔
    field.StoresAs writing depth scope (schema.replacement? writing.now field none) none := by
  cases schema.replacement? writing.now field none with
  | none => exact Iff.rfl
  | some value => exact Iff.rfl

/-- A document that was read is saved as the item if the item is restored and each value in it is
saved as it was that nothing takes the place of. -/
theorem Frame.savesAs_read_iff (hstart : start.Declarative) {frame : Frame σ}
    (hreaches : start.Reaches frame.scope frame.schema) (before : σ)
    {given document : Document} {item : Item}
    (hgiven : frame.schema.SavesAs writing writing.depth frame.scope given item)
    (hreads : frame.ReadsAs item document)
    (hparts : ∀ entry ∈ item, ∀ field, frame.schema.attribute? entry.1 = some field →
      ∀ back, entry.2.ReadsAs frame.scope (frame.place.child entry.1) field.types back →
        back.isUndefined = false ∧
          (back.SavesAs writing (writing.depth + 1) frame.scope field.types (some entry.2) ↔
            entry.2.Stable writing frame.scope (frame.place.child entry.1) field.types)) :
    frame.schema.SavesAs writing writing.depth frame.scope (frame.schema.normalized document) item ↔
      frame.Stable writing item := by
  rw [SchemaOf.normalized_of_noAlias (hstart.noAlias _ _ hreaches) (hreads.sorted before)]
  have hschema := hstart.wellFormed _ _ hreaches
  have hdistinct := Fields.nodup_of_sorted hgiven.sorted
  have hloads : ∀ field ∈ frame.schema.attributes,
      frame.Loads item field (document.get? field.name) := fun field hfield =>
    hreads.loads_of_declared before hschema (hstart.noAlias _ _ hreaches)
      (fun entry hentry => hgiven.exists_attribute? hentry) hfield
  have habsent : ∀ field ∈ frame.schema.attributes, item.get? field.name = none →
      document.get? field.name = none := fun field hfield hnone => by
    simpa [Frame.Loads, hnone] using hloads field hfield
  -- what is stored for an attribute without sources, and what is read for it
  have hpresent : ∀ field ∈ frame.schema.attributes, field.combine? = none → ∀ stored,
      item.get? field.name = some stored →
        ((match frame.schema.replacement? writing.now field (document.get? field.name) with
          | some value =>
            field.StoresAs writing writing.depth frame.scope (some value) (some stored)
          | none => field.StoresAs writing (writing.depth + 1) frame.scope
              (document.get? field.name) (some stored)) ↔
          (¬ frame.schema.Overrides writing.now field →
            stored.Stable writing frame.scope (frame.place.child field.name) field.types)) := by
    intro field hfield hplain stored hstored
    have hback := hloads field hfield
    simp only [Frame.Loads, hstored] at hback
    obtain ⟨back, hget, hback⟩ := hback
    have hentry := (Fields.get?_eq_some_iff hdistinct).mp hstored
    obtain ⟨hdefined, hsaves⟩ := hparts _ hentry field (hschema.attribute?_name hfield) back hback
    have hfirst := hgiven.plain field hfield hplain
    rw [hstored] at hfirst
    rw [hget, SchemaOf.stored_again_iff hdefined hfirst, hsaves]
  rw [Frame.Stable, WireValue.fieldsStable_iff]
  constructor
  · intro hsaves
    refine ⟨fun read hread => ?_, ?_⟩
    · rw [hread.unique before hreads]
      refine ⟨fun field hfield hplain hnone => ?_, hsaves.combined⟩
      have hagain := hsaves.plain field hfield hplain
      rw [habsent field hfield hnone, hnone] at hagain
      exact SchemaOf.absent_again_iff.mp hagain
    · intro entry hentry field hattribute hkeeps
      obtain ⟨hfield, hname⟩ := SchemaOf.mem_of_attribute? hattribute
      have hstored := (Fields.get?_eq_some_iff hdistinct).mpr hentry
      rw [← hname] at hstored ⊢
      cases hcombine : field.combine? with
      | none =>
          have hagain := hsaves.plain field hfield hcombine
          rw [hstored] at hagain
          exact (hpresent field hfield hcombine _ hstored).mp hagain hkeeps
      | some sourced =>
          -- a combined attribute is stored as a text
          have hjoined := (hsaves.combined field hfield sourced.1 sourced.2 hcombine).stored
          rw [hstored] at hjoined
          obtain ⟨-, text, -, htext⟩ := hjoined
          rw [htext]
          trivial
  · rintro ⟨hrestored, hstable⟩
    have hrestores := hrestored document hreads
    refine ⟨hgiven.sorted, fun field hfield hplain => ?_, hrestores.joined, hgiven.declared⟩
    cases hstored : item.get? field.name with
    | none =>
        rw [habsent field hfield hstored]
        exact SchemaOf.absent_again_iff.mpr (hrestores.absent field hfield hplain hstored)
    | some stored =>
        have hentry := (Fields.get?_eq_some_iff hdistinct).mp hstored
        exact (hpresent field hfield hplain stored hstored).mpr
          (hstable _ hentry field (hschema.attribute?_name hfield))

end Documents

/-! ## What is read of a stored value -/

namespace Value

variable {start scope : Scope σ} {writing : Writing} {depth : Nat} {place : Place}
  {types : List (CandidateType σ)} {value : Value} {stored : WireValue}
  (hstart : start.Declarative) (hsave : writing.options = .save)
  (htypes : start.Discerns scope types) (before : σ)

include hstart hsave htypes before

/-- A value that is converted at once is saved as it is converted. -/
theorem savesAs_iff_convertsTo {choice : Choice σ}
    (hchoice : scope.resolve place types value = .ok choice)
    (hlist : ∀ items, value = .list items → ∀ elements, choice.type ≠ .array elements)
    (hmap : ∀ fields, value = .map fields → scope.enter? place choice.type = none)
    {result : Option WireValue} :
    value.SavesAs writing (depth + 1) scope types result ↔
      value.ConvertsTo scope place types result := by
  cases value with
  | list items =>
      rw [savesAs_list_iff hstart hsave htypes before place, convertsTo_list_iff before]
      refine exists_congr fun other => and_congr_right fun hother => ?_
      obtain rfl := Except.ok.inj (hchoice.symm.trans hother)
      cases harray : choice.type with
      | array elements => exact absurd harray (hlist items rfl elements)
      | _ => rfl
  | map fields =>
      rw [savesAs_map_iff hstart hsave htypes before place, convertsTo_map_iff before]
      refine exists_congr fun other => and_congr_right fun hother => ?_
      obtain rfl := Except.ok.inj (hchoice.symm.trans hother)
      rw [hmap fields rfl]
  | _ => exact savesAs_leaf_iff hstart hsave htypes before place (by simp) (by simp)

/-- What is stored plain is stored when it is saved, if it can be. -/
theorem SavesAs.exists_stored (hconverts : value.ConvertsTo scope place types (some stored))
    {result : Option WireValue} (hsaves : value.SavesAs writing (depth + 1) scope types result) :
    ∃ saved, result = some saved := by
  cases value with
  | list items =>
      obtain ⟨choice, hchoice, hparts⟩ :=
        (savesAs_list_iff hstart hsave htypes before place).mp hsaves
      split at hparts
      · obtain ⟨storeds, rfl, -⟩ := hparts
        exact ⟨_, rfl⟩
      · next hlist =>
          have hagain := (savesAs_iff_convertsTo hstart hsave htypes before hchoice
            (fun _ _ => hlist) (by simp)).mp hsaves
          exact ⟨stored, hagain.unique before hconverts⟩
  | map fields =>
      obtain ⟨choice, hchoice, hparts⟩ :=
        (savesAs_map_iff hstart hsave htypes before place).mp hsaves
      split at hparts
      · obtain ⟨item, rfl, -⟩ := hparts
        exact ⟨_, rfl⟩
      · next hnone =>
          have hagain := (savesAs_iff_convertsTo hstart hsave htypes before hchoice (by simp)
            fun _ _ => hnone).mp hsaves
          exact ⟨stored, hagain.unique before hconverts⟩
  | _ =>
      have hagain :=
        (savesAs_leaf_iff hstart hsave htypes before place (by simp) (by simp)).mp hsaves
      exact ⟨stored, hagain.unique before hconverts⟩

end Value

/-- One type fits both what is stored and what is read of it. -/
theorem WireValue.Returns.exists_choice {start scope : Scope σ} {stored : WireValue}
    {place : Place} {types : List (CandidateType σ)} {back : Value}
    (hreturns : stored.Returns start scope place types back) (hapart : scope.ToldApart types) :
    ∃ choice, scope.resolve place types back = .ok choice ∧
      scope.resolveStored place types stored = .ok choice := by
  obtain ⟨choice, hmem, hscore, hstoredScore⟩ := hreturns.scores place (.inl rfl)
  exact ⟨choice, hapart.resolve_iff.mpr ⟨hreturns.sameKind ▸ hmem, hscore.pos⟩,
    hapart.resolveStored_iff.mpr ⟨hmem, hstoredScore.pos⟩⟩

section Saved

variable {start : Scope σ} {writing : Writing}
  (hstart : start.Declarative) (hsave : writing.options = .save) (before : σ)

include hstart hsave before

/-- What was saved and is read comes back. -/
theorem WireValue.returns_of_saved {stored : WireValue} {scope : Scope σ} {place : Place}
    {types : List (CandidateType σ)} {depth : Nat} {back : Value}
    (hmemory : stored.size ≤ 2 ^ 63) (htypes : start.Discerns scope types)
    (hsaved : stored.Saved writing (depth + 1) scope types)
    (hreads : stored.ReadsAs scope place types back) :
    stored.Returns start scope place types back := by
  obtain ⟨found, hfound⟩ := exists_returns hstart.repeatable before
    (Scope.explains_saved hstart hsave before) stored hmemory htypes hsaved
    (lasts_of_saved hstart hsave before stored htypes hsaved hreads)
  rwa [hreads.unique before hfound.reads]

omit before in
theorem SchemaOf.SavesAs.saved_of_mem {schema : Schema σ} {scope : Scope σ}
    (hreaches : start.Reaches scope schema) (before : σ) {depth : Nat} {document : Document}
    {item : Item} (hsaves : schema.SavesAs writing depth scope document item)
    {field : Attribute σ} {entry : String × WireValue}
    (hattribute : schema.attribute? entry.1 = some field) (hentry : entry ∈ item) :
    entry.2.Saved writing (depth + 1) scope field.types := by
  obtain ⟨hfield, hname⟩ := mem_of_attribute? hattribute
  refine hsaves.saved hstart hsave hreaches before hfield ?_
  rw [hname]
  exact (Fields.get?_eq_some_iff (Fields.nodup_of_sorted hsaves.sorted)).mpr hentry

namespace WireValue

/-! ### By recursion on the stored value -/

/-- A scalar or set, and everything else that is stored at once, is saved as it was. -/
theorem savesAs_of_atOnce {stored : WireValue} {scope : Scope σ} {place : Place}
    {types : List (CandidateType σ)} {depth : Nat} {back : Value}
    (htypes : start.Discerns scope types)
    (hreturns : stored.Returns start scope place types back) {choice : Choice σ}
    (hchoice : scope.resolveStored place types stored = .ok choice)
    (hlist : ∀ items, stored = .list items → ∀ elements, choice.type ≠ .array elements)
    (hmap : ∀ fields, stored = .map fields → scope.enter? place choice.type = none) :
    back.SavesAs writing (depth + 1) scope types (some stored) := by
  obtain ⟨other, hresolve, hother⟩ := hreturns.exists_choice htypes.apart
  obtain rfl := Except.ok.inj (hchoice.symm.trans hother)
  refine (Value.savesAs_iff_convertsTo hstart hsave htypes before hresolve
    (fun items hitems elements harray => ?_) fun fields hfields => ?_).mpr hreturns.writes
  · -- nothing but a list is stored as one of a list type
    obtain ⟨hmem, hpos⟩ := htypes.apart.resolveStored_iff.mp hchoice
    have hreading := (Scope.mem_choices.mp hmem).2
    rw [harray, Scope.readings_of_ne_model (by simp), List.mem_singleton] at hreading
    have hholds := mem_holds_of_score hpos
    rw [hreading] at hholds
    cases stored with
    | list storeds => exact hlist storeds rfl elements harray
    | _ => simp [CandidateType.holds, wireType] at hholds
  · have hkind := hreturns.sameKind
    rw [hfields] at hkind
    cases stored with
    | map storeds => exact hmap storeds rfl
    | _ => cases hkind

mutual

/-- What is read of a stored value is saved as it was exactly if the stored value is stable. -/
theorem savesAs_read_iff : ∀ (stored : WireValue) {scope : Scope σ} {place : Place}
    {types : List (CandidateType σ)} {back : Value}, stored.size ≤ 2 ^ 63 →
      start.Discerns scope types → stored.Saved writing (writing.depth + 1) scope types →
        stored.ReadsAs scope place types back →
          (back.SavesAs writing (writing.depth + 1) scope types (some stored) ↔
            stored.Stable writing scope place types)
  | .list items, scope, place, types, back, hmemory, htypes, hsaved, hreads => by
      have hreturns := returns_of_saved hstart hsave before hmemory htypes hsaved hreads
      obtain ⟨choice, hresolve, hchoice⟩ := hreturns.exists_choice htypes.apart
      obtain ⟨other, hother, hparts⟩ := (readsAs_list_iff before).mp hreads
      obtain rfl := Except.ok.inj (hchoice.symm.trans hother)
      unfold Stable
      split at hparts
      · next elements harray =>
          obtain ⟨values, rfl, hvalues⟩ := hparts
          have htype := harray ▸ (Scope.of_resolve hresolve).1
          have hitems := (Scope.explains_saved hstart hsave before htypes hsaved).of_array
            htypes.apart htype
          have hiff := itemsSaveAs_read_iff items (by rw [size] at hmemory; omega)
            (hstart.repeatable.elements_discerns htypes htype) hitems hvalues
          rw [Value.savesAs_list_iff hstart hsave htypes before place]
          constructor
          · rintro ⟨_, hagain, hsaves⟩ others hothers
            obtain rfl := Except.ok.inj (hresolve.symm.trans hagain)
            obtain rfl : elements = others := by
              have hsame := htypes.apart.eq_of_resolve_list hothers hresolve
              rw [hsame] at harray
              exact (CandidateType.array.inj harray).symm
            simp only [harray] at hsaves
            obtain ⟨storeds, hsame, hsaves⟩ := hsaves
            obtain rfl : items = storeds := by simpa using hsame
            exact hiff.mp hsaves
          · intro hstable
            refine ⟨choice, hresolve, ?_⟩
            simp only [harray]
            exact ⟨items, rfl, hiff.mpr (hstable elements htype)⟩
      · next hnot =>
          refine iff_of_true ?_ fun elements harray => ?_
          · exact savesAs_of_atOnce hstart hsave before htypes hreturns hchoice
              (fun _ _ => hnot) (by simp)
          · have hsame := htypes.apart.eq_of_resolveStored_list harray hchoice
            exact absurd (congrArg Choice.type hsame) (hnot elements)
  | .map item, scope, place, types, back, hmemory, htypes, hsaved, hreads => by
      have hreturns := returns_of_saved hstart hsave before hmemory htypes hsaved hreads
      obtain ⟨choice, hresolve, hchoice⟩ := hreturns.exists_choice htypes.apart
      obtain ⟨other, hother, hparts⟩ := (readsAs_map_iff before).mp hreads
      obtain rfl := Except.ok.inj (hchoice.symm.trans hother)
      have htype := (Scope.of_resolve hresolve).1
      unfold Stable
      cases henter : scope.enter? place choice.type with
      | some frame =>
          simp only [henter] at hparts
          obtain ⟨document, rfl, hdocument⟩ := hparts
          have hreaches := htypes.reaches htype henter
          obtain ⟨given, hgiven⟩ :=
            hsaved.of_map hstart hsave before htypes htype (Scope.opens_of_enter? henter)
          have hfields := fieldsSaveAs_read_iff item (by rw [size] at hmemory; omega) hreaches
          have hiff := Frame.savesAs_read_iff hstart hreaches before hgiven hdocument
            fun entry hentry field hattribute back hback =>
              hfields entry hentry field hattribute
                (hgiven.saved_of_mem hstart hsave hreaches before hattribute hentry) back hback
          rw [Value.savesAs_map_iff hstart hsave htypes before place]
          constructor
          · rintro ⟨_, hagain, hsaves⟩ type hmem other hother
            obtain rfl := Except.ok.inj (hresolve.symm.trans hagain)
            obtain rfl : frame = other := by
              rw [htypes.apart.eq_of_resolve_map hmem hother hresolve, hother] at henter
              exact (Option.some.inj henter).symm
            simp only [henter] at hsaves
            obtain ⟨stored, hsame, hsaves⟩ := hsaves
            obtain rfl : item = stored := by simpa using hsame
            exact hiff.mp hsaves
          · intro hstable
            refine ⟨choice, hresolve, ?_⟩
            simp only [henter]
            exact ⟨item, rfl, hiff.mpr (hstable choice.type htype frame henter)⟩
      | none =>
          refine iff_of_true ?_ fun type hmem frame hframe => ?_
          · exact savesAs_of_atOnce hstart hsave before htypes hreturns hchoice (by simp)
              fun _ _ => henter
          · rw [htypes.apart.eq_of_resolveStored_map hmem hframe hchoice, hframe] at henter
            cases henter
  | .string _, _, _, _, _, hmemory, htypes, hsaved, hreads
  | .number _, _, _, _, _, hmemory, htypes, hsaved, hreads
  | .binary _, _, _, _, _, hmemory, htypes, hsaved, hreads
  | .stringSet _, _, _, _, _, hmemory, htypes, hsaved, hreads
  | .numberSet _, _, _, _, _, hmemory, htypes, hsaved, hreads
  | .binarySet _, _, _, _, _, hmemory, htypes, hsaved, hreads
  | .boolean _, _, _, _, _, hmemory, htypes, hsaved, hreads
  | .null _, _, _, _, _, hmemory, htypes, hsaved, hreads => by
      have hreturns := returns_of_saved hstart hsave before hmemory htypes hsaved hreads
      obtain ⟨choice, -, hchoice⟩ := hreturns.exists_choice htypes.apart
      exact iff_of_true (savesAs_of_atOnce hstart hsave before htypes hreturns hchoice (by simp)
        (by simp)) trivial

theorem itemsSaveAs_read_iff : ∀ (items : List WireValue) {scope : Scope σ} {place : Place}
    {elements : List (CandidateType σ)} {index : Nat} {values : List Value},
      itemsSize items ≤ 2 ^ 63 → start.Discerns scope elements →
        (∀ item ∈ items, item.Saved writing (writing.depth + 1) scope elements) →
          ItemsReadAs items scope place elements index values →
            (Value.ItemsSaveAs values writing writing.depth scope elements items ↔
              WireValue.ItemsStable writing scope place elements index items)
  | [], _, _, _, _, _, _, _, _, hreads => by
      obtain rfl := (itemsReadAs_nil_iff before).mp hreads
      exact ⟨fun _ => trivial, fun _ => (Value.itemsSaveAs_nil_iff before).mpr rfl⟩
  | item :: rest, scope, place, elements, index, values, hmemory, helements, hsaved, hreads => by
      obtain ⟨value, others, hvalue, hothers, rfl⟩ := (itemsReadAs_cons_iff before).mp hreads
      rw [itemsSize] at hmemory
      have hitem := hsaved item (by simp)
      have hfirst := savesAs_read_iff item (by omega) helements hitem hvalue
      have hrest := itemsSaveAs_read_iff rest (by omega) helements
        (fun other hother => hsaved other (by simp [hother])) hothers
      have hreturns := returns_of_saved hstart hsave before (by omega) helements hitem hvalue
      rw [ItemsStable, ← hfirst, ← hrest, Value.itemsSaveAs_cons_iff hstart hsave before helements]
      constructor
      · rintro ⟨stored, storeds, hsaves, hsavesRest, hsame⟩
        obtain ⟨saved, rfl⟩ := hsaves.exists_stored hstart hsave helements before hreturns.writes
        obtain ⟨rfl, rfl⟩ := List.cons.inj hsame
        exact ⟨hsaves, hsavesRest⟩
      · rintro ⟨hsaves, hsavesRest⟩
        exact ⟨_, _, hsaves, hsavesRest, rfl⟩

theorem fieldsSaveAs_read_iff : ∀ (fields : List (String × WireValue)) {frame : Frame σ},
    fieldsSize fields ≤ 2 ^ 63 → start.Reaches frame.scope frame.schema →
      ∀ entry ∈ fields, ∀ field, frame.schema.attribute? entry.1 = some field →
        entry.2.Saved writing (writing.depth + 1) frame.scope field.types →
        ∀ back, entry.2.ReadsAs frame.scope (frame.place.child entry.1) field.types back →
          back.isUndefined = false ∧
            (back.SavesAs writing (writing.depth + 1) frame.scope field.types (some entry.2) ↔
              entry.2.Stable writing frame.scope (frame.place.child entry.1) field.types)
  | [], _, _, _, _, hentry => by simp at hentry
  | (key, stored) :: rest, frame, hmemory, hreaches, entry, hentry => by
      rw [fieldsSize] at hmemory
      rcases List.mem_cons.mp hentry with rfl | hentry
      · intro field hattribute hsaved back hreads
        have htypes := hstart.repeatable.attribute_discerns hreaches
          (SchemaOf.mem_of_attribute? hattribute).1
        have hsize : stored.size ≤ 2 ^ 63 := by omega
        have hreturns := returns_of_saved hstart hsave before hsize htypes hsaved hreads
        exact ⟨hreturns.isUndefined_eq_false before,
          savesAs_read_iff stored hsize htypes hsaved hreads⟩
      · exact fieldsSaveAs_read_iff rest (by omega) hreaches entry hentry

end

end WireValue

/-- A document that was saved and read is saved as it was exactly if the item is stable. -/
theorem Frame.savesAs_iff_stable {frame : Frame σ}
    (hreaches : start.Reaches frame.scope frame.schema)
    {given document : Document} {item : Item} (hmemory : (WireValue.map item).size ≤ 2 ^ 63)
    (hgiven : frame.schema.SavesAs writing writing.depth frame.scope given item)
    (hreads : frame.ReadsAs item document) :
    frame.schema.SavesAs writing writing.depth frame.scope (frame.schema.normalized document) item ↔
      frame.Stable writing item := by
  have hfields := WireValue.fieldsSaveAs_read_iff hstart hsave before item
    (by rw [WireValue.size] at hmemory; omega) hreaches
  exact savesAs_read_iff hstart hreaches before hgiven hreads
    fun entry hentry field hattribute back hback =>
      hfields entry hentry field hattribute
        (hgiven.saved_of_mem hstart hsave hreaches before hattribute hentry) back hback

end Saved

end ItemMapper
