import ItemMapper.Proofs.Saving.Saved

/-!
# What has been saved and can be read lasts

A value that is saved is made of the saved values of its parts (`Scope.explains_saved`): a document
of what becomes of its attributes, and no other fields.  So if the stored value can be read at all,
nothing of it is lost (`WireValue.lasts_of_saved`).  Dates are the only stored values that may fail
to be read, and one that is read is stored as it was again.
-/

namespace ItemMapper

variable {σ : Type}

open Pipeline

/-! ## Stored scalars and sets -/

/-- What is stored at once is of a kind that its type holds. -/
theorem Reading.holds_of_encodeScalar {reading : Reading σ} {value : Value} {stored : WireValue}
    {round : Rat → Rat} (hscore : 0 < value.score round reading)
    (hencode : reading.encodeScalar value = .ok (some stored)) :
    stored.wireType ∈ reading.type.holds := by
  obtain ⟨scope, place, type⟩ := reading
  cases type with
  | primitive kind =>
      rw [Value.score_of_whole rfl] at hscore
      obtain ⟨-, -, hstored⟩ := WireValue.natural_of_primitive hscore
        (show value.natural? = some stored by simpa [encodeScalar] using hencode)
      exact WireValue.mem_holds_of_scalarScore (by rw [hstored]; norm_num)
  | combine sources separator =>
      rw [Value.score_of_whole rfl] at hscore
      have htakes := Value.mem_takes_of_scalarScore hscore.ne'
      have hnatural : value.natural? = some stored := by simpa [encodeScalar] using hencode
      cases value <;> simp [CandidateType.takes, Value.typeName] at htakes
      obtain rfl := Option.some.inj hnatural
      exact List.mem_singleton_self _
  | constant expected =>
      rw [Value.score_of_whole rfl] at hscore
      unfold Value.scalarScore at hscore
      rw [Score.ofBool_pos] at hscore
      have hequal : expected.equal value = true := hscore
      have hnatural : value.natural? = some stored := by simpa [encodeScalar] using hencode
      rw [← Value.natural?_eq_of_equal hequal] at hnatural
      simp [CandidateType.holds, hnatural]
  | date storage =>
      obtain ⟨t, -, rfl⟩ := exists_date_of_encodeScalar rfl hencode
      cases storage <;> exact List.mem_singleton_self _
  | set element =>
      obtain ⟨kind, members, hkind, -, hencoded⟩ :=
        WireValue.exists_kind_of_encodeScalar rfl hencode
      obtain ⟨_, -, -, hstore, -⟩ := SetElement.exists_distinct_of_encode hencoded
      simp [CandidateType.holds, hkind, SetElement.wireType_of_store? hstore]
  | _ => cases value <;> simp [encodeScalar] at hencode

namespace WireValue

variable {stored : WireValue}

theorem legible_of_date? {storage : DateStorage} {t u : Instant}
    (hread : (ofDate t storage).date? storage = some u) : (ofDate t storage).Legible storage :=
  ⟨u, hread, ofDate_of_date? hread⟩

/-- The members of a stored set of dates are stored dates. -/
theorem exists_dates_of_encode {storage : DateStorage} {values : List Value}
    (hencode : (SetElement.date storage).encode values = .ok (some stored)) :
    ∀ member ∈ stored.members, ∃ t, member = ofDate t storage := by
  have hwire : (SetElement.date storage).wireType ≠ .binarySet := by cases storage <;> decide
  obtain ⟨texts, -, -, htexts, -, hstored⟩ := SetElement.exists_texts_of_encode
    hwire (fun text => ∃ t, ofDateText storage text = ofDate t storage)
    (fun value _ member hmember => by
      simp only [SetElement.member?, Option.bind_eq_some_iff, Option.map_eq_some_iff] at hmember
      obtain ⟨t, -, text, htext, rfl⟩ := hmember
      refine ⟨text, rfl, t, ?_⟩
      cases storage <;> simp_all [ofDate, SetElement.scalarText?, ofDateText]) hencode
  intro member hmember
  rw [hstored] at hmember
  cases storage <;> simp only [SetElement.wireType, members, reduceIte, reduceCtorEq] at hmember <;>
    · obtain ⟨text, htext, rfl⟩ := List.mem_map.mp hmember
      exact htexts text htext

/-- A stored scalar or set that can be read has legible dates. -/
theorem leafLasts_of_decodeLeaf {reading other : Reading σ} {value back : Value}
    (htype : other.type = reading.type)
    (hencode : reading.encodeScalar value = .ok (some stored))
    (hdecode : stored.decodeLeaf other = .ok back) : stored.LeafLasts reading.type := by
  cases hleaf : reading.type with
  | date storage =>
      obtain ⟨t, -, rfl⟩ := Reading.exists_date_of_encodeScalar hleaf hencode
      unfold decodeLeaf at hdecode
      simp only [htype, hleaf] at hdecode
      split at hdecode
      · next u hread => exact legible_of_date? hread
      · cases hdecode
  | set element =>
      cases element with
      | date storage =>
          obtain ⟨kind, members, hkind, -, hencoded⟩ := exists_kind_of_encodeScalar hleaf hencode
          obtain rfl : SetElement.date storage = kind := by
            simpa [CandidateType.setElement?] using hkind
          unfold decodeLeaf at hdecode
          simp only [htype, hleaf, CandidateType.setElement?, Option.getD_some] at hdecode
          split at hdecode
          · next set hset =>
              have hfits : stored.wireType ∈ (CandidateType.set (σ := σ) (.date storage)).holds := by
                obtain ⟨_, -, -, hstore, -⟩ := SetElement.exists_distinct_of_encode hencoded
                simp [CandidateType.holds, CandidateType.setElement?,
                  SetElement.wireType_of_store? hstore]
              obtain ⟨texts, dates, hmembers, hread, -⟩ := exists_dates_of_setOf? hfits hset
              intro member hmember
              obtain ⟨t, rfl⟩ := exists_dates_of_encode hencoded member hmember
              rw [hmembers] at hmember
              obtain ⟨text, htext, hsame⟩ := List.mem_map.mp hmember
              obtain ⟨u, -, hu⟩ := exists_related_left (forall₂_of_mapM_eq_some hread) htext
              rw [hsame] at hu
              exact legible_of_date? hu
          · cases hdecode
      | _ => trivial
  | _ => trivial

end WireValue

/-! ## How stored values were made -/

namespace WireValue

/-- The stored form of a value that was saved as one of some types. -/
def Saved (stored : WireValue) (writing : Writing) (depth : Nat) (scope : Scope σ)
    (types : List (CandidateType σ)) : Prop :=
  ∃ value : Value, value.SavesAs writing depth scope types (some stored)

section Made

variable {start scope : Scope σ} {types : List (CandidateType σ)} {stored : WireValue}
  {stores : Scope σ → List (CandidateType σ) → WireValue → Prop}

/-- What was made as one of some types is of a kind that this type holds. -/
theorem MadeBy.of_array (hapart : scope.ToldApart types) {storeds : List WireValue}
    {elements : List (CandidateType σ)} (harray : .array elements ∈ types)
    (hmade : (WireValue.list storeds).MadeBy stores scope types) :
    ∀ stored ∈ storeds, stores scope elements stored := by
  have hchoice : ∀ {elements : List (CandidateType σ)}, .array elements ∈ types →
      (⟨.array elements, ⟨scope, .root, .array elements⟩⟩ : Choice σ) ∈
        scope.choices .root types false := fun helements =>
    Scope.mem_choices.mpr ⟨helements, List.mem_singleton_self _⟩
  cases hmade with
  | list hothers hitems =>
      have hsame := hapart.eq_of_holds (hchoice harray) (hchoice hothers)
        (List.mem_singleton_self WireType.list) (List.mem_singleton_self _)
      obtain rfl : elements = _ := by simpa using congrArg Choice.type hsame
      exact hitems
  | @atOnce _ value place choice hmem hpos hencode =>
      have hholds := Reading.holds_of_encodeScalar hpos hencode
      rw [← Reading.isDocument_of_encodeScalar hencode] at hmem
      obtain ⟨found, hfound, htype⟩ := Scope.exists_choice_at hmem .root
      rw [← htype] at hholds
      have hsame := hapart.eq_of_holds (hchoice harray) hfound
        (List.mem_singleton_self WireType.list) hholds
      have hleaf := Reading.atOnce_of_encodeScalar hencode
      rw [← htype, ← hsame] at hleaf
      exact absurd rfl (hleaf.not_inside.1 elements)

end Made

end WireValue

section Saved

variable {start scope : Scope σ} {schema : Schema σ} {writing : Writing} {depth : Nat}
  (hstart : start.Declarative) (hsave : writing.options = .save)

include hstart hsave

theorem Value.ItemsSaveAs.saved (before : σ) {elements : List (CandidateType σ)}
    (helements : start.Discerns scope elements) {items : List Value} {storeds : List WireValue}
    (hsaves : ItemsSaveAs items writing depth scope elements storeds) :
    ∀ stored ∈ storeds, stored.Saved writing (depth + 1) scope elements := by
  induction items generalizing storeds with
  | nil => simp [(itemsSaveAs_nil_iff before).mp hsaves]
  | cons item rest ih =>
      obtain ⟨first, others, hfirst, hothers, rfl⟩ :=
        (itemsSaveAs_cons_iff hstart hsave before helements).mp hsaves
      intro stored hstored
      rcases List.mem_append.mp hstored with hstored | hstored
      · obtain rfl : first = some stored := by simpa using hstored
        exact ⟨item, hfirst⟩
      · exact ih hothers stored hstored

/-- What is stored for an attribute was saved as one of its types. -/
theorem AttributeOf.StoresAs.saved {field : Attribute σ}
    (htypes : start.Discerns scope field.types) {value : Option Value} {stored : WireValue}
    (hstores : field.StoresAs writing depth scope value (some stored)) {deeper : Nat}
    (hdepth : depth ≤ deeper) : stored.Saved writing deeper scope field.types := by
  unfold StoresAs at hstores
  split at hstores
  · cases hstores.2
  · exact ⟨_, hstores.of_le hstart hsave htypes hdepth⟩

theorem SchemaOf.SavesAs.saved (hreaches : start.Reaches scope schema) (before : σ)
    {document : Document} {item : Item}
    (hsaves : schema.SavesAs writing depth scope document item) {field : Attribute σ}
    (hfield : field ∈ schema.attributes) {stored : WireValue}
    (hstored : item.get? field.name = some stored) :
    stored.Saved writing (depth + 1) scope field.types := by
  have htypes := hstart.repeatable.attribute_discerns hreaches hfield
  cases hcombine : field.combine? with
  | none =>
      have hplain := hsaves.plain field hfield hcombine
      rw [hstored] at hplain
      split at hplain
      · exact hplain.saved hstart hsave htypes (Nat.le_succ depth)
      · exact hplain.saved hstart hsave htypes le_rfl
  | some sourced =>
      obtain ⟨sources, separator⟩ := sourced
      have hjoined := (hsaves.combined field hfield sources separator hcombine).stored
      rw [hstored] at hjoined
      obtain ⟨-, text, -, rfl⟩ := hjoined
      refine ⟨.string text, ?_⟩
      rw [AttributeOf.types_of_combine? hcombine]
      exact (Value.savesAs_joined_iff before hsave).mpr rfl

omit hstart hsave in
/-- Only attributes are stored. -/
theorem SchemaOf.SavesAs.exists_attribute? {document : Document} {item : Item}
    (hsaves : schema.SavesAs writing depth scope document item) {key : String}
    {stored : WireValue} (hentry : (key, stored) ∈ item) :
    ∃ field, schema.attribute? key = some field := by
  rw [← Option.isSome_iff_exists, Option.isSome_iff_ne_none]
  intro hnone
  rw [attribute?, List.find?_eq_none] at hnone
  have habsent := hsaves.declared key fun hmem => by
    obtain ⟨field, hfield, rfl⟩ := List.mem_map.mp hmem
    simpa using hnone field hfield
  exact Fields.get?_eq_none_iff.mp habsent stored hentry

/-- What was saved was made by saving the parts of the value. -/
theorem Scope.explains_saved (before : σ) :
    start.Explains fun scope types stored => stored.Saved writing (depth + 1) scope types := by
  rintro scope types stored htypes ⟨value, hsaves⟩
  have hrepeatable := hstart.repeatable
  cases value with
  | undefined =>
      have hconverts := (Value.savesAs_leaf_iff hstart hsave htypes before .root (by simp)
        (by simp)).mp hsaves
      have hnone : Value.undefined.ConvertsTo scope .root types none :=
        fun _ _ => by simp [Value.writer]
      cases hconverts.unique before hnone
  | list items =>
      obtain ⟨choice, hchoice, hparts⟩ :=
        (Value.savesAs_list_iff hstart hsave htypes before .root).mp hsaves
      have htype := (of_resolve hchoice).1
      split at hparts
      · next elements harray =>
          obtain ⟨storeds, hsame, hstoreds⟩ := hparts
          obtain rfl := Option.some.inj hsame
          rw [harray] at htype
          exact .list htype (hstoreds.saved hstart hsave before
            (hrepeatable.elements_discerns htypes htype))
      · next hlist =>
          exact .of_encodeAs hrepeatable htypes hchoice (fun _ _ => hlist) (by simp) hparts
  | map fields =>
      obtain ⟨choice, hchoice, hparts⟩ :=
        (Value.savesAs_map_iff hstart hsave htypes before .root).mp hsaves
      have htype := (of_resolve hchoice).1
      cases henter : scope.enter? .root choice.type with
      | some frame =>
          simp only [henter] at hparts
          obtain ⟨item, hsame, hitem⟩ := hparts
          obtain rfl := Option.some.inj hsame
          have hreaches := htypes.reaches htype henter
          have hdistinct := Fields.nodup_of_sorted hitem.sorted
          refine .document htype henter hitem.sorted (fun entry hentry field hfield => ?_)
            fun entry hentry hnone => ?_
          · obtain ⟨hmem, hname⟩ := SchemaOf.mem_of_attribute? hfield
            refine hitem.saved hstart hsave hreaches before hmem ?_
            rw [hname]
            exact (Fields.get?_eq_some_iff hdistinct).mpr hentry
          · obtain ⟨field, hfield⟩ := hitem.exists_attribute? hentry
            rw [hnone] at hfield
            cases hfield
      | none =>
          simp only [henter] at hparts
          exact .of_encodeAs hrepeatable htypes hchoice (by simp) (fun _ _ => henter) hparts
  | _ =>
      have hconverts := (Value.savesAs_leaf_iff hstart hsave htypes before .root (by simp)
        (by simp)).mp hsaves
      obtain ⟨choice, hchoice, hencode⟩ :=
        (Value.convertsTo_leaf_iff before rfl (by simp) (by simp)).mp hconverts
      exact .of_encodeAs hrepeatable htypes hchoice (by simp) (by simp) hencode

/-- A stored document was saved attribute by attribute. -/
theorem WireValue.Saved.of_map (before : σ) {types : List (CandidateType σ)}
    (htypes : start.Discerns scope types) {item : Item}
    (hsaved : (WireValue.map item).Saved writing (depth + 1) scope types) {type : CandidateType σ}
    (htype : type ∈ types) {inner : Scope σ} (hopens : scope.Opens type inner schema) :
    ∃ document, schema.SavesAs writing depth inner document item := by
  obtain ⟨value, hsaves⟩ := hsaved
  obtain ⟨entered, henter⟩ := hopens.enter? .root
  have hrepeatable := hstart.repeatable
  -- nothing but a document is stored as one at once
  have hatOnce : ∀ {choice : Choice σ}, choice.reading.encodeScalar value = .ok (some (.map item)) →
      value.isDocument = true := fun hencode =>
    (Reading.isDocument_of_encodeScalar hencode).symm
  cases value with
  | map fields =>
      obtain ⟨choice, hchoice, hparts⟩ :=
        (Value.savesAs_map_iff hstart hsave htypes before .root).mp hsaves
      obtain rfl := htypes.apart.eq_of_resolve_map htype henter hchoice
      simp only [henter] at hparts
      obtain ⟨others, hsame, hitem⟩ := hparts
      obtain rfl : item = others := by simpa using hsame
      exact ⟨_, hitem⟩
  | list items =>
      obtain ⟨choice, hchoice, hparts⟩ :=
        (Value.savesAs_list_iff hstart hsave htypes before .root).mp hsaves
      split at hparts
      · obtain ⟨storeds, hsame, -⟩ := hparts
        cases hsame
      · next hlist =>
          have hmem := (htypes.apart.resolve_iff.mp hchoice).1
          rw [Reading.encodeScalar_of_encodeAs_list hrepeatable htypes hmem hlist] at hparts
          cases hatOnce hparts
  | undefined =>
      have hconverts := (Value.savesAs_leaf_iff hstart hsave htypes before .root (by simp)
        (by simp)).mp hsaves
      have hnone : Value.undefined.ConvertsTo scope .root types none :=
        fun _ _ => by simp [Value.writer]
      cases hconverts.unique before hnone
  | _ =>
      have hconverts := (Value.savesAs_leaf_iff hstart hsave htypes before .root (by simp)
        (by simp)).mp hsaves
      obtain ⟨choice, -, hencode⟩ :=
        (Value.convertsTo_leaf_iff before rfl (by simp) (by simp)).mp hconverts
      simp only [Value.encodeAs] at hencode
      cases hatOnce hencode

end Saved

/-! ## What lasts -/

/-- An attribute is read as the document shows it, where only attributes are stored. -/
theorem Frame.ReadsAs.loads_of_declared {frame : Frame σ} {item : Item} {document : Document}
    (hreads : frame.ReadsAs item document) (before : σ) (hschema : frame.schema.WellFormed)
    (hnoAlias : ∀ field ∈ frame.schema.attributes, field.nativeAlias = none)
    (hdeclared : ∀ entry ∈ item, ∃ field, frame.schema.attribute? entry.1 = some field)
    {field : Attribute σ} (hfield : field ∈ frame.schema.attributes) :
    frame.Loads item field (document.get? field.name) := by
  have hname : ∀ other ∈ frame.schema.attributes, other.nativeName = other.name :=
    fun other hother => by simp [AttributeOf.nativeName, hnoAlias other hother]
  have hshown : ∀ key value, (key, value) ∉ frame.shown item := by
    intro key value hmem
    obtain ⟨hnone, stored, hentry, -⟩ := mem_shown.mp hmem
    obtain ⟨field, hfield⟩ := hdeclared _ hentry
    rw [hnone] at hfield
    cases hfield
  cases hstored : item.get? field.name with
  | none =>
      have habsent : document.get? field.name = none := by
        rw [Option.eq_none_iff_forall_ne_some]
        intro value hvalue
        rcases hreads.cases_get? before hvalue with ⟨other, hother, hsame, hloads⟩ | hmem
        · rw [hname other hother] at hsame
          obtain ⟨stored, hget, -⟩ := loads_some_iff.mp hloads
          rw [hsame, hstored] at hget
          cases hget
        · exact hshown _ _ hmem
      simp [Loads, hstored, habsent]
  | some stored =>
      obtain ⟨value, hloads⟩ := hreads.exists_loads before hfield hstored
      have hget := hreads.get?_nativeName before hfield hloads
        (fun other hother _ hsame => hschema.eq_of_name_eq hother hfield (by
          rwa [hname other hother, hname field hfield] at hsame)) (hshown _)
      rw [hname field hfield] at hget
      rwa [hget]

/-- A stored scalar or set that was saved and can be read lasts. -/
theorem WireValue.leafLasts_of_made {scope : Scope σ} {place : Place}
    {types : List (CandidateType σ)} (hapart : scope.ToldApart types) (before : σ)
    {stores : Scope σ → List (CandidateType σ) → WireValue → Prop} {stored : WireValue}
    (hlist : ∀ items, stored ≠ .list items) (hmap : ∀ fields, stored ≠ .map fields)
    (hmade : stored.MadeBy stores scope types) {back : Value}
    (hreads : stored.ReadsAs scope place types back) {reading : Reading σ}
    (hreading : reading ∈ types.flatMap (scope.readings place false))
    (hholds : stored.wireType ∈ reading.type.holds) : stored.LeafLasts reading.type := by
  have hkind : stored.isDocument = false := by
    cases stored with
    | map fields => exact absurd rfl (hmap fields)
    | _ => rfl
  cases hmade with
  | document => exact absurd rfl (hmap _)
  | list => exact absurd rfl (hlist _)
  | @atOnce _ value origin choice hmem hpos hencode =>
      rw [← Reading.isDocument_of_encodeScalar hencode, hkind] at hmem
      obtain ⟨found, hfound, htype⟩ := Scope.exists_choice_at hmem place
      obtain ⟨chosen, hchosen, hdecode⟩ := (readsAs_leaf_iff before hlist hmap).mp hreads
      obtain ⟨hchosenMem, hchosenPos⟩ := hapart.resolveStored_iff.mp hchosen
      rw [hkind] at hchosenMem
      rw [Scope.readings_eq_map] at hreading
      obtain ⟨other, hother, rfl⟩ := List.mem_map.mp hreading
      -- all three are the one type that holds values of this kind
      have hfoundHolds := Reading.holds_of_encodeScalar hpos hencode
      rw [← htype] at hfoundHolds
      obtain rfl := hapart.eq_of_holds hfound hother hfoundHolds hholds
      obtain rfl := hapart.eq_of_holds hfound hchosenMem hfoundHolds
        (mem_holds_of_score hchosenPos)
      rw [htype]
      exact leafLasts_of_decodeLeaf htype hencode hdecode

section Lasts

variable {start : Scope σ} {writing : Writing} {depth : Nat}

/-- What holds of every field of an item that was saved and is read. -/
theorem Frame.fields_of_saved (hstart : start.Declarative) (hsave : writing.options = .save)
    (before : σ) {frame : Frame σ} (hreaches : start.Reaches frame.scope frame.schema)
    {given document : Document} {item : Item}
    (hsaves : frame.schema.SavesAs writing depth frame.scope given item)
    (hreads : frame.ReadsAs item document) :
    ∀ entry ∈ item, ∃ field value, frame.schema.attribute? entry.1 = some field ∧
      entry.2.Saved writing (depth + 1) frame.scope field.types ∧
        entry.2.ReadsAs frame.scope (frame.place.child entry.1) field.types value := by
  intro entry hentry
  obtain ⟨field, hfield⟩ := hsaves.exists_attribute? hentry
  obtain ⟨hmem, hname⟩ := SchemaOf.mem_of_attribute? hfield
  have hstored : item.get? field.name = some entry.2 := by
    rw [hname]
    exact (Fields.get?_eq_some_iff (Fields.nodup_of_sorted hsaves.sorted)).mpr hentry
  obtain ⟨value, hloads⟩ := hreads.exists_loads before hmem hstored
  obtain ⟨kept, hkept, hvalue⟩ := loads_some_iff.mp hloads
  obtain rfl := Option.some.inj (hstored.symm.trans hkept)
  exact ⟨field, value, hfield, hsaves.saved hstart hsave hreaches before hmem hstored,
    hname ▸ hvalue⟩

namespace WireValue

mutual

/-- What was saved and can be read lasts. -/
theorem lasts_of_saved (hstart : start.Declarative) (hsave : writing.options = .save) (before : σ) :
    ∀ (stored : WireValue) {scope : Scope σ} {types : List (CandidateType σ)} {place : Place}
      {back : Value}, start.Discerns scope types → stored.Saved writing (depth + 1) scope types →
        stored.ReadsAs scope place types back → stored.Lasts scope place types
  | .list items, scope, types, place, back, htypes, hsaved, hreads => by
      unfold Lasts
      intro elements harray
      obtain ⟨choice, hchoice, hparts⟩ := (readsAs_list_iff before).mp hreads
      obtain rfl := htypes.apart.eq_of_resolveStored_list harray hchoice
      obtain ⟨values, rfl, hvalues⟩ := hparts
      have hitems := (Scope.explains_saved hstart hsave before htypes hsaved).of_array
        htypes.apart harray
      exact itemsLast_of_saved hstart hsave before items
        (hstart.repeatable.elements_discerns htypes harray) hitems hvalues
  | .map item, scope, types, place, back, htypes, hsaved, hreads => by
      unfold Lasts
      intro type htype frame henter
      obtain ⟨choice, hchoice, hparts⟩ := (readsAs_map_iff before).mp hreads
      obtain rfl := htypes.apart.eq_of_resolveStored_map htype henter hchoice
      simp only [henter] at hparts
      obtain ⟨document, rfl, hdocument⟩ := hparts
      obtain ⟨given, hgiven⟩ :=
        hsaved.of_map hstart hsave before htypes htype (Scope.opens_of_enter? henter)
      have hreaches := htypes.reaches htype henter
      exact fieldsLast_of_saved hstart hsave before item hreaches
        (Frame.fields_of_saved hstart hsave before hreaches hgiven hdocument)
  | .string _, _, _, _, _, htypes, hsaved, hreads
  | .number _, _, _, _, _, htypes, hsaved, hreads
  | .binary _, _, _, _, _, htypes, hsaved, hreads
  | .stringSet _, _, _, _, _, htypes, hsaved, hreads
  | .numberSet _, _, _, _, _, htypes, hsaved, hreads
  | .binarySet _, _, _, _, _, htypes, hsaved, hreads
  | .boolean _, _, _, _, _, htypes, hsaved, hreads
  | .null _, _, _, _, _, htypes, hsaved, hreads => by
      unfold Lasts
      exact fun reading hreading hholds => leafLasts_of_made htypes.apart before (by simp) (by simp)
        (Scope.explains_saved hstart hsave before htypes hsaved) hreads hreading hholds

theorem itemsLast_of_saved (hstart : start.Declarative) (hsave : writing.options = .save)
    (before : σ) : ∀ (items : List WireValue) {scope : Scope σ} {elements : List (CandidateType σ)}
      {place : Place} {index : Nat} {values : List Value}, start.Discerns scope elements →
        (∀ item ∈ items, item.Saved writing (depth + 1) scope elements) →
          ItemsReadAs items scope place elements index values →
            WireValue.ItemsLast scope place elements index items
  | [], _, _, _, _, _, _, _, _ => trivial
  | item :: rest, scope, elements, place, index, values, helements, hsaved, hreads => by
      obtain ⟨value, others, hitem, hrest, rfl⟩ := (itemsReadAs_cons_iff before).mp hreads
      exact ⟨lasts_of_saved hstart hsave before item helements (hsaved item (by simp)) hitem,
        itemsLast_of_saved hstart hsave before rest helements
          (fun other hother => hsaved other (by simp [hother])) hrest⟩

theorem fieldsLast_of_saved (hstart : start.Declarative) (hsave : writing.options = .save)
    (before : σ) : ∀ (fields : List (String × WireValue)) {frame : Frame σ},
      start.Reaches frame.scope frame.schema →
      (∀ entry ∈ fields, ∃ field value, frame.schema.attribute? entry.1 = some field ∧
        entry.2.Saved writing (depth + 1) frame.scope field.types ∧
          entry.2.ReadsAs frame.scope (frame.place.child entry.1) field.types value) →
      WireValue.FieldsLast frame fields
  | [], _, _, _ => trivial
  | (key, stored) :: rest, frame, hreaches, hfields => by
      obtain ⟨field, value, hfield, hsaved, hvalue⟩ := hfields (key, stored) (by simp)
      have hmem := (SchemaOf.mem_of_attribute? hfield).1
      have hnoAlias := hstart.noAlias _ _ hreaches
      refine ⟨?_, fieldsLast_of_saved hstart hsave before rest hreaches
        fun entry hentry => hfields entry (by simp [hentry])⟩
      simp only [hfield]
      refine ⟨?_, lasts_of_saved hstart hsave before stored
        (hstart.repeatable.attribute_discerns hreaches hmem) hsaved hvalue⟩
      rw [SchemaOf.nativeAttribute?_of_noAlias hnoAlias, AttributeOf.nativeName,
        hnoAlias field hmem, Option.getD_none,
        (hstart.wellFormed _ _ hreaches).attribute?_name hmem]

end

end WireValue

end Lasts

end ItemMapper
