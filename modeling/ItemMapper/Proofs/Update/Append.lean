import ItemMapper.Mapper
import ItemMapper.Proofs.Plain.Paths
import ItemMapper.Proofs.Plain.Reading
import ItemMapper.Proofs.Typing.Apart
import ItemMapper.Proofs.Update.Keys

/-!
# When adding to a list appends to it

What is added to a list attribute is appended to the stored list, unless the document of the item
is known and has no items there; then the list is assigned.  The document is looked at under the
path as it is written, but it only knows the native names of the attributes, while a path may spell
an attribute by its stored name as well.

`PathPosition.Leads` lists the steps of a path that is declared to its end.  Where candidate types
are told apart, reading an item enters the same schemas as following a path does
(`Frame.ReadsAs`, `PathPosition.Holds`), so the two can be compared step by step
(`PathPosition.Leads.descend?_iff`): the document has a value under the path exactly when every
step names its attribute natively.  `Mapper.update_appends_iff` draws the conclusion: a list that
has items is appended to if the path is spelled natively, and is overwritten otherwise.
-/

namespace ItemMapper

variable {σ : Type}

open Pipeline

/-! ## Stored values at a path -/

/-- The stored value at a path of an item. -/
def WireValue.at? : WireValue → List Segment → Option WireValue
  | stored, [] => some stored
  | .map fields, .name key :: rest => (Fields.get? fields key).bind (WireValue.at? · rest)
  | .list items, .index position :: rest => (items[position]?).bind (WireValue.at? · rest)
  | _, _ :: _ => none

namespace WireValue

variable {stored inner : WireValue} {rest : List Segment}

theorem at?_name_eq_some {key : String} (hinner : stored.at? (.name key :: rest) = some inner) :
    ∃ item field, stored = .map item ∧ Fields.get? item key = some field ∧
      field.at? rest = some inner := by
  cases stored with
  | map item =>
      rw [at?, Option.bind_eq_some_iff] at hinner
      obtain ⟨field, hfield, hrest⟩ := hinner
      exact ⟨item, field, rfl, hfield, hrest⟩
  | _ => simp [at?] at hinner

theorem at?_index_eq_some {position : Nat}
    (hinner : stored.at? (.index position :: rest) = some inner) :
    ∃ items item, stored = .list items ∧ items[position]? = some item ∧
      item.at? rest = some inner := by
  cases stored with
  | list items =>
      rw [at?, Option.bind_eq_some_iff] at hinner
      obtain ⟨item, hitem, hrest⟩ := hinner
      exact ⟨items, item, rfl, hitem, hrest⟩
  | _ => simp [at?] at hinner

end WireValue

/-! ## The steps of a path -/

/-- A step of a path that is declared: a part that names an attribute, or a position in a list. -/
inductive Step (σ : Type) where
  | attribute (part : String) (field : Attribute σ)
  | item (index : Nat)

namespace Step

/-- The step on the stored side. -/
def segment : Step σ → Segment
  | .attribute _ field => .name field.name
  | .item index => .index index

/-- An attribute is spelled by its native name. -/
def IsNative : Step σ → Prop
  | .attribute part field => field.nativeName = part
  | .item _ => True

/-- Where some steps spell an attribute by its alias, no undeclared data with this name is stored
next to it. -/
def Unshadowed (steps : List (Step σ)) (stored : WireValue) : Prop :=
  ∀ earlier part field later, steps = earlier ++ .attribute part field :: later →
    field.nativeAlias = some part → stored.at? (earlier.map segment ++ [.name part]) = none

theorem Unshadowed.tail {step : Step σ} {steps : List (Step σ)} {stored inner : WireValue}
    (hfree : Unshadowed (step :: steps) stored)
    (hinner : ∀ rest, stored.at? (step.segment :: rest) = inner.at? rest) :
    Unshadowed steps inner := by
  intro earlier part field later hsteps halias
  rw [← hinner]
  exact hfree (step :: earlier) part field later (by rw [hsteps, List.cons_append]) halias

end Step

namespace PathPosition

variable {scope : Scope σ} {place : Place} {types : List (CandidateType σ)} {path part : String}
  {rest : List String}

/-- Some parts lead through these steps to a value with some candidate types. -/
inductive Leads : PathPosition σ → List String → List (Step σ) → List (CandidateType σ) → Prop
  | here {scope : Scope σ} {place : Place} {types : List (CandidateType σ)} :
      Leads (.value scope place types) [] [] types
  | named {frame : Frame σ} {part : String} {rest : List String} {field : Attribute σ}
      {steps : List (Step σ)} {types : List (CandidateType σ)}
      (hfield : frame.schema.nativeAttribute? part = some field)
      (hrest : Leads (.value frame.scope (frame.place.child part) field.types) rest steps types) :
      Leads (.document frame) (part :: rest) (.attribute part field :: steps) types
  | enter {scope : Scope σ} {place : Place} {candidates types : List (CandidateType σ)}
      {frame : Frame σ} {part : String} {rest : List String} {steps : List (Step σ)}
      (hpart : Decimal.parseIndex? part = none)
      (hframe : descend? scope place candidates part = some frame)
      (hrest : Leads (.document frame) (part :: rest) steps types) :
      Leads (.value scope place candidates) (part :: rest) steps types
  | item {scope : Scope σ} {place : Place} {candidates types : List (CandidateType σ)}
      {part : String} {index : Nat} {rest : List String} {steps : List (Step σ)}
      (hpart : Decimal.parseIndex? part = some index) (hlist : elementTypes candidates ≠ [])
      (hrest : Leads (.value scope (place.child part) (elementTypes candidates)) rest steps types) :
      Leads (.value scope place candidates) (part :: rest) (.item index :: steps) types

/-- A path that ends at a declared value is declared throughout. -/
theorem leads_of_follow : ∀ {parts : List String} {position : PathPosition σ}
    {segments : List Segment} {last : Option (Attribute σ)} {target : ResolvedPath σ}
    {types : List (CandidateType σ)},
    follow path parts position segments last = .ok target → target.types = some types →
    ∃ steps, position.Leads parts steps types ∧
      target.segments = segments ++ steps.map Step.segment := by
  intro parts
  induction parts with
  | nil =>
      intro position segments last target types hfollow htypes
      obtain rfl := Except.ok.inj hfollow
      cases position with
      | document frame => simp [types?] at htypes
      | value scope place candidates =>
          obtain rfl : candidates = types := by simpa [types?] using htypes
          exact ⟨[], .here, by simp⟩
  | cons part rest ih =>
      -- inside of a document the part names an attribute
      have hdocument : ∀ {frame : Frame σ} {segments : List Segment} {last : Option (Attribute σ)}
          {target : ResolvedPath σ} {types : List (CandidateType σ)},
          follow path (part :: rest) (.document frame) segments last = .ok target →
          target.types = some types →
          ∃ steps, Leads (.document frame) (part :: rest) steps types ∧
            target.segments = segments ++ steps.map Step.segment := by
        intro frame segments last target types hfollow htypes
        simp only [follow] at hfollow
        split at hfollow
        · simp at hfollow
        · split at hfollow
          case h_1 field hfield =>
            obtain ⟨steps, hsteps, hsegments⟩ := ih hfollow htypes
            exact ⟨_, .named hfield hsteps, by simp [hsegments, Step.segment]⟩
          case h_2 =>
            split at hfollow
            · obtain rfl := Except.ok.inj hfollow
              simp at htypes
            · simp at hfollow
      intro position segments last target types hfollow htypes
      cases position with
      | document frame => exact hdocument hfollow htypes
      | value scope place candidates =>
          have hpart : part ≠ "" := by
            rintro rfl
            simp [follow] at hfollow
          cases hindex : Decimal.parseIndex? part with
          | some index =>
              simp only [follow, hpart, if_false, hindex] at hfollow
              split at hfollow
              · simp at hfollow
              · next hlist =>
                  obtain ⟨steps, hsteps, hsegments⟩ := ih hfollow htypes
                  exact ⟨_, .item hindex hlist hsteps, by simp [hsegments, Step.segment]⟩
          | none =>
              cases hframe : descend? scope place candidates part with
              | none => simp [follow, hpart, hindex, hframe] at hfollow
              | some frame =>
                  have hinside : follow path (part :: rest) (.document frame) segments last =
                      .ok target := by
                    simpa only [follow, hpart, if_false, hindex, hframe] using hfollow
                  obtain ⟨steps, hsteps, hsegments⟩ := hdocument hinside htypes
                  exact ⟨steps, .enter hindex hframe hsteps, hsegments⟩

/-- A value leads into a document of one of its types. -/
theorem opens_of_descend? {frame : Frame σ} (hframe : descend? scope place types part = some frame) :
    ∃ type ∈ types, scope.Opens type frame.scope frame.schema := by
  have hmem : frame ∈ types.filterMap (scope.enter? place) := by
    rw [descend?, Option.or_eq_some_iff] at hframe
    rcases hframe with hfound | ⟨-, hfirst⟩
    · exact List.mem_of_find?_eq_some hfound
    · exact List.mem_of_head? hfirst
  obtain ⟨type, htype, henter⟩ := List.mem_filterMap.mp hmem
  exact ⟨type, htype, Scope.opens_of_enter? henter⟩

/-- Told-apart types have at most one list among them. -/
theorem elementTypes_eq {elements : List (CandidateType σ)} (hapart : scope.ToldApart types)
    (harray : .array elements ∈ types) : elementTypes types = elements := by
  induction types with
  | nil => simp at harray
  | cons first rest ih =>
      obtain ⟨hrest, hfirst⟩ := hapart.of_cons
      rw [elementTypes, List.flatMap_cons, ← elementTypes]
      have hlists : ∀ {elements others : List (CandidateType σ)}, first = .array elements →
          .array others ∉ rest := by
        rintro elements others rfl hothers
        have hnot := hfirst .root false
          ⟨_, ⟨scope, .root, _⟩⟩
            (Scope.mem_choices.mpr ⟨List.mem_singleton_self _, List.mem_singleton_self _⟩)
          ⟨_, ⟨scope, .root, _⟩⟩ (Scope.mem_choices.mpr ⟨hothers, List.mem_singleton_self _⟩)
        exact hnot.holds (List.mem_singleton_self WireType.list) (List.mem_singleton_self _)
      rcases List.mem_cons.mp harray with rfl | harray
      · have hnone : elementTypes rest = [] := by
          rw [elementTypes, List.flatMap_eq_nil_iff]
          intro type htype
          cases type with
          | array others => exact absurd htype (hlists rfl)
          | _ => rfl
        rw [hnone, List.append_nil]
      · rw [ih hrest harray]
        cases hother : first with
        | array others => exact absurd harray (hlists hother)
        | _ => rfl

theorem exists_array_of_elementTypes (hlist : elementTypes types ≠ []) :
    ∃ elements, .array elements ∈ types := by
  rw [elementTypes, Ne, List.flatMap_eq_nil_iff] at hlist
  push Not at hlist
  obtain ⟨type, htype, hne⟩ := hlist
  cases type with
  | array elements => exact ⟨elements, htype⟩
  | _ => simp at hne

end PathPosition

/-! ## What the document has under a path -/

namespace WireValue

variable {stored : WireValue} {scope : Scope σ} {place : Place} {types : List (CandidateType σ)}

/-- Each item is read at its own position. -/
theorem ItemsReadAs.getElem? (before : σ) {items : List WireValue}
    {elements : List (CandidateType σ)} {index : Nat} {values : List Value}
    (hitems : ItemsReadAs items scope place elements index values) {position : Nat}
    {item : WireValue} (hitem : items[position]? = some item) :
    ∃ value, values[position]? = some value ∧
      item.ReadsAs scope (place.item (index + position)) elements value := by
  induction items generalizing index values position with
  | nil => simp at hitem
  | cons first rest ih =>
      obtain ⟨value, others, hfirst, hothers, rfl⟩ := (itemsReadAs_cons_iff before).mp hitems
      cases position with
      | zero =>
          obtain rfl : first = item := by simpa using hitem
          exact ⟨value, rfl, hfirst⟩
      | succ position =>
          obtain ⟨found, hfound, hreads⟩ := ih hothers (by simpa using hitem)
          refine ⟨found, by simpa using hfound, ?_⟩
          rwa [Nat.add_right_comm] at hreads

theorem eq_nil_of_natural_nil (hnatural : stored.natural = .list []) : stored = .list [] := by
  cases stored with
  | list items => cases items <;> simp_all [natural, naturalItems]
  | number text => simp [natural, Value.ofNumberText] at hnatural
  | _ => simp [natural] at hnatural

/-- Only the list without items is decoded to such a list. -/
theorem eq_nil_of_decodeLeaf_nil {reading : Reading σ} (hpos : 0 < stored.score Score.rounded reading)
    (hdecode : stored.decodeLeaf reading = .ok (.list [])) : stored = .list [] := by
  obtain ⟨scope, place, type⟩ := reading
  cases type with
  | constant expected =>
      obtain rfl : expected = .list [] := by simpa [decodeLeaf] using hdecode
      -- a constant is decoded from its own stored form
      have hscore : 0 < stored.scalarScore (.constant (.list []) : CandidateType σ) := by
        cases stored <;> simpa [WireValue.score, Reading.enter?, Scope.enter?] using hpos
      have hnatural : (Value.list []).natural? = some stored := by
        simpa [WireValue.scalarScore, Score.ofBool_pos] using hscore
      exact (Option.some.inj hnatural).symm
  | date storage =>
      simp only [decodeLeaf] at hdecode
      split at hdecode <;> simp at hdecode
  | set element =>
      simp only [decodeLeaf] at hdecode
      split at hdecode
      · next set hset =>
          obtain rfl := Except.ok.inj hdecode
          unfold setOf? at hset
          split at hset
          case h_6 => simp at hset
          all_goals simp [natural] at hset
      · simp at hdecode
  | _ => exact eq_nil_of_natural_nil (by simpa [decodeLeaf] using hdecode)

/-- Only the list without items is read as such a list. -/
theorem eq_nil_of_readsAs_nil (before : σ) (hreads : stored.ReadsAs scope place types (.list [])) :
    stored = .list [] := by
  have hleaf : ∀ {choice : Choice σ}, scope.resolveStored place types stored = .ok choice →
      stored.decodeLeaf choice.reading = .ok (.list []) → stored = .list [] :=
    fun hchoice hdecode => eq_nil_of_decodeLeaf_nil (Scope.pos_of_resolveStored hchoice) hdecode
  cases stored with
  | list items =>
      obtain ⟨choice, hchoice, hinside⟩ := (readsAs_list_iff before).mp hreads
      split at hinside
      · obtain ⟨values, hvalues, hitems⟩ := hinside
        obtain rfl : values = [] := by simpa using hvalues.symm
        cases items with
        | nil => rfl
        | cons item rest =>
            obtain ⟨value, others, -, -, hcons⟩ := (itemsReadAs_cons_iff before).mp hitems
            simp at hcons
      · exact hleaf hchoice hinside
  | map fields =>
      obtain ⟨choice, hchoice, hinside⟩ := (readsAs_map_iff before).mp hreads
      split at hinside
      · obtain ⟨document, hdocument, -⟩ := hinside
        simp at hdocument
      · exact hleaf hchoice hinside
  | _ =>
      obtain ⟨choice, hchoice, hdecode⟩ := (readsAs_leaf_iff before (by simp) (by simp)).mp hreads
      exact hleaf hchoice hdecode

end WireValue

/-- The attribute that a part names by its stored name stands under another name in the document,
and nothing stands under the part. -/
theorem Frame.ReadsAs.get?_eq_none {frame : Frame σ} {item : Item} {document : Document}
    (hreads : frame.ReadsAs item document) (before : σ) (hschema : frame.schema.WellFormed)
    {part : String} {field : Attribute σ} (hfield : frame.schema.nativeAttribute? part = some field)
    (hspelled : field.nativeName ≠ part) : document.get? part = none := by
  -- the part is no alias at all, so it is the stored name
  have hnative : ∀ {other : Attribute σ}, other.nativeAlias = some part → other.nativeName = part :=
    fun halias => by rw [AttributeOf.nativeName, halias, Option.getD_some]
  rw [SchemaOf.nativeAttribute?, Option.or_eq_some_iff] at hfield
  rcases hfield with halias | ⟨hnoAlias, hattribute⟩
  · exact absurd (hnative (by simpa using List.find?_some halias)) hspelled
  obtain ⟨hdeclared, hname⟩ := SchemaOf.mem_of_attribute? hattribute
  cases hvalue : document.get? part with
  | none => rfl
  | some value =>
      rcases hreads.cases_get? before hvalue with ⟨other, hother, hotherName, -⟩ | hshown
      · have hotherAlias : other.nativeAlias = none := by
          cases halias : other.nativeAlias with
          | none => rfl
          | some found =>
              obtain rfl : found = part := by simpa [AttributeOf.nativeName, halias] using hotherName
              exact absurd (by simp [halias]) (List.find?_eq_none.mp hnoAlias other hother)
        obtain rfl : other.name = part := by
          simpa [AttributeOf.nativeName, hotherAlias] using hotherName
        rw [hschema.eq_of_name_eq hdeclared hother hname] at hspelled
        exact absurd hotherName hspelled
      · simp [mem_shown, hattribute] at hshown

namespace PathPosition

/-- At the position a stored value is read as this one. -/
def Holds : PathPosition σ → WireValue → Value → Prop
  | .document frame, stored, back => ∃ place item document, stored = .map item ∧
      back = .map document ∧ Frame.ReadsAs ⟨frame.scope, place, frame.schema⟩ item document
  | .value scope _ types, stored, back => ∃ place, stored.ReadsAs scope place types back

/-- The position can be reached, and the types at it are told apart. -/
def Reached (start : Scope σ) : PathPosition σ → Prop
  | .document frame => start.Reaches frame.scope frame.schema
  | .value scope _ types => (∀ type ∈ types, start.Uses scope type) ∧ scope.ToldApart types

/-- What can be reached is left by no step. -/
theorem Reached.named {start : Scope σ} (hstart : start.Discerning) {frame : Frame σ}
    {field : Attribute σ} (hreached : (PathPosition.document frame).Reached start)
    (hfield : frame.schema.nativeAttribute? part = some field) :
    (PathPosition.value frame.scope place field.types).Reached start := by
  have hdeclared := SchemaOf.mem_of_nativeAttribute? hfield
  exact ⟨fun type htype => .attribute hreached hdeclared htype,
    hstart.attributes _ _ hreached field hdeclared⟩

theorem Reached.enter {start : Scope σ} {frame : Frame σ}
    (hreached : (PathPosition.value scope place types).Reached start)
    (hframe : descend? scope place types part = some frame) :
    (PathPosition.document frame).Reached start := by
  obtain ⟨type, htype, hopens⟩ := opens_of_descend? hframe
  exact .inside (hreached.1 type htype) hopens

theorem Reached.item {start : Scope σ} (hstart : start.Discerning) (inner : Place)
    (hreached : (PathPosition.value scope place types).Reached start)
    (hlist : elementTypes types ≠ []) :
    (PathPosition.value scope inner (elementTypes types)).Reached start := by
  obtain ⟨elements, harray⟩ := exists_array_of_elementTypes hlist
  have huses := hreached.1 _ harray
  rw [elementTypes_eq hreached.2 harray]
  exact ⟨fun type htype => .element huses htype, hstart.elements _ _ huses⟩

theorem Leads.toldApart {start : Scope σ} (hstart : start.Discerning) {position : PathPosition σ}
    {parts : List String} {steps : List (Step σ)} {types : List (CandidateType σ)}
    (hleads : position.Leads parts steps types) (hreached : position.Reached start) :
    ∃ scope : Scope σ, scope.ToldApart types := by
  induction hleads with
  | here => exact ⟨_, hreached.2⟩
  | named hfield _ ih => exact ih (hreached.named hstart hfield)
  | enter _ hframe _ ih => exact ih (hreached.enter hframe)
  | item _ hlist _ ih => exact ih (hreached.item hstart _ hlist)

/-- What a path of a document leads to is stored in a declared attribute. -/
theorem Leads.exists_stored {frame : Frame σ} {item : Item} {stored : WireValue}
    {parts : List String} {steps : List (Step σ)}
    (hleads : (PathPosition.document frame).Leads parts steps types)
    (hstored : (WireValue.map item).at? (steps.map Step.segment) = some stored) :
    ∃ field ∈ frame.schema.attributes, (Fields.get? item field.name).isSome = true := by
  cases hleads with
  | named hfield =>
      obtain ⟨_, kept, hitem, hkept, -⟩ := WireValue.at?_name_eq_some hstored
      obtain rfl := WireValue.map.inj hitem
      exact ⟨_, SchemaOf.mem_of_nativeAttribute? hfield, by rw [hkept, Option.isSome_some]⟩

/-- A path that spells every attribute natively leads to what the stored value is read as, and any
other one leads to nothing. -/
theorem Leads.descend?_iff {start : Scope σ} (hstart : start.Discerning)
    (hnames : ∀ scope schema, start.Reaches scope schema →
      (schema.attributes.map AttributeOf.nativeName).Nodup)
    (before : σ) {position : PathPosition σ} {parts : List String} {steps : List (Step σ)}
    {types : List (CandidateType σ)} (hleads : position.Leads parts steps types) :
    ∀ {stored inner : WireValue} {value : Value}, position.Reached start →
      position.Holds stored value → stored.at? (steps.map Step.segment) = some inner →
      Step.Unshadowed steps stored →
      ((∀ step ∈ steps, step.IsNative) → ∃ scope place back, value.descend? parts = some back ∧
        inner.ReadsAs scope place types back) ∧
      ((¬ ∀ step ∈ steps, step.IsNative) → value.descend? parts = none) := by
  induction hleads with
  | here =>
      rintro stored inner value hreached ⟨place, hreads⟩ hinner -
      obtain rfl : stored = inner := by simpa [WireValue.at?] using hinner
      refine ⟨fun _ => ⟨_, place, value, by simp [Value.descend?], hreads⟩, ?_⟩
      simp
  | @named frame part rest field steps types hfield hrest ih =>
      rintro stored inner value hreached ⟨place, item, document, rfl, rfl, hreads⟩ hinner hfree
      have hschema := hstart.wellFormed _ _ hreached
      have hdeclared := SchemaOf.mem_of_nativeAttribute? hfield
      obtain ⟨_, kept, hitem, hkept, hinner⟩ := WireValue.at?_name_eq_some hinner
      obtain rfl := WireValue.map.inj hitem
      obtain ⟨back, hloads⟩ := hreads.exists_loads before hdeclared hkept
      rw [Value.descend?_map_cons]
      by_cases hspelled : field.nativeName = part
      · have hback : Fields.get? document part = some back := by
          rw [← hspelled]
          refine hreads.get?_nativeName before hdeclared hloads (fun other hother _ hname => ?_) ?_
          · exact List.inj_on_of_nodup_map (hnames _ _ hreached) hother hdeclared hname
          · intro other hshown
            obtain ⟨hundeclared, shadow, hshadow, -⟩ := Frame.mem_shown.mp hshown
            rw [hspelled] at hundeclared hshadow
            -- undeclared data under the native name means that this is an alias
            have halias : field.nativeAlias = some part := by
              cases halias : field.nativeAlias with
              | none =>
                  have hname : field.name = part := by
                    simpa [AttributeOf.nativeName, halias] using hspelled
                  rw [← hname, hschema.attribute?_name hdeclared] at hundeclared
                  simp at hundeclared
              | some found => simpa [AttributeOf.nativeName, halias] using hspelled
            have hnone := hfree [] part field steps rfl halias
            have hnotMem : Fields.get? item part = none := by
              simpa [WireValue.at?] using hnone
            exact Fields.get?_eq_none_iff.mp hnotMem shadow hshadow
        obtain ⟨_, hsame, hback'⟩ := Frame.loads_some_iff.mp hloads
        obtain rfl := Option.some.inj (hsame.symm.trans hkept)
        obtain ⟨hnative, hother⟩ := ih (hreached.named hstart hfield) ⟨_, hback'⟩ hinner
          (hfree.tail fun rest => by simp [WireValue.at?, Step.segment, hkept])
        have hfirst : (Step.attribute part field : Step σ).IsNative := hspelled
        rw [hback, Option.bind_some]
        simpa [hfirst] using And.intro hnative hother
      · have hnone := hreads.get?_eq_none before hschema hfield hspelled
        have hfirst : ¬ (Step.attribute part field : Step σ).IsNative := hspelled
        simp [hnone, hfirst]
  | @enter scope place candidates types frame part rest steps hpart hframe hrest ih =>
      rintro stored inner value hreached ⟨read, hreads⟩ hinner hfree
      obtain ⟨type, htype, hopens⟩ := opens_of_descend? hframe
      obtain ⟨item, rfl⟩ : ∃ item, stored = .map item := by
        cases hrest with
        | named =>
            obtain ⟨item, _, hitem, -⟩ := WireValue.at?_name_eq_some hinner
            exact ⟨item, hitem⟩
      obtain ⟨choice, hchoice, hinside⟩ := (WireValue.readsAs_map_iff before).mp hreads
      obtain ⟨entered, henter⟩ := hreached.2.enter?_of_resolveStored_map htype hopens hchoice
      rw [henter] at hinside
      obtain ⟨document, rfl, hdocument⟩ := hinside
      exact ih (hreached.enter hframe) ⟨entered, item, document, rfl, rfl, hdocument⟩ hinner hfree
  | @item scope place candidates types part index rest steps hpart hlist hrest ih =>
      rintro stored inner value hreached ⟨read, hreads⟩ hinner hfree
      obtain ⟨items, kept, rfl, hkept, hinner⟩ := WireValue.at?_index_eq_some hinner
      obtain ⟨elements, harray⟩ := exists_array_of_elementTypes hlist
      have hnext := hreached.item hstart (place.child part) hlist
      rw [elementTypes_eq hreached.2 harray] at ih hnext
      obtain ⟨choice, hchoice, hinside⟩ := (WireValue.readsAs_list_iff before).mp hreads
      obtain rfl := hreached.2.eq_of_resolveStored_list harray hchoice
      obtain ⟨values, rfl, hitems⟩ := hinside
      obtain ⟨back, hback, hreadsBack⟩ := hitems.getElem? before hkept
      have hinside := ih hnext ⟨_, hreadsBack⟩ hinner
        (hfree.tail fun rest => by simp [WireValue.at?, Step.segment, hkept])
      simpa [Value.descend?, hpart, hback, Step.IsNative] using hinside

end PathPosition

/-! ## What is added to a list -/

namespace CandidateType

variable {scope : Scope σ} {types : List (CandidateType σ)}

/-- A list type is told apart from every set type. -/
theorem firstSetElement?_eq_none (hapart : scope.ToldApart types) {elements : List (CandidateType σ)}
    (harray : .array elements ∈ types) : firstSetElement? types = none := by
  rw [firstSetElement?, List.findSome?_eq_none_iff]
  intro type htype
  cases type with
  | set element =>
      have hmem : ∀ {type : CandidateType σ}, type ∈ types → (∀ name, type ≠ .model name) →
          (⟨type, ⟨scope, .root, type⟩⟩ : Choice σ) ∈ scope.choices .root types false := by
        intro type htype hmodel
        refine Scope.mem_choices.mpr ⟨htype, ?_⟩
        rw [Scope.readings_of_ne_model hmodel]
        exact List.mem_singleton_self _
      have hsame := hapart.eq_of_takes (hmem htype (by simp)) (hmem harray (by simp))
        (List.mem_cons_of_mem _ (List.mem_singleton_self "array")) (List.mem_singleton_self "array")
      simp at hsame
  | _ => rfl

end CandidateType

namespace Change

/-- The change adds something to a list attribute.  A number that is added to an attribute that may
be a number is not added to the list. -/
def AddsItems (change : Change σ) (types : List (CandidateType σ)) (added : Value) : Prop :=
  change.request = .add added ∧ change.target.types = some types ∧
    (∃ elements, .array elements ∈ types) ∧
    ¬ (CandidateType.hasNumber types = true ∧ ∃ x, added = .number x)

/-- An attribute whose steps are all spelled natively is appended to, and any other is assigned. -/
structure GoesBySpelling (change : Change σ) (steps : List (Step σ)) (action : Action) : Prop where
  appends : (∃ operand, action = .append change.target.segments operand) ↔
    ∀ step ∈ steps, step.IsNative
  assigns : (∃ operand, action = .set change.target.segments operand) ↔
    ¬ ∀ step ∈ steps, step.IsNative

/-- A list is assigned if it is known to have no items, and grows otherwise. -/
theorem action_of_addition {scope inner : Scope σ} {current : Document} {change : Change σ}
    {types : List (CandidateType σ)} {added : Value} {action : Action}
    (hadds : change.AddsItems types added) (hapart : inner.ToldApart types)
    (haction : change.addition scope current added = .ok action) :
    ∃ operand, action = if current.lacksItems change.path then
      .set change.target.segments operand else .append change.target.segments operand := by
  obtain ⟨-, htypes, ⟨elements, harray⟩, hnumber⟩ := hadds
  have hset := CandidateType.firstSetElement?_eq_none hapart harray
  rcases addition_cases haction with ⟨hnone, -⟩ | ⟨others, hothers, hcases⟩
  · simp [htypes] at hnone
  · obtain rfl := Option.some.inj (htypes.symm.trans hothers)
    rcases hcases with ⟨x, hx, hhas, -⟩ | ⟨element, _, helement, -⟩ | ⟨_, operand, -, -, -, rfl⟩
    · exact absurd ⟨hhas, x, hx⟩ hnumber
    · simp [hset] at helement
    · exact ⟨operand, rfl⟩

end Change

namespace Scope

variable {scope : Scope σ} {writing : Writing} {current update : Document}
  {changes prepared : List (Change σ)}

/-- What concerns no combined attribute stays as it is when these follow. -/
theorem mem_of_recombine {field : Attribute σ} {after : List (Change σ)} {change : Change σ}
    (hother : field.combine?.isSome = true → change.concerns field.name = false)
    (hrun : scope.recombine current changes field = .ok after) (hchange : change ∈ changes) :
    change ∈ after := by
  unfold recombine at hrun
  split at hrun
  case h_1 =>
    obtain rfl := Except.ok.inj hrun
    exact hchange
  case h_2 sources separator hcombine =>
    have hkept : change ∈ changes.filter fun other => !other.concerns field.name := by
      refine List.mem_filter.mpr ⟨hchange, ?_⟩
      rw [hother (by rw [hcombine, Option.isSome_some]), Bool.not_false]
    dsimp only at hrun
    split at hrun
    case isTrue =>
      obtain rfl := Except.ok.inj hrun
      exact hchange
    case isFalse =>
      split at hrun
      case isTrue =>
        simp only [Except.bind_eq_ok, Except.pure_eq_ok] at hrun
        obtain ⟨_, -, rfl⟩ := hrun
        exact List.mem_append_left _ hkept
      case isFalse =>
        split at hrun
        case isTrue => simp at hrun
        case isFalse =>
          simp only [Except.bind_eq_ok, Except.pure_eq_ok] at hrun
          obtain ⟨_, -, _, -, rfl⟩ := hrun
          exact List.mem_append_left _ hkept

theorem mem_of_recombine_fold {change : Change σ} {fields : List (Attribute σ)}
    (hother : ∀ field ∈ fields, field.combine?.isSome = true → change.concerns field.name = false)
    {changes after : List (Change σ)}
    (hrun : fields.foldlM (scope.recombine current) changes = .ok after)
    (hchange : change ∈ changes) : change ∈ after := by
  have hstep : ∀ field ∈ fields, ∀ given next, change ∈ given →
      scope.recombine current given field = .ok next → change ∈ next := by
    intro field hfield given next hgiven hnext
    exact mem_of_recombine (hother field hfield) hnext hgiven
  exact Except.of_foldlM hstep hchange hrun

/-- A prepared change that concerns no combined attribute is one of all changes. -/
theorem mem_of_yields_allChanges {change : Change σ} {before after : σ}
    (hother : writing.options.combine = true → ∀ field ∈ scope.root.attributes,
      field.combine?.isSome = true → change.concerns field.name = false)
    (hrun : Yields (scope.allChanges writing current prepared) before changes after)
    (hchange : change ∈ prepared) : change ∈ changes := by
  unfold allChanges at hrun
  obtain ⟨defaults, _, -, hrun⟩ := yields_ite_bind.mp hrun
  obtain ⟨time, _, -, hrun⟩ := yields_bind.mp hrun
  dsimp only at hrun
  split at hrun
  case isTrue hcombine =>
    exact mem_of_recombine_fold (hother hcombine) (yields_ofExcept.mp hrun).1 (by simp [hchange])
  case isFalse =>
    obtain ⟨rfl, -⟩ := yields_pure.mp hrun
    simp [hchange]

theorem exists_requestedChanges {actions : List Action} {before after : σ}
    (hrun : Yields (scope.updateActions writing current update) before actions after) :
    ∃ requested, scope.requestedChanges update = .ok requested := by
  unfold updateActions at hrun
  obtain ⟨requested, _, hrequested, -⟩ := yields_bind.mp hrun
  exact ⟨requested, (yields_ofExcept.mp hrequested).1⟩

/-- A requested addition to a list passes through all stages as it is. -/
theorem exists_addition {requested : List (Change σ)} {change : Change σ}
    {types : List (CandidateType σ)} {added : Value} {actions : List Action} {before after : σ}
    (hschema : scope.root.WellFormed) (hrequested : scope.requestedChanges update = .ok requested)
    (hrun : Yields (scope.updateActions writing current update) before actions after)
    (hchange : change ∈ requested) (hadds : change.AddsItems types added) :
    ∃ action ∈ actions, change.addition scope current added = .ok action := by
  obtain ⟨hrequest, htypes, ⟨elements, harray⟩, -⟩ := hadds
  unfold updateActions at hrun
  obtain ⟨_, _, hrequests, hrun⟩ := yields_bind.mp hrun
  obtain rfl := Except.ok.inj ((yields_ofExcept.mp hrequests).1.symm.trans hrequested)
  obtain ⟨restored, _, hrestored, hrun⟩ := yields_bind.mp hrun
  obtain ⟨prepared, _, hprepared, hrun⟩ := yields_bind.mp hrun
  obtain ⟨changes, _, hchanges, hactions⟩ := yields_bind.mp hrun
  -- nothing prepares an addition
  obtain ⟨_, hmem, hprepares⟩ :=
    exists_related_left (Change.prepares_of_yields hrestored hprepared) hchange
  have hsame : change ∈ prepared := by
    cases hprepares with
    | assigned value hassigned =>
        simp [hrequest, Request.assigned?, Change.restores] at hassigned
    | kept => exact hmem
  -- a list attribute is not combined
  have hother : ∀ field ∈ scope.root.attributes, field.combine?.isSome = true →
      change.concerns field.name = false := by
    intro field hfield hcombine
    by_contra hconcerns
    have hlookup := (of_requestedChanges hrequested change hchange).1
    obtain ⟨⟨sources, separator⟩, hcombined⟩ := Option.isSome_iff_exists.mp hcombine
    have hsegments := (Change.concerns_iff_of_lookup hlookup ⟨field, hfield, rfl⟩).mp
      (by simpa using hconcerns)
    rcases lookup_cases hlookup with ⟨other, hdeclared, htarget⟩ |
      ⟨_, -, _, _, hlonger, -⟩ | ⟨_, _, -, hnone, -⟩
    · have hname : other.name = field.name := by simpa [htarget] using hsegments
      obtain rfl := hschema.eq_of_name_eq hdeclared hfield hname
      obtain rfl : other.types = types := by simpa [htarget] using htypes
      simp [AttributeOf.types_of_combine? hcombined] at harray
    · simp [hsegments] at hlonger
    · simp [hnone] at htypes
  have hlast : change ∈ changes := mem_of_yields_allChanges (fun _ => hother) hchanges hsame
  have hstored : List.Forall₂ (Change.Stores scope writing current) changes actions :=
    Yields.forall₂_mapM (fun _ _ first last hstep => ⟨first, last, hstep⟩) hactions
  obtain ⟨action, haction, first, last, hstep⟩ := exists_related_left hstored hlast
  rw [Change.action, hrequest] at hstep
  exact ⟨action, haction, (yields_ofExcept.mp hstep).1⟩

end Scope

/-- Let an item be read plain, and let the document be the current one of an update that adds to a
list.  Where candidate types are told apart and native names differ, and the item has something
other than an empty list at the path, the update appends to it if every step of the path is spelled
by the native name, and assigns the list otherwise. -/
theorem Mapper.update_appends_iff {mapper : Mapper σ} {writing : Writing} {now : Instant}
    {item : Item} {document update : Document} {first last before after : σ}
    {compiled : CompiledExpression} (hmapper : mapper.scope.Discerning)
    (hnames : ∀ scope schema, mapper.scope.Reaches scope schema →
      (schema.attributes.map AttributeOf.nativeName).Nodup)
    (hread : Yields (mapper.read .plain now item) first (some document) last)
    (hrun : Yields (mapper.update writing document update) before compiled after) :
    ∃ requested actions, mapper.scope.requestedChanges update = .ok requested ∧
      compiled = .ofPieces (Action.updatePieces actions) ∧
      ∀ change ∈ requested, ∀ types added, change.AddsItems types added →
        ∃ action ∈ actions, change.addition mapper.scope document added = .ok action ∧
          ∃ steps, (PathPosition.document mapper.scope.frame).Leads (Dotted.split change.path) steps
              types ∧
            ∀ stored, (WireValue.map item).at? change.target.segments = some stored →
              stored ≠ .list [] → Step.Unshadowed steps (.map item) →
              change.GoesBySpelling steps action := by
  obtain ⟨actions, hactions, hcompiled⟩ := Mapper.actions_of_yields_update hrun
  obtain ⟨requested, hrequested⟩ := Scope.exists_requestedChanges hactions
  obtain ⟨-, hreads⟩ := Frame.readsAs_of_yields (Mapper.yields_read_plain.mp hread)
  refine ⟨requested, actions, hrequested, hcompiled, fun change hchange types added hadds => ?_⟩
  obtain ⟨action, haction, haddition⟩ := Scope.exists_addition
    (hmapper.wellFormed _ _ .root) hrequested hactions hchange hadds
  obtain ⟨steps, hsteps, hsegments⟩ := PathPosition.leads_of_follow
    (Scope.of_requestedChanges hrequested change hchange).1 hadds.2.1
  refine ⟨action, haction, haddition, steps, hsteps, fun stored hstored hitems hfree => ?_⟩
  obtain ⟨_, hapart⟩ := hsteps.toldApart hmapper .root
  obtain ⟨operand, rfl⟩ := Change.action_of_addition hadds hapart haddition
  rw [hsegments, List.nil_append] at hstored
  have hdocument : (PathPosition.document mapper.scope.frame).Holds (.map item) (.map document) :=
    ⟨_, item, document, rfl, rfl, hreads⟩
  obtain ⟨hnative, hother⟩ :=
    hsteps.descend?_iff hmapper hnames first .root hdocument hstored hfree
  have hknown : document.isEmpty = false := hreads.isEmpty_eq_false first
    (hsteps.exists_stored hstored)
  by_cases hspelled : ∀ step ∈ steps, step.IsNative
  · obtain ⟨scope, place, back, hback, hbackReads⟩ := hnative hspelled
    have hlacks : document.lacksItems change.path = false := by
      have hne : back ≠ .list [] := by
        rintro rfl
        exact hitems (WireValue.eq_nil_of_readsAs_nil first hbackReads)
      simp [Document.lacksItems, hback]
    exact ⟨by simpa [hlacks] using hspelled, by simpa [hlacks] using hspelled⟩
  · have hlacks : document.lacksItems change.path = true := by
      simp [Document.lacksItems, hother hspelled, hknown]
    exact ⟨by simpa [hlacks] using hspelled, by simpa [hlacks] using hspelled⟩

/-! ## Scores that are called points -/

/-- The scores of a player are points for the application. -/
def SchemaOf.player : Schema Unit where
  attributes := [.plain "id" [.primitive .string],
    { AttributeOf.plain "scores" [.array [.primitive .number]] with nativeAlias := some "points" }]
  keepUnknown := .disabled
  timestamps := none

theorem SchemaOf.build_player : build player.attributes .disabled none = .ok player :=
  rfl

/-- The mapper of the only model, which has the schema `SchemaOf.player`. -/
def Mapper.player : Mapper Unit :=
  ⟨⟨[⟨"Player", .player, none⟩]⟩, ⟨"Player", .player, none⟩⟩

theorem Scope.closed_player : Mapper.player.scope.Closed
    (fun scope schema => scope = Mapper.player.scope ∧ schema = .player)
    (fun scope type => scope = Mapper.player.scope ∧
      type ∈ [.primitive .string, .primitive .number, .array [.primitive .number]]) :=
  .of_noModel (by simp [Mapper.player, Mapper.scope]) (by simp) (by simp)
    (by simp [SchemaOf.player, AttributeOf.plain]) (by simp)

theorem Mapper.discerning_player : player.scope.Discerning where
  wellFormed := by
    intro scope schema hreaches
    obtain ⟨-, rfl⟩ := Scope.closed_player.of_reaches hreaches
    exact SchemaOf.wellFormed_of_build SchemaOf.build_player
  attributes := by
    intro scope schema hreaches field hfield
    obtain ⟨-, rfl⟩ := Scope.closed_player.of_reaches hreaches
    simp only [SchemaOf.player, List.mem_cons, List.not_mem_nil, or_false] at hfield
    rcases hfield with rfl | rfl <;> exact Scope.toldApart_singleton (by simp)
  elements := by
    intro scope elements huses
    obtain rfl : elements = [.primitive .number] := by
      simpa using (Scope.closed_player.of_uses huses).2
    exact Scope.toldApart_singleton (by simp)

/-- A player with one score. -/
def Item.player : Item :=
  [("id", .string "1"), ("scores", .list [.number "1"])]

/-- The one score is overwritten if it is spelled by its stored name. -/
theorem Mapper.update_overwrites_scores :
    ∃ document, Yields (player.read .plain .epoch Item.player) () (some document) () ∧
      (WireValue.map Item.player).at? [.name "scores"] = some (.list [.number "1"]) ∧
      Yields (player.update ⟨.update, .epoch, 0⟩ document
          [("$ADD", .map [("scores", .number (.ofInt 5))])]) ()
        ⟨"SET #a0 = :v0", [("#a0", "scores")], [(":v0", .list [.number "5"])]⟩ () := by
  have hboth : Yields (do
      let document ← player.scope.frame.read .plain Item.player
      player.update ⟨.update, .epoch, 0⟩ document
        [("$ADD", .map [("scores", .number (.ofInt 5))])]) ()
      ⟨"SET #a0 = :v0", [("#a0", "scores")], [(":v0", .list [.number "5"])]⟩ () :=
    yields_of_value? (by decide +kernel)
  obtain ⟨document, _, hread, hupdate⟩ := yields_bind.mp hboth
  exact ⟨document, Mapper.yields_read_plain.mpr hread, rfl, hupdate⟩

theorem Mapper.update_appends_iff_player :
    ∃ document, Yields (player.read .plain .epoch Item.player) () (some document) () ∧
      ∃ requested actions,
        player.scope.requestedChanges [("$ADD", .map [("points", .number (.ofInt 5))])] =
          .ok requested ∧
        ⟨"SET #a0 = list_append(#a0, :v0)", [("#a0", "scores")], [(":v0", .list [.number "5"])]⟩ =
          CompiledExpression.ofPieces (Action.updatePieces actions) ∧
        ∀ change ∈ requested, ∀ types added, change.AddsItems types added →
          ∃ action ∈ actions, change.addition player.scope document added = .ok action ∧
            ∃ steps, (PathPosition.document player.scope.frame).Leads (Dotted.split change.path)
                steps types ∧
              ∀ stored, (WireValue.map Item.player).at? change.target.segments = some stored →
                stored ≠ .list [] → Step.Unshadowed steps (.map Item.player) →
                change.GoesBySpelling steps action := by
  have hboth : Yields (do
      let document ← player.scope.frame.read .plain Item.player
      player.update ⟨.update, .epoch, 0⟩ document
        [("$ADD", .map [("points", .number (.ofInt 5))])]) ()
      ⟨"SET #a0 = list_append(#a0, :v0)", [("#a0", "scores")], [(":v0", .list [.number "5"])]⟩ () :=
    yields_of_value? (by decide +kernel)
  obtain ⟨document, _, hread, hupdate⟩ := yields_bind.mp hboth
  have hread : Yields (player.read .plain .epoch Item.player) () (some document) () :=
    Mapper.yields_read_plain.mpr hread
  refine ⟨document, hread, update_appends_iff discerning_player ?_ hread hupdate⟩
  intro scope schema hreaches
  obtain ⟨-, rfl⟩ := Scope.closed_player.of_reaches hreaches
  decide

end ItemMapper
