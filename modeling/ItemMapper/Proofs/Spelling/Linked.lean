import ItemMapper.Proofs.Typing.Elsewhere

/-!
# Values that are encoded alike

An attribute can be named by its alias or by its stored name, and the place of a value depends on
the names that were used.  Two places are the same spot if they differ only so (`Reach.SameSpot`).

Two values may be written in different ways and still stand for the same data.  What it takes is
collected in `Reach.Links`: linked values take the same type, and inside of it, they are the same or
have linked items or linked fields again (`ValueLink.Parts`).  Where this holds, linked values are
encoded alike at places that are alike, by recursion on the value: `Value.agree_encode`.

The fields of linked documents correspond one by one.  They may come in different orders as long as
no attribute is given twice, for then the order makes no difference.
-/

namespace ItemMapper

variable {σ : Type}

/-! ## The same spots -/

namespace Reach

/-- Two places differ only in how declared attributes are named on the way. -/
inductive SameSpot (reach : Reach σ) : Place → Place → Prop
  | root : SameSpot reach .root .root
  | child {near far : Place} (hspot : SameSpot reach near far) (key : String) :
      SameSpot reach (near.child key) (far.child key)
  | declared {near far : Place} {scope : Scope σ} {schema : Schema σ} {field : Attribute σ}
      {key other : String} (hspot : SameSpot reach near far) (hreaches : reach.schemas scope schema)
      (hkey : schema.nativeAttribute? key = some field)
      (hother : schema.nativeAttribute? other = some field) :
      SameSpot reach (near.child key) (far.child other)
  | enter {near far : Place} (hspot : SameSpot reach near far) :
      SameSpot reach near.enter far.enter
  | restart {near far : Place} (hspot : SameSpot reach near far) :
      SameSpot reach near.restart far.restart

theorem SameSpot.compatible (reach : Reach σ) : Place.Compatible reach.SameSpot where
  child := .child
  enter := .enter
  restart := .restart

end Reach

/-! ## Linked parts -/

/-- Which values are linked, looked at in a scope as one of some types. -/
abbrev ValueLink (σ : Type) := Scope σ → List (CandidateType σ) → Value → Value → Prop

/-- Two fields of documents of a schema belong to the same attribute and have linked values, or are
the same undeclared field.  Places that are alike are so at these fields. -/
structure ValueLink.Field (linked : ValueLink σ) (alike : Place → Place → Prop) (scope : Scope σ)
    (schema : Schema σ) (field other : String × Value) : Prop where
  place : ∀ {near far}, alike near far → alike (near.child field.1) (far.child other.1)
  named : schema.nativeAttribute? other.1 = schema.nativeAttribute? field.1
  value : ∀ declared, schema.nativeAttribute? field.1 = some declared →
    linked scope declared.types field.2 other.2
  undeclared : schema.nativeAttribute? field.1 = none → other = field

/-- The fields of two documents correspond.  In another order they must belong to different
attributes. -/
def ValueLink.Fields (linked : ValueLink σ) (alike : Place → Place → Prop) (scope : Scope σ)
    (schema : Schema σ) (fields others : List (String × Value)) : Prop :=
  ∃ renamed, List.Forall₂ (linked.Field alike scope schema) fields renamed ∧
    (others = renamed ∨ others.Perm renamed ∧
      (fields.map fun field => schema.storedName field.1).Nodup)

/-- Two values are the same, or both lists, or both maps. -/
inductive Value.SameForm : Value → Value → Prop
  | same {value : Value} : SameForm value value
  | list {items others : List Value} : SameForm (.list items) (.list others)
  | map {fields others : List (String × Value)} : SameForm (.map fields) (.map others)

theorem Value.SameForm.isUndefined {value other : Value} (hform : value.SameForm other) :
    other.isUndefined = value.isUndefined := by
  cases hform <;> rfl

theorem Value.SameForm.isDocument {value other : Value} (hform : value.SameForm other) :
    other.isDocument = value.isDocument := by
  cases hform <;> rfl

theorem Value.SameForm.typeName {value other : Value} (hform : value.SameForm other) :
    other.typeName = value.typeName := by
  cases hform <;> rfl

theorem Value.SameForm.combinedText? {value other : Value} (hform : value.SameForm other) :
    other.combinedText? = value.combinedText? := by
  cases hform <;> rfl

/-- Two values of a type are the same, or their parts are linked.  The members of a set are not
looked into. -/
inductive ValueLink.Parts (linked : ValueLink σ) (alike : Place → Place → Prop) (scope : Scope σ) :
    CandidateType σ → Value → Value → Prop
  | same {type : CandidateType σ} {value : Value} : Parts linked alike scope type value value
  | items {elements : List (CandidateType σ)} {items others : List Value}
      (hitems : List.Forall₂ (linked scope elements) items others) :
      Parts linked alike scope (.array elements) (.list items) (.list others)
  | members {element : CandidateType σ} {members others : List Value}
      (hmembers : List.Forall₂ Value.SameForm members others) :
      Parts linked alike scope (.set element) (.list members) (.list others)
  | fields {type : CandidateType σ} {inner : Scope σ} {schema : Schema σ}
      {fields others : List (String × Value)} (hopens : scope.Opens type inner schema)
      (hfields : linked.Fields alike inner schema fields others) :
      Parts linked alike scope type (.map fields) (.map others)

/-- What makes linked values stand for the same data at places that are alike. -/
structure Reach.Links (reach : Reach σ) (alike : Place → Place → Prop) (linked : ValueLink σ) : Prop
    extends reach.BlindTo alike where
  same : ∀ scope types value, linked scope types value value
  form : ∀ {scope types value other}, linked scope types value other → value.SameForm other
  resolve : ∀ {scope types value other near far}, (∀ type ∈ types, reach.types scope type) →
    linked scope types value other → alike near far →
      Except.Agree (fun choice counterpart => reach.SameChoice alike choice counterpart ∧
          linked.Parts alike choice.reading.scope choice.reading.type value other)
        (scope.resolve near types value) (scope.resolve far types other)

namespace ValueLink

variable {alike : Place → Place → Prop} {scope : Scope σ} {linked : ValueLink σ} {schema : Schema σ}
  {fields others : List (String × Value)} {type : CandidateType σ}

theorem Field.storedName_eq {field other : String × Value}
    (hfield : linked.Field alike scope schema field other) :
    schema.storedName other.1 = schema.storedName field.1 := by
  rw [SchemaOf.storedName, SchemaOf.storedName, hfield.named]
  cases hdeclared : schema.nativeAttribute? field.1 with
  | some declared => rfl
  | none => rw [hfield.undeclared hdeclared]

theorem storedNames_eq (hfields : List.Forall₂ (linked.Field alike scope schema) fields others) :
    (others.map fun field => schema.storedName field.1) =
      fields.map fun field => schema.storedName field.1 := by
  induction hfields with
  | nil => rfl
  | cons hfield _ ih => rw [List.map_cons, List.map_cons, ih, hfield.storedName_eq]

theorem Fields.refl (hsteps : Place.Compatible alike)
    (hsame : ∀ scope types value, linked scope types value value) (fields : List (String × Value)) :
    linked.Fields alike scope schema fields fields :=
  ⟨fields, List.forall₂_same.mpr fun _ _ => ⟨fun hplaces => hsteps.child hplaces _, rfl,
    fun _ _ => hsame _ _ _, fun _ => rfl⟩, .inl rfl⟩

/-- Of a list that is read as a list, the items are linked. -/
theorem Parts.exists_items (hsame : ∀ scope types value, linked scope types value value)
    {elements : List (CandidateType σ)} {items : List Value} {other : Value}
    (hparts : linked.Parts alike scope (.array elements) (.list items) other) :
    ∃ others, other = .list others ∧ List.Forall₂ (linked scope elements) items others := by
  cases hparts with
  | same => exact ⟨items, rfl, List.forall₂_same.mpr fun _ _ => hsame _ _ _⟩
  | items hitems => exact ⟨_, rfl, hitems⟩

/-- Of a map that is read as a document, the fields are linked. -/
theorem Parts.exists_fields (hsteps : Place.Compatible alike)
    (hsame : ∀ scope types value, linked scope types value value) {inner : Scope σ}
    (hopens : scope.Opens type inner schema) {other : Value}
    (hparts : linked.Parts alike scope type (.map fields) other) :
    ∃ others, other = .map others ∧ linked.Fields alike inner schema fields others := by
  cases hparts with
  | same => exact ⟨fields, rfl, .refl hsteps hsame fields⟩
  | fields hother hfields =>
      obtain ⟨rfl, rfl⟩ := hopens.unique hother
      exact ⟨_, rfl, hfields⟩

end ValueLink

/-! ## Encoding field by field -/

section Fields

variable {frame : Frame σ}

theorem Frame.name_of_encodeField {key : String} {value : Value} {entry : String × WireValue}
    (hentry : frame.encodeField key value = .ok (some entry)) :
    entry.1 = frame.schema.storedName key := by
  rw [encodeField] at hentry
  rw [SchemaOf.storedName]
  cases hattribute : frame.schema.nativeAttribute? key with
  | none =>
      simp only [hattribute, Except.ok.injEq, Option.map_eq_some_iff] at hentry
      obtain ⟨_, -, rfl⟩ := hentry
      rfl
  | some field =>
      simp only [hattribute, Except.bind_eq_ok, Except.pure_eq_ok, Option.map_eq_some_iff] at hentry
      obtain ⟨_, -, _, -, rfl⟩ := hentry
      rfl

/-- What is encoded of some fields has their stored names. -/
theorem Frame.sublist_of_mapM_encodeField {fields : List (String × Value)}
    {entries : List (Option (String × WireValue))}
    (hentries : (fields.mapM fun field => frame.encodeField field.1 field.2) = .ok entries) :
    ((entries.filterMap id).map Prod.fst).Sublist
      (fields.map fun field => frame.schema.storedName field.1) := by
  have hall := Except.mapM_eq_ok.mp hentries
  clear hentries
  induction hall with
  | nil => exact .slnil
  | @cons field entry _ _ hentry _ ih =>
      cases entry with
      | none => exact ih.cons _
      | some entry =>
          have hname := Frame.name_of_encodeField hentry
          rw [List.filterMap_cons_some (by rfl), List.map_cons, List.map_cons, hname]
          exact ih.cons_cons _

/-- In another order the same fields are encoded as the same entries in that order. -/
theorem Except.agree_mapM_of_perm {α β : Type} (step : α → Except MapperError β)
    {items others : List α} (hperm : items.Perm others) :
    Except.Agree List.Perm (items.mapM step) (others.mapM step) := by
  have hforward : ∀ {items others : List α}, items.Perm others → ∀ {values},
      items.mapM step = .ok values → ∃ found, others.mapM step = .ok found ∧ values.Perm found := by
    intro items others hperm values hvalues
    have hall := Except.mapM_eq_ok.mp hvalues
    have hcomposed : Relation.Comp List.Perm
        (List.Forall₂ fun item value => step item = .ok value) others values :=
      ⟨items, hperm.symm, hall⟩
    rw [← List.forall₂_comp_perm_eq_perm_comp_forall₂] at hcomposed
    obtain ⟨found, hfound, hsame⟩ := hcomposed
    exact ⟨found, Except.mapM_eq_ok.mpr hfound, hsame.symm⟩
  cases hitems : items.mapM step with
  | ok values =>
      obtain ⟨found, hfound, hsame⟩ := hforward hperm hitems
      rw [hfound]
      exact .ok hsame
  | error cause =>
      cases hothers : others.mapM step with
      | error other => exact .error cause other
      | ok found =>
          obtain ⟨values, hvalues, -⟩ := hforward hperm.symm hothers
          rw [hvalues] at hitems
          cases hitems

/-- In another order the fields of a document are encoded as the same fields, if none is given
twice. -/
theorem Value.agree_encodeFields_of_perm {fields others : List (String × Value)}
    (hperm : fields.Perm others)
    (hdistinct : (fields.map fun field => frame.schema.storedName field.1).Nodup) :
    Except.Agree (fun entries counterparts => Fields.ofList entries = Fields.ofList counterparts)
      (Value.encodeFields frame fields) (Value.encodeFields frame others) := by
  rw [Value.encodeFields_eq_mapM, Value.encodeFields_eq_mapM]
  obtain ⟨entries, counterparts, hentries, hothers, hsame⟩ | ⟨cause, other, hcause, hother⟩ :=
    (Except.agree_mapM_of_perm (fun field : String × Value =>
      frame.encodeField field.1 field.2) hperm).cases
  · rw [hentries, hothers]
    exact .ok (Fields.ofList_congr ((Frame.sublist_of_mapM_encodeField hentries).nodup hdistinct)
      (hsame.filterMap id))
  · rw [hcause, hother]
    exact .error cause other

end Fields

/-! ## Encoding -/

/-- No list and no map is a member of a set. -/
theorem Value.SameForm.member? {value other : Value} (hform : value.SameForm other)
    (element : SetElement) : element.member? other = element.member? value := by
  cases hform <;> cases element <;> rfl

theorem SetElement.members_formed (element : SetElement) {values others : List Value}
    (hvalues : List.Forall₂ Value.SameForm values others) :
    (element.members others).toOption = (element.members values).toOption := by
  induction hvalues with
  | nil => rfl
  | @cons value other rest last hform _ ih =>
      rw [members, members, hform.member? element]
      cases element.member? value with
      | none => rfl
      | some member =>
          dsimp only
          generalize element.members rest = found at ih ⊢
          generalize element.members last = lastFound at ih ⊢
          cases found <;> cases lastFound <;> simp_all [Except.toOption, Except.map]

theorem Reading.agree_encodeSet (reading other : Reading σ) (element : CandidateType σ)
    {members others : List Value} (hmembers : List.Forall₂ Value.SameForm members others) :
    Except.Agree Eq (reading.encodeSet element members) (other.encodeSet element others) := by
  unfold encodeSet
  cases element.setElement? with
  | none =>
      cases hmembers with
      | nil => exact .ok rfl
      | cons => exact .error _ _
  | some kind =>
      have hsame := kind.members_formed hmembers
      simp only [SetElement.encode]
      generalize kind.members members = found at hsame ⊢
      generalize kind.members others = last at hsame ⊢
      cases found with
      | error member =>
          cases last with
          | error other => exact .error _ _
          | ok stored => cases hsame
      | ok stored =>
          cases last with
          | error other => cases hsame
          | ok again =>
              obtain rfl := Option.some.inj hsame
              exact .ok rfl

section Encoding

variable {reach : Reach σ} {alike : Place → Place → Prop} {linked : ValueLink σ}

/-- Two values are encoded alike as one of some types, wherever they are linked. -/
def Reach.EncodesAlike (reach : Reach σ) (alike : Place → Place → Prop) (linked : ValueLink σ)
    (value : Value) : Prop :=
  ∀ {scope : Scope σ} {types : List (CandidateType σ)} {other : Value} {near far : Place},
    (∀ type ∈ types, reach.types scope type) → linked scope types value other →
      alike near far →
        Except.Agree Eq (scope.encode near types value) (scope.encode far types other)

/-- A field of a document is encoded alike if its value is. -/
theorem Frame.agree_encodeField (hlinks : reach.Links alike linked) {scope : Scope σ}
    {schema : Schema σ}
    (hreaches : reach.schemas scope schema) {near far : Place} (hplaces : alike near far)
    {field other : String × Value} (hfield : linked.Field alike scope schema field other)
    (hvalue : reach.EncodesAlike alike linked field.2) :
    Except.Agree Eq (Frame.encodeField ⟨scope, near, schema⟩ field.1 field.2)
      (Frame.encodeField ⟨scope, far, schema⟩ other.1 other.2) := by
  simp only [Frame.encodeField, hfield.named]
  cases hdeclared : schema.nativeAttribute? field.1 with
  | none =>
      obtain rfl := hfield.undeclared hdeclared
      simp only [Value.keep?_at hlinks.toBlindTo hreaches other.2
        (hlinks.child hplaces other.1)]
      exact .ok rfl
  | some declared =>
      have huses : ∀ type ∈ declared.types, reach.types scope type := fun type htype =>
        reach.field hreaches (SchemaOf.mem_of_nativeAttribute? hdeclared) htype
      refine (hvalue huses (hfield.value declared hdeclared) (hfield.place hplaces)).bind ?_
      rintro stored _ rfl
      exact .ok rfl

/-- The fields of linked documents are encoded as the same fields. -/
theorem Value.agree_encodeFields (hlinks : reach.Links alike linked) {scope : Scope σ}
    {schema : Schema σ}
    (hreaches : reach.schemas scope schema) {near far : Place} (hplaces : alike near far)
    {fields others : List (String × Value)} (hfields : linked.Fields alike scope schema fields others)
    (hvalues : ∀ field ∈ fields, reach.EncodesAlike alike linked field.2) :
    Except.Agree (fun entries counterparts => Fields.ofList entries = Fields.ofList counterparts)
      (Value.encodeFields ⟨scope, near, schema⟩ fields)
      (Value.encodeFields ⟨scope, far, schema⟩ others) := by
  obtain ⟨renamed, hrenamed, horder⟩ := hfields
  have hentries : Except.Agree Eq (Value.encodeFields ⟨scope, near, schema⟩ fields)
      (Value.encodeFields ⟨scope, far, schema⟩ renamed) := by
    rw [Value.encodeFields_eq_mapM, Value.encodeFields_eq_mapM]
    refine Except.Agree.bind (.mapM_eq (List.forall₂_iff_zip.mpr ⟨hrenamed.length_eq, fun hzip =>
      Frame.agree_encodeField hlinks hreaches hplaces ((List.forall₂_iff_zip.mp hrenamed).2 hzip)
        (hvalues _ (List.of_mem_zip hzip).1)⟩)) ?_
    rintro entries _ rfl
    exact .refl _
  rcases horder with rfl | ⟨hperm, hdistinct⟩
  · exact hentries.mono fun _ _ hsame => congrArg _ hsame
  · refine hentries.trans (Value.agree_encodeFields_of_perm hperm.symm ?_)
      fun _ _ _ hsame hother => hsame ▸ hother
    rw [ValueLink.storedNames_eq hrenamed]
    exact hdistinct

/-- Once its type is chosen, a value is encoded alike if this holds for each type. -/
theorem Value.encodesAlike_of_agree (hlinks : reach.Links alike linked) {value : Value}
    (hvalue : ∀ {scope : Scope σ} {type : CandidateType σ} {other : Value} {near far : Place},
      reach.types scope type → linked.Parts alike scope type value other → alike near far →
        Except.Agree Eq (value.encodeAs ⟨scope, near, type⟩) (other.encodeAs ⟨scope, far, type⟩)) :
    reach.EncodesAlike alike linked value := by
  intro scope types other near far huses hlinked hplaces
  rw [Scope.encode, Scope.encode, (hlinks.form hlinked).isUndefined]
  split
  · exact .ok rfl
  · refine (hlinks.resolve huses hlinked hplaces).bind fun choice counterpart ⟨hsame, hparts⟩ => ?_
    obtain ⟨_, inner, nearer, type⟩ := choice
    obtain ⟨_, _, farther, _⟩ := counterpart
    obtain ⟨-, rfl, rfl, huses, hplaces⟩ := hsame
    exact hvalue huses hparts hplaces

mutual

/-- Values with linked parts are encoded alike. -/
theorem Value.agree_encodeAs (hlinks : reach.Links alike linked) :
    ∀ (value : Value) {scope : Scope σ} {type : CandidateType σ} {other : Value} {near far : Place},
      reach.types scope type → linked.Parts alike scope type value other → alike near far →
        Except.Agree Eq (value.encodeAs ⟨scope, near, type⟩) (other.encodeAs ⟨scope, far, type⟩)
  | .list items, scope, type, other, near, far, huses, hparts, hplaces => by
      cases type with
      | array elements =>
          obtain ⟨others, rfl, hitems⟩ := hparts.exists_items hlinks.same
          simp only [Value.encodeAs]
          refine (Value.agree_encodeItems hlinks items (fun _ htype => reach.element huses htype) hitems
            hplaces 0).bind ?_
          rintro stored _ rfl
          exact .ok rfl
      | set element =>
          have hmembers : ∃ others, other = .list others ∧ List.Forall₂ SameForm items others := by
            cases hparts with
            | same => exact ⟨items, rfl, List.forall₂_same.mpr fun _ _ => .same⟩
            | members hmembers => exact ⟨_, rfl, hmembers⟩
          obtain ⟨others, rfl, hmembers⟩ := hmembers
          simp only [Value.encodeAs]
          exact Reading.agree_encodeSet _ _ element hmembers
      | _ =>
          cases hparts
          simp only [Value.encodeAs]
          exact Reading.encodeScalar_at (by rfl) _
  | .map fields, scope, type, other, near, far, huses, hparts, hplaces => by
      rcases Scope.enter?_at alike hlinks.enter hplaces scope type with
        ⟨inner, schema, nearer, farther, hopens, hnear, hfar, hinner⟩ | ⟨hnear, hfar⟩
      · obtain ⟨others, rfl, hfields⟩ := hparts.exists_fields hlinks.toCompatible hlinks.same hopens
        simp only [Value.encodeAs, Reading.enter?, hnear, hfar]
        refine (Value.agree_encodeFields hlinks (reach.inside huses hopens) hinner hfields
          (Value.encodesAlike_of_mem hlinks fields)).bind fun stored others hsame => ?_
        rw [hsame]
        exact .ok rfl
      · obtain rfl : other = .map fields := by
          cases hparts with
          | same => rfl
          | fields hopens =>
              obtain ⟨_, henter⟩ := hopens.enter? near
              rw [hnear] at henter
              cases henter
        simp only [Value.encodeAs, Reading.enter?, hnear, hfar]
        exact Reading.encodeScalar_at (by rfl) _
  | .undefined, _, _, _, _, _, _, hparts, _ | .null, _, _, _, _, _, _, hparts, _
  | .bool _, _, _, _, _, _, _, hparts, _ | .number _, _, _, _, _, _, _, hparts, _
  | .string _, _, _, _, _, _, _, hparts, _ | .binary _, _, _, _, _, _, _, hparts, _
  | .date _, _, _, _, _, _, _, hparts, _ | .set _, _, _, _, _, _, _, hparts, _ => by
      cases hparts
      simp only [Value.encodeAs]
      exact Reading.encodeScalar_at (by rfl) _

theorem Value.agree_encodeItems (hlinks : reach.Links alike linked) :
    ∀ (items : List Value) {scope : Scope σ} {elements : List (CandidateType σ)}
      {others : List Value} {near far : Place}, (∀ type ∈ elements, reach.types scope type) →
      List.Forall₂ (linked scope elements) items others → alike near far → ∀ index,
        Except.Agree Eq (Value.encodeItems scope near elements index items)
          (Value.encodeItems scope far elements index others)
  | [], _, _, _, _, _, _, .nil, _, _ => .ok rfl
  | item :: rest, scope, elements, _, near, far, huses, .cons hitem hrest, hplaces, index => by
      rw [Value.encodeItems_cons, Value.encodeItems_cons]
      refine (Value.encodesAlike_of_agree hlinks (Value.agree_encodeAs hlinks item) huses hitem
        (hlinks.item hplaces index)).bind ?_
      rintro stored _ rfl
      refine (Value.agree_encodeItems hlinks rest huses hrest hplaces (index + 1)).bind ?_
      rintro others _ rfl
      exact .ok rfl

theorem Value.encodesAlike_of_mem (hlinks : reach.Links alike linked) :
    ∀ (fields : List (String × Value)), ∀ field ∈ fields, reach.EncodesAlike alike linked field.2
  | [], _, hfield => absurd hfield List.not_mem_nil
  | (key, value) :: rest, field, hfield => by
      rcases List.mem_cons.mp hfield with rfl | hrest
      · exact Value.encodesAlike_of_agree hlinks (Value.agree_encodeAs hlinks value)
      · exact Value.encodesAlike_of_mem hlinks rest field hrest

end

/-- Linked values are encoded alike at the same spots. -/
theorem Value.agree_encode (hlinks : reach.Links alike linked) (value : Value) :
    reach.EncodesAlike alike linked value :=
  encodesAlike_of_agree hlinks (Value.agree_encodeAs hlinks value)

end Encoding

end ItemMapper
