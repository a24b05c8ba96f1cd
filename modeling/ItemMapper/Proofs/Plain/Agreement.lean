import ItemMapper.Proofs.Plain.Assignments
import ItemMapper.Proofs.Update.Keys

/-!
# When updating agrees with saving

A document can be changed in two ways: it is updated, and the actions of the compiled update are
performed on its item, or it is overridden by the update and saved again as a whole.
`Mapper.update_agrees_iff` compares the two items under the plain options.

The saved item is known attribute by attribute (`Frame.convertsTo_iff`), and so is the item after
the actions (`Scope.exists_updated`).  Both leave the attributes alone that the update does not
mention (`SchemaOf.get?_normalized_override_of_notMem`).  What is left is each field of the update
by itself, and it makes a difference there which of the two ways stores it (`Scope.StoredAlike`):

* the update assigns the natural form of an undeclared value, while saving keeps no more of it than
  the patterns of the schema allow;
* the update looks at a declared value at the place that its path names, while saving looks at the
  stored name, so that patterns may see undeclared data in it differently where an alias is used.

It makes no difference where the schema keeps undeclared data at any depth
(`Scope.storedAlike_of_everything`), and for a declared attribute under its stored name
(`Scope.storedAlike_name`).
-/

namespace ItemMapper

variable {σ : Type}

open Pipeline

/-! ## Performing an update -/

namespace Action

/-- The item after an action that sets or removes an attribute as a whole. -/
def perform? (item : Item) : Action → Option Item
  | .set [.name name] operand => some (Fields.insert name operand item)
  | .remove [.name name] => some (Fields.erase name item)
  | _ => none

/-- The actions in the order in which the text of an update lists them. -/
def inClauses (actions : List Action) : List Action :=
  Clause.all.flatMap fun clause => actions.filter fun action => action.clause = clause

/-- The item after the actions of an update, each of which sets or removes a whole attribute. -/
def performAll? (item : Item) (actions : List Action) : Option Item :=
  (inClauses actions).foldlM perform? item

/-- The action stores something in an attribute, or removes it. -/
def StoresWhole (action : Action) : Prop :=
  ∃ name stored, action = ofStored [.name name] stored

/-- Such an action changes the item where it says and nowhere else. -/
theorem exists_perform? (name : String) (stored : Option WireValue) {item : Item}
    (hitem : Fields.Sorted item) :
    ∃ result, perform? item (ofStored [.name name] stored) = some result ∧
      Fields.Sorted result ∧ result.get? name = stored ∧
      ∀ other, other ≠ name → result.get? other = item.get? other := by
  cases stored with
  | some operand =>
      exact ⟨_, rfl, Fields.sorted_insert _ _ hitem, Fields.get?_insert_self _ _ _,
        fun other hother => Fields.get?_insert_of_ne hother _ _⟩
  | none =>
      refine ⟨_, rfl, Fields.sorted_erase _ hitem, ?_, fun other hother => ?_⟩
      · rw [Fields.get?_erase, if_pos rfl]
      · rw [Fields.get?_erase, if_neg hother]

theorem exists_foldlM_perform? {actions : List Action}
    (hwhole : ∀ action ∈ actions, action.StoresWhole)
    (hdistinct : (actions.map path).Nodup) {item : Item} (hitem : Fields.Sorted item) :
    ∃ result, actions.foldlM perform? item = some result ∧ Fields.Sorted result ∧
      (∀ name stored, ofStored [.name name] stored ∈ actions → result.get? name = stored) ∧
      ∀ name, [.name name] ∉ actions.map path → result.get? name = item.get? name := by
  induction actions generalizing item with
  | nil => exact ⟨item, rfl, hitem, by simp, fun _ _ => rfl⟩
  | cons action rest ih =>
      obtain ⟨name, stored, rfl⟩ := hwhole action (by simp)
      obtain ⟨middle, hmiddle, hsorted, hset, hothers⟩ := exists_perform? name stored hitem
      rw [List.map_cons, path_ofStored, List.nodup_cons] at hdistinct
      obtain ⟨result, hresult, hresultSorted, hassigned, hleft⟩ :=
        ih (fun other hother => hwhole other (by simp [hother])) hdistinct.2 hsorted
      refine ⟨result, by simp [List.foldlM_cons, hmiddle, hresult], hresultSorted, ?_, ?_⟩
      · intro other given hmem
        rcases List.mem_cons.mp hmem with heq | hmem
        · -- no later action touches the attribute again
          have hpath := congrArg path heq
          rw [path_ofStored, path_ofStored] at hpath
          obtain rfl : other = name := by simpa using hpath
          obtain rfl := ofStored_inj.mp heq
          rw [hleft other hdistinct.1, hset]
        · exact hassigned other given hmem
      · intro other hother
        rw [List.map_cons, path_ofStored, List.mem_cons, not_or] at hother
        rw [hleft other hother.2, hothers other (by simpa using hother.1)]

theorem inClauses_perm {actions : List Action} (hwhole : ∀ action ∈ actions, action.StoresWhole) :
    (inClauses actions).Perm actions := by
  have hclause : ∀ action ∈ actions, action.clause = .remove ∨ action.clause = .set := by
    intro action haction
    obtain ⟨name, stored, rfl⟩ := hwhole action haction
    cases stored with
    | none => exact .inl rfl
    | some operand => exact .inr rfl
  have hempty : ∀ clause : Clause, clause ≠ .remove → clause ≠ .set →
      actions.filter (fun action => action.clause = clause) = [] := by
    intro clause hremove hset
    apply List.filter_eq_nil_iff.mpr
    intro action haction
    rcases hclause action haction with h | h <;> simp [h, hremove.symm, hset.symm]
  have hset : actions.filter (fun action => action.clause = .set) =
      actions.filter (fun action => !decide (action.clause = .remove)) := by
    apply List.filter_congr
    intro action haction
    rcases hclause action haction with h | h <;> simp [h]
  have hlist : inClauses actions = actions.filter (fun action => action.clause = .remove) ++
      actions.filter (fun action => !decide (action.clause = .remove)) := by
    simp [inClauses, Clause.all, hempty, hset]
  rw [hlist]
  exact List.filter_append_perm _ _

/-- What an update makes of an item whose attributes it sets and removes, each at most once. -/
theorem exists_performed {actions : List Action} (hwhole : ∀ action ∈ actions, action.StoresWhole)
    (hdistinct : (actions.map path).Nodup) {item : Item} (hitem : Fields.Sorted item) :
    ∃ result, performAll? item actions = some result ∧ Fields.Sorted result ∧
      (∀ name stored, ofStored [.name name] stored ∈ actions → result.get? name = stored) ∧
      ∀ name, [.name name] ∉ actions.map path → result.get? name = item.get? name := by
  have hperm := inClauses_perm hwhole
  have hpaths := hperm.map path
  obtain ⟨result, hresult, hsorted, hassigned, hleft⟩ := exists_foldlM_perform?
    (fun action haction => hwhole action (hperm.mem_iff.mp haction))
    (hpaths.nodup_iff.mpr hdistinct) hitem
  refine ⟨result, hresult, hsorted, ?_, ?_⟩
  · exact fun name stored hmem => hassigned name stored (hperm.mem_iff.mpr hmem)
  · exact fun name hname => hleft name fun hmem => hname (hpaths.mem_iff.mp hmem)

end Action

/-! ## Overriding a document -/

namespace Fields

theorem get?_filter {α : Type} {pairs : List (String × α)} (keeps : String × α → Bool)
    {key : String} (hkeeps : ∀ pair ∈ pairs, pair.1 = key → keeps pair = true) :
    get? (pairs.filter keeps) key = get? pairs key := by
  induction pairs with
  | nil => rfl
  | cons pair rest ih =>
      have hrest := ih fun other hother => hkeeps other (by simp [hother])
      by_cases hkey : key = pair.1
      · rw [List.filter_cons_of_pos (hkeeps pair (by simp) hkey.symm), get?_cons, get?_cons,
          if_pos hkey, if_pos hkey]
      · rw [get?_cons, if_neg hkey, ← hrest]
        by_cases hpair : keeps pair = true
        · rw [List.filter_cons_of_pos hpair, get?_cons, if_neg hkey]
        · rw [List.filter_cons_of_neg hpair]

theorem get?_eq_head? {α : Type} {pairs : List (String × α)} {key : String}
    (hkeys : ∀ pair ∈ pairs, pair.1 = key) : get? pairs key = pairs.head?.map Prod.snd := by
  cases pairs with
  | nil => rfl
  | cons pair rest => rw [get?_cons, if_pos (hkeys pair (by simp)).symm]; rfl

end Fields

namespace SchemaOf

variable {schema : Schema σ} {document update : Document} {name : String}

/-- The fields that are stored under a name, of which the last counts. -/
def fieldsOf (schema : Schema σ) (document : Document) (name : String) : Document :=
  document.filter fun entry => schema.storedName entry.1 = name

/-- The names under which the fields of a document are stored. -/
def storedNames (schema : Schema σ) (document : Document) : List String :=
  document.map fun entry => schema.storedName entry.1

/-- The document in which the attributes that an update names have the values that it gives them,
under whatever names they stood there before. -/
def override (schema : Schema σ) (document update : Document) : Document :=
  Fields.ofList (document.filter (fun entry =>
    schema.storedName entry.1 ∉ schema.storedNames update) ++ update)

/-- An update of whole attributes, each of which it names once. -/
structure Flattened (schema : Schema σ) (update : Document) : Prop where
  sorted : Fields.Sorted update
  undotted : ∀ entry ∈ update, '.' ∉ entry.1.toList
  unbucketed : ∀ entry ∈ update, entry.1.startsWith "$" = false
  distinct : (schema.storedNames update).Nodup

theorem get?_normalized (schema : Schema σ) (document : Document) (name : String) :
    (schema.normalized document).get? name =
      (schema.fieldsOf document name).getLast?.map Prod.snd := by
  have hfilter : ((document.map fun field =>
      (schema.storedName field.1, field.2)).reverse.filter fun entry => entry.1 = name) =
        ((schema.fieldsOf document name).map fun field =>
          (schema.storedName field.1, field.2)).reverse := by
    rw [List.filter_reverse, List.filter_map]
    rfl
  rw [normalized, Fields.get?_ofList,
    ← Fields.get?_filter (fun entry => entry.1 = name) (by simp), hfilter,
    Fields.get?_eq_head?, List.head?_reverse, List.getLast?_map, Option.map_map]
  · rfl
  · intro pair hpair
    rw [← hfilter] at hpair
    simpa using (List.mem_filter.mp hpair).2

theorem override_perm (hdocument : Fields.Sorted document) (hupdate : Fields.Sorted update) :
    (schema.override document update).Perm
    (document.filter (fun entry => schema.storedName entry.1 ∉ schema.storedNames update) ++
      update) := by
  apply Fields.ofList_perm
  rw [List.map_append, List.nodup_append]
  refine ⟨?_, Fields.nodup_of_sorted hupdate, ?_⟩
  · exact (Fields.nodup_of_sorted hdocument).sublist (List.filter_sublist.map _)
  · rintro key hkey _ hother rfl
    obtain ⟨entry, hentry, rfl⟩ := List.mem_map.mp hkey
    obtain ⟨given, hgiven, hsame⟩ := List.mem_map.mp hother
    -- a field of the update is stored under a name of the update
    refine absurd ?_ (by simpa using (List.mem_filter.mp hentry).2)
    exact hsame ▸ List.mem_map_of_mem hgiven

theorem fieldsOf_override_perm (schema : Schema σ) (hdocument : Fields.Sorted document)
    (hupdate : Fields.Sorted update) (name : String) :
    (schema.fieldsOf (schema.override document update) name).Perm
      (document.filter (fun entry => schema.storedName entry.1 = name ∧
          schema.storedName entry.1 ∉ schema.storedNames update) ++
        schema.fieldsOf update name) := by
  refine ((override_perm hdocument hupdate).filter _).trans (.of_eq ?_)
  rw [List.filter_append, List.filter_filter]
  simp [fieldsOf]

section Override

variable (hdocument : Fields.Sorted document) (hupdate : Fields.Sorted update)

include hdocument hupdate

/-- Attributes that the update does not name keep their values. -/
theorem get?_normalized_override_of_notMem (hname : name ∉ schema.storedNames update) :
    (schema.normalized (schema.override document update)).get? name =
      (schema.normalized document).get? name := by
  have hperm := fieldsOf_override_perm schema hdocument hupdate name
  have hnone : schema.fieldsOf update name = [] := by
    apply List.filter_eq_nil_iff.mpr
    intro entry hentry hsame
    rw [decide_eq_true_iff] at hsame
    exact hname (hsame ▸ List.mem_map_of_mem hentry)
  have hkept : document.filter (fun entry => schema.storedName entry.1 = name ∧
      schema.storedName entry.1 ∉ schema.storedNames update) = schema.fieldsOf document name := by
    apply List.filter_congr
    intro entry _
    by_cases hsame : schema.storedName entry.1 = name <;> simp [hsame, hname]
  rw [hnone, hkept, List.append_nil] at hperm
  have hsame : schema.fieldsOf (schema.override document update) name =
      schema.fieldsOf document name :=
    Fields.eq_of_perm (List.Pairwise.filter _ (Fields.sorted_ofList _))
      (List.Pairwise.filter _ hdocument) hperm
  rw [get?_normalized, get?_normalized, hsame]

/-- Attributes that the update names take its values. -/
theorem get?_normalized_override_of_mem (hnames : (schema.storedNames update).Nodup)
    {entry : String × Value} (hentry : entry ∈ update) :
    (schema.normalized (schema.override document update)).get? (schema.storedName entry.1) =
      some entry.2 := by
  have hperm := fieldsOf_override_perm schema hdocument hupdate
    (schema.storedName entry.1)
  have hdropped : document.filter (fun other =>
      schema.storedName other.1 = schema.storedName entry.1 ∧
        schema.storedName other.1 ∉ schema.storedNames update) = [] := by
    apply List.filter_eq_nil_iff.mpr
    intro other _ hother
    obtain ⟨hsame, hfresh⟩ := of_decide_eq_true hother
    exact hfresh (hsame ▸ List.mem_map_of_mem hentry)
  have honly : schema.fieldsOf update (schema.storedName entry.1) = [entry] := by
    refine filter_eq_singleton (hnames.of_map _) hentry fun other hother => ?_
    rw [decide_eq_true_iff]
    constructor
    · exact fun hsame => List.inj_on_of_nodup_map hnames hother hentry hsame
    · exact fun hsame => hsame ▸ rfl
  rw [hdropped, honly, List.nil_append] at hperm
  rw [get?_normalized, List.perm_singleton.mp hperm]
  rfl

end Override

end SchemaOf

/-! ## Field by field -/

namespace Scope

variable {scope : Scope σ}

/-- A path without a dot leads to the attribute that it names, declared or not. -/
theorem of_lookup_plain {key : String} {target : ResolvedPath σ} (hplain : '.' ∉ key.toList)
    (hlookup : scope.lookup key = .ok target) :
    target.segments = [.name (scope.root.storedName key)] ∧
      target.types = (scope.root.nativeAttribute? key).map AttributeOf.types := by
  rw [lookup, Dotted.split_of_plain hplain] at hlookup
  simp only [PathPosition.follow, frame, List.nil_append, List.foldl_nil] at hlookup
  split at hlookup
  · simp at hlookup
  · split at hlookup
    case h_1 field hfield =>
      obtain rfl := Except.ok.inj hlookup
      simp [SchemaOf.storedName, hfield, PathPosition.types?]
    case h_2 hnone =>
      by_cases hkept : scope.unknownMatch (Place.root.child key) = .full
      · simp only [hkept, if_true] at hlookup
        obtain rfl := Except.ok.inj hlookup
        have hname : PathPosition.undeclared [] [key] = [.name key] := by
          cases hindex : Decimal.parseIndex? key <;> simp [PathPosition.undeclared, hindex]
        simp [hname, SchemaOf.storedName, hnone]
      · simp [hkept] at hlookup

/-- An action stores a field of an update in the attribute that the field names. -/
def StoresField (scope : Scope σ) (entry : String × Value) (action : Action) : Prop :=
  ∃ stored, action = .ofStored [.name (scope.root.storedName entry.1)] stored ∧
    scope.AssignsAs entry.1 ((scope.root.nativeAttribute? entry.1).map AttributeOf.types) entry.2
      stored

theorem storesField_of_yields {now : Instant} {depth : Nat} {current update : Document}
    {before after : σ} {actions : List Action}
    (hkeys : ∀ entry ∈ update, '.' ∉ entry.1.toList ∧ entry.1.startsWith "$" = false)
    (hrun : Yields (scope.updateActions ⟨.plain, now, depth⟩ current update)
      before actions after) : List.Forall₂ scope.StoresField update actions := by
  obtain ⟨requested, hrequested, hactions⟩ :=
    (yields_updateActions_plain (.outermost now depth)
      fun entry hentry => (hkeys entry hentry).2).mp hrun
  have hrelated := Yields.forall₂_mapM (fun change action _ _ haction value
    (hrequest : change.request = .ofValue value) =>
      ((Change.yields_action_plain hrequest).mp haction).2) hactions
  clear hrun hactions
  induction hrequested generalizing actions with
  | nil =>
      cases hrelated
      exact .nil
  | @cons entry change _ _ hchange _ ih =>
      cases hrelated with
      | cons haction hrest =>
          refine .cons ?_ (ih (fun other hother => hkeys other (by simp [hother])) hrest)
          obtain ⟨hpath, hrequest, hlookup⟩ := of_change_request hchange
          obtain ⟨hsegments, htypes⟩ := of_lookup_plain (hkeys entry (by simp)).1 hlookup
          obtain ⟨stored, haction, hstored⟩ := haction entry.2 hrequest
          rw [hsegments] at haction
          rw [hpath, htypes] at hstored
          exact ⟨stored, haction, hstored⟩

/-- The item after such actions holds what the update assigns, and is otherwise as it was. -/
theorem exists_updated {update : Document} {actions : List Action}
    (hfields : List.Forall₂ scope.StoresField update actions)
    (hdistinct : (scope.root.storedNames update).Nodup) {item : Item}
    (hitem : Fields.Sorted item) :
    ∃ result, Action.performAll? item actions = some result ∧ Fields.Sorted result ∧
      (∀ entry ∈ update,
        scope.AssignsAs entry.1 ((scope.root.nativeAttribute? entry.1).map AttributeOf.types)
          entry.2 (result.get? (scope.root.storedName entry.1))) ∧
      ∀ name ∉ scope.root.storedNames update, result.get? name = item.get? name := by
  have hwhole : ∀ action ∈ actions, action.StoresWhole := by
    intro action haction
    obtain ⟨entry, -, stored, hstored, -⟩ := exists_related_right hfields haction
    exact ⟨_, stored, hstored⟩
  have hpaths : actions.map Action.path =
      (scope.root.storedNames update).map fun name => [.name name] := by
    rw [SchemaOf.storedNames, List.map_map]
    refine (map_eq_map_of_related ?_ hfields).symm
    rintro entry _ ⟨stored, rfl, -⟩
    exact (Action.path_ofStored _ _).symm
  have hdistinctPaths : (actions.map Action.path).Nodup := by
    rw [hpaths]
    exact hdistinct.map fun name other hsame => by simpa using hsame
  obtain ⟨result, hresult, hsorted, hassigned, hleft⟩ :=
    Action.exists_performed hwhole hdistinctPaths hitem
  refine ⟨result, hresult, hsorted, ?_, ?_⟩
  · intro entry hentry
    obtain ⟨action, haction, stored, rfl, hstored⟩ := exists_related_left hfields hentry
    rwa [hassigned _ _ haction]
  · intro name hname
    apply hleft
    rw [hpaths]
    simpa using hname

/-- Updating and saving store a field alike. -/
def StoredAlike (scope : Scope σ) (key : String) (value : Value) : Prop :=
  match scope.root.nativeAttribute? key with
  | some field =>
    ∀ stored, value.ConvertsTo scope (.ofText key) field.types stored ↔
      value.ConvertsTo scope (Place.root.child field.name) field.types stored
  | none => value.natural? = value.keep? scope (Place.root.child key)

theorem eq_iff_storedAlike (hschema : scope.root.WellFormed) (before : σ) {key : String}
    {value : Value} {document : Document} {assigned saved : Option WireValue}
    (hgiven : document.get? (scope.root.storedName key) = some value)
    (hassigned : scope.AssignsAs key ((scope.root.nativeAttribute? key).map AttributeOf.types) value
      assigned)
    (hsaved : scope.frame.StoresAs document (scope.root.storedName key) saved) :
    assigned = saved ↔ scope.StoredAlike key value := by
  unfold StoredAlike
  cases hfield : scope.root.nativeAttribute? key with
  | none =>
      rw [hfield] at hassigned
      have hkey : scope.root.storedName key = key := by simp [SchemaOf.storedName, hfield]
      have hattribute : scope.root.attribute? key = none := by
        rw [SchemaOf.nativeAttribute?, Option.or_eq_none_iff] at hfield
        exact hfield.2
      rw [hkey] at hgiven hsaved
      rw [Frame.storesAs_undeclared hgiven hattribute] at hsaved
      rw [← hassigned, ← hsaved]
      rfl
  | some field =>
      rw [hfield] at hassigned
      have hkey : scope.root.storedName key = field.name := by simp [SchemaOf.storedName, hfield]
      have hattribute : scope.root.attribute? field.name = some field :=
        hschema.attribute?_name (SchemaOf.mem_of_nativeAttribute? hfield)
      rw [hkey] at hgiven hsaved
      rw [Frame.storesAs_declared hgiven hattribute] at hsaved
      constructor
      · rintro rfl stored
        constructor
        · intro hstored
          exact Value.ConvertsTo.unique before hassigned hstored ▸ hsaved
        · intro hstored
          exact Value.ConvertsTo.unique before hsaved hstored ▸ hassigned
      · intro halike
        exact Value.ConvertsTo.unique before ((halike assigned).mp hassigned) hsaved

/-- A declared attribute is stored alike under its stored name. -/
theorem storedAlike_name (hschema : scope.root.WellFormed) {field : Attribute σ}
    (hfield : field ∈ scope.root.attributes) (value : Value) :
    scope.StoredAlike field.name value := by
  have hplace : Place.ofText field.name = Place.root.child field.name := by
    simp [Place.ofText, Place.root, Place.child,
      Dotted.split_of_usable (hschema.usable field hfield)]
  unfold StoredAlike
  rw [hschema.nativeAttribute?_name hfield]
  show ∀ stored, _ ↔ _
  rw [hplace]
  exact fun _ => .rfl

end Scope

mutual

/-- Where every path is kept, a value is kept in its natural form. -/
theorem Value.keep?_eq_natural? {scope : Scope σ}
    (hfull : ∀ place, scope.unknownMatch place = .full) : ∀ (value : Value) (place : Place),
    value.keep? scope place = value.natural?
  | .map fields, place => by
      have hfields := Value.keepFields_eq_naturalFields hfull fields place
      simp [Value.keep?, hfull, Value.natural?, hfields]
  | .list items, place => by
      have hitems := Value.keepItems_eq_naturalItems hfull items place 0
      simp [Value.keep?, hfull, Value.natural?, hitems]
  | .undefined, _ | .null, _ | .bool _, _ | .number _, _ | .string _, _ | .binary _, _
  | .date _, _ | .set _, _ => by simp [Value.keep?, hfull]

theorem Value.keepItems_eq_naturalItems {scope : Scope σ}
    (hfull : ∀ place, scope.unknownMatch place = .full) :
    ∀ (items : List Value) (place : Place) (index : Nat),
      Value.keepItems scope place index items = Value.naturalItems items
  | [], _, _ => rfl
  | item :: rest, place, index => by
      have hitem := Value.keep?_eq_natural? hfull item (place.item index)
      have hrest := Value.keepItems_eq_naturalItems hfull rest place (index + 1)
      cases hstored : item.natural? with
      | none => simp only [Value.keepItems, Value.naturalItems, hitem, hrest, hstored]
      | some stored => simp only [Value.keepItems, Value.naturalItems, hitem, hrest, hstored]

theorem Value.keepFields_eq_naturalFields {scope : Scope σ}
    (hfull : ∀ place, scope.unknownMatch place = .full) :
    ∀ (fields : List (String × Value)) (place : Place),
      Value.keepFields scope place fields = Value.naturalFields fields
  | [], _ => rfl
  | (key, value) :: rest, place => by
      have hvalue := Value.keep?_eq_natural? hfull value (place.child key)
      have hrest := Value.keepFields_eq_naturalFields hfull rest place
      cases hstored : value.natural? with
      | none => simp only [Value.keepFields, Value.naturalFields, hvalue, hrest, hstored]
      | some stored => simp only [Value.keepFields, Value.naturalFields, hvalue, hrest, hstored]

end

/-- An undeclared attribute is stored alike if undeclared data is kept at any depth. -/
theorem Scope.storedAlike_of_everything {scope : Scope σ}
    (hkeeps : scope.root.keepUnknown = .everything) {key : String}
    (hundeclared : scope.root.nativeAttribute? key = none) (value : Value) :
    scope.StoredAlike key value := by
  have hfull : ∀ place, scope.unknownMatch place = .full := by
    intro place
    rw [Scope.unknownMatch, hkeeps]
    rfl
  unfold StoredAlike
  rw [hundeclared]
  exact (Value.keep?_eq_natural? hfull value _).symm

/-! ## The whole update -/

/-- A document is written attribute by attribute. -/
theorem Mapper.storesAs_of_yields {mapper : Mapper σ} (hschema : mapper.model.schema.WellFormed)
    {now : Instant} {depth : Nat} {document : Document} {before after : σ} {item : Item}
    (hrun : Yields (mapper.write ⟨.plain, now, depth⟩ document) before item after) :
    Fields.Sorted item ∧ ∀ name, mapper.scope.frame.StoresAs
      (mapper.model.schema.normalized document) name (item.get? name) := by
  have hiff : mapper.scope.frame.ConvertsTo document item ↔ _ :=
    Frame.convertsTo_iff hschema before
  exact hiff.mp (Frame.convertsTo_of_yields (.outermost now depth) hrun).2

/-- A flattened update under the plain options is compiled to actions that set and remove whole
attributes.  Performed on the item of a document, they give the item that the document is saved as
after the update has overridden it exactly when every field of the update is stored alike. -/
theorem Mapper.update_agrees_iff {mapper : Mapper σ} (hschema : mapper.model.schema.WellFormed)
    {now : Instant} {depth : Nat} {current update : Document}
    {first second third fourth fifth sixth : σ}
    {compiled : CompiledExpression} {item saved : Item}
    (hcurrent : Fields.Sorted current) (hupdate : mapper.model.schema.Flattened update)
    (hcompiled : Yields (mapper.update ⟨.plain, now, depth⟩ current update) first compiled second)
    (hitem : Yields (mapper.write ⟨.plain, now, depth⟩ current) third item fourth)
    (hsaved : Yields (mapper.write ⟨.plain, now, depth⟩
      (mapper.model.schema.override current update)) fifth saved sixth) :
    ∃ actions result,
      Yields (mapper.scope.updateActions ⟨.plain, now, depth⟩ current update) first actions second ∧
      compiled = .ofPieces (Action.updatePieces actions) ∧
      Action.performAll? item actions = some result ∧
      (result = saved ↔ ∀ entry ∈ update, mapper.scope.StoredAlike entry.1 entry.2) := by
  obtain ⟨actions, hactions, hcompiled⟩ := Mapper.actions_of_yields_update hcompiled
  have hfields := Scope.storesField_of_yields
    (fun entry hentry => ⟨hupdate.undotted entry hentry, hupdate.unbucketed entry hentry⟩) hactions
  -- both items are known attribute by attribute
  obtain ⟨hitemSorted, hitemStores⟩ := mapper.storesAs_of_yields hschema hitem
  obtain ⟨hsavedSorted, hsavedStores⟩ := mapper.storesAs_of_yields hschema hsaved
  obtain ⟨result, hresult, hresultSorted, hassigned, hleft⟩ :=
    Scope.exists_updated hfields hupdate.distinct hitemSorted
  refine ⟨actions, result, hactions, hcompiled, hresult, ?_⟩
  have hentry : ∀ entry ∈ update,
      result.get? (mapper.model.schema.storedName entry.1) =
        saved.get? (mapper.model.schema.storedName entry.1) ↔
      mapper.scope.StoredAlike entry.1 entry.2 := by
    intro entry hentry
    exact Scope.eq_iff_storedAlike hschema third
      (SchemaOf.get?_normalized_override_of_mem hcurrent hupdate.sorted hupdate.distinct hentry)
      (hassigned entry hentry) (hsavedStores _)
  have hother : ∀ name ∉ mapper.model.schema.storedNames update,
      result.get? name = saved.get? name := by
    intro name hname
    have hsame := SchemaOf.get?_normalized_override_of_notMem hcurrent hupdate.sorted hname
    calc result.get? name = item.get? name := hleft name hname
      _ = saved.get? name :=
        (hitemStores name).unique third ((Frame.storesAs_congr hsame).mp (hsavedStores name))
  constructor
  · rintro rfl entry hmem
    exact (hentry entry hmem).mp rfl
  · intro halike
    apply Fields.ext hresultSorted hsavedSorted
    intro name
    by_cases hname : name ∈ mapper.model.schema.storedNames update
    · obtain ⟨entry, hmem, rfl⟩ := List.mem_map.mp hname
      exact (hentry entry hmem).mpr (halike entry hmem)
    · exact hother name hname

/-! ## Notes with undeclared data -/

/-- Of what a note does not declare, `meta` is kept, but nothing inside it. -/
def SchemaOf.note : Schema Unit where
  attributes := [.plain "id" [.primitive .string]]
  keepUnknown := .matching ["meta"]
  timestamps := none

theorem SchemaOf.build_note : build note.attributes note.keepUnknown none = .ok note :=
  rfl

/-- The mapper of the only model, which has the schema `SchemaOf.note`. -/
def Mapper.notes : Mapper Unit :=
  ⟨⟨[⟨"Note", .note, none⟩]⟩, ⟨"Note", .note, none⟩⟩

/-- An update stores the inside of `meta`, which saving the note again leaves out. -/
theorem Mapper.update_stores_more :
    ∃ actions item saved result,
      Yields (notes.scope.updateActions ⟨.plain, .epoch, 0⟩ [("id", .string "1")]
        [("meta", .map [("a", .string "x")])]) () actions () ∧
      Yields (notes.write ⟨.plain, .epoch, 0⟩ [("id", .string "1")]) () item () ∧
      Yields (notes.write ⟨.plain, .epoch, 0⟩ (notes.model.schema.override [("id", .string "1")]
        [("meta", .map [("a", .string "x")])])) () saved () ∧
      Action.performAll? item actions = some result ∧ result ≠ saved :=
  ⟨[.set [.name "meta"] (.map [("a", .string "x")])], [("id", .string "1")],
    [("id", .string "1"), ("meta", .map [])],
    [("id", .string "1"), ("meta", .map [("a", .string "x")])],
    yields_of_value? (by decide +kernel), yields_of_value? (by decide +kernel),
    yields_of_value? (by decide +kernel), by decide, by decide⟩

/-- If `meta` is a text, both ways agree. -/
theorem Mapper.update_agrees_notes :
    ∃ actions result,
      Yields (notes.scope.updateActions ⟨.plain, .epoch, 0⟩ [("id", .string "1")]
        [("meta", .string "x")]) () actions () ∧
      ⟨"SET #a0 = :v0", [("#a0", "meta")], [(":v0", .string "x")]⟩ =
        CompiledExpression.ofPieces (Action.updatePieces actions) ∧
      Action.performAll? [("id", .string "1")] actions = some result ∧
      (result = [("id", .string "1"), ("meta", .string "x")] ↔
        ∀ entry ∈ [("meta", Value.string "x")], notes.scope.StoredAlike entry.1 entry.2) := by
  have hschema : notes.model.schema.WellFormed := SchemaOf.wellFormed_of_build SchemaOf.build_note
  have hcompiled : Yields (notes.update ⟨.plain, .epoch, 0⟩ [("id", .string "1")]
      [("meta", .string "x")]) () ⟨"SET #a0 = :v0", [("#a0", "meta")], [(":v0", .string "x")]⟩ () :=
    yields_of_value? (by decide +kernel)
  have hupdate : notes.model.schema.Flattened [("meta", .string "x")] :=
    ⟨by decide, by decide, by simp, by decide⟩
  exact update_agrees_iff hschema (by decide) hupdate hcompiled
    (yields_of_value? (by decide +kernel)) (yields_of_value? (by decide +kernel))

end ItemMapper
