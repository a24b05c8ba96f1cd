import ItemMapper.Proofs.Sets.Coding
import ItemMapper.Proofs.Update.Checks

/-!
# Whether actions fit the types of their targets

An action on the stored side asks for a stored form: ADD for a number or a set, `list_append` for a
list, DELETE for a set.  An action fits some candidate types if these have such a type, and if its
operand is what a value of this type is stored as (`Action.Fits`).

`Change.LowersTo` lists what a change of a declared attribute can become.  All of it fits but one
case: where no type is a set, a deletion goes by what the value itself tells, as it has to where
nothing is declared.  So members may be deleted from an attribute that is no set, and
`Mapper.update_actions_fit_iff` says that nothing else goes wrong.
-/

namespace ItemMapper

variable {σ : Type}

open Pipeline

/-! ## Actions that fit -/

/-- A set is stored, with at least one member, and all of them are of the given type. -/
def CandidateType.StoresSet (element : CandidateType σ) (operand : WireValue) : Prop :=
  ∃ kind, element.setElement? = some kind ∧ operand.wireType = kind.wireType ∧
    operand.isEmptyContainer = false

/-- An action that can be done to a value of one of some types. -/
inductive Action.Fits (types : List (CandidateType σ)) : Action → Prop
  | addNumber {path : List Segment} {text : String} (htype : .primitive .number ∈ types) :
      Fits types (.add path (.number text))
  | addMembers {path : List Segment} {operand : WireValue} {element : CandidateType σ}
      (htype : .set element ∈ types) (hset : element.StoresSet operand) :
      Fits types (.add path operand)
  | append {path : List Segment} {items : List WireValue} {elements : List (CandidateType σ)}
      (htype : .array elements ∈ types) : Fits types (.append path (.list items))
  | delete {path : List Segment} {operand : WireValue} {element : CandidateType σ}
      (htype : .set element ∈ types) (hset : element.StoresSet operand) :
      Fits types (.delete path operand)
  | set {path : List Segment} {operand : WireValue} : Fits types (.set path operand)
  | remove {path : List Segment} : Fits types (.remove path)

namespace CandidateType

variable {types : List (CandidateType σ)}

theorem number_mem_of_hasNumber (hnumber : hasNumber types = true) :
    .primitive .number ∈ types := by
  rw [hasNumber, List.any_eq_true] at hnumber
  obtain ⟨type, htype, hkind⟩ := hnumber
  split at hkind
  · exact htype
  · cases hkind

theorem mem_of_firstSetElement? {element : CandidateType σ}
    (hfirst : firstSetElement? types = some element) : .set element ∈ types := by
  obtain ⟨type, htype, hkind⟩ := List.exists_of_findSome?_eq_some hfirst
  split at hkind
  · obtain rfl := Option.some.inj hkind
    exact htype
  · cases hkind

theorem firstSetElement?_eq_none_iff :
    firstSetElement? types = none ↔ ∀ element, .set element ∉ types := by
  rw [firstSetElement?, List.findSome?_eq_none_iff]
  constructor
  · intro hnone element helement
    simpa using hnone _ helement
  · intro hnone type htype
    cases type with
    | set element => exact absurd htype (hnone element)
    | _ => rfl

theorem exists_of_firstArray? {array : CandidateType σ}
    (hfirst : firstArray? types = some array) :
    ∃ elements, array = .array elements ∧ .array elements ∈ types := by
  have hmem := List.mem_of_find?_eq_some hfirst
  have hkind := List.find?_some hfirst
  cases array with
  | array elements => exact ⟨elements, rfl, hmem⟩
  | _ => simp at hkind

end CandidateType

/-- A stored set of members of a type has a member and the tag of the type. -/
theorem Change.storesSet_of_encodeMembers {scope : Scope σ} {change : Change σ}
    {element : CandidateType σ} {value : Value} {operand : WireValue}
    (hencode : change.encodeMembers scope element value = .ok (some operand)) :
    element.StoresSet operand := by
  obtain ⟨kind, hkind, hencodes⟩ := Reading.encodes_of_encodeSet hencode
  refine ⟨kind, hkind, hencodes.wireType, ?_⟩
  have hvalid := hencodes.setsValid
  have hset : operand.wireType.isSet = true := by
    rw [hencodes.wireType]
    cases kind with
    | date storage => cases storage <;> rfl
    | _ => rfl
  cases operand with
  | stringSet members | numberSet members | binarySet members =>
      simpa [WireValue.isEmptyContainer] using hvalid.1
  | _ => cases hset

/-! ## What changes become -/

namespace Change

variable {scope : Scope σ} {writing : Writing} {current : Document} {change : Change σ}
  {types : List (CandidateType σ)} {action : Action}

/-- What a change of an attribute with some candidate types can become. -/
inductive LowersTo (current : Document) (change : Change σ) (types : List (CandidateType σ)) :
    Action → Prop
  | removed {restores : Bool} (hrequest : change.request = .remove restores) :
      LowersTo current change types (.remove change.target.segments)
  | assigned {value : Value} (operand : WireValue) (hrequest : change.request = .set value) :
      LowersTo current change types (.set change.target.segments operand)
  /-- Nothing is stored of the value that is assigned. -/
  | vanished {value : Value} (hrequest : change.request = .set value) :
      LowersTo current change types (.remove change.target.segments)
  | addedNumber {x : Binary64} (hrequest : change.request = .add (.number x))
      (htype : .primitive .number ∈ types) :
      LowersTo current change types (.add change.target.segments (.number x.text))
  | addedMembers {value : Value} {element : CandidateType σ} {operand : WireValue}
      (hrequest : change.request = .add value) (htype : .set element ∈ types)
      (hset : element.StoresSet operand) :
      LowersTo current change types (.add change.target.segments operand)
  /-- There may be items that the new ones come after. -/
  | appended {value : Value} {elements : List (CandidateType σ)} {items : List WireValue}
      (hrequest : change.request = .add value) (htype : .array elements ∈ types)
      (hitems : current.lacksItems change.path = false) :
      LowersTo current change types (.append change.target.segments (.list items))
  /-- There are no items yet. -/
  | begun {value : Value} {elements : List (CandidateType σ)} {items : List WireValue}
      (hrequest : change.request = .add value) (htype : .array elements ∈ types)
      (hitems : current.lacksItems change.path = true) :
      LowersTo current change types (.set change.target.segments (.list items))
  | deletedMembers {value : Value} {element : CandidateType σ} {operand : WireValue}
      (hrequest : change.request = .delete value) (htype : .set element ∈ types)
      (hset : element.StoresSet operand) :
      LowersTo current change types (.delete change.target.segments operand)
  /-- No type is a set.  The value is one, and its first member tells what set of it is stored. -/
  | deletedAnyway {value : Value} {element : CandidateType σ} {operand : WireValue}
      (hrequest : change.request = .delete value) (hnone : ∀ element, .set element ∉ types)
      (htold : CandidateType.ofSetMembers? value = some element)
      (hset : element.StoresSet operand) :
      LowersTo current change types (.delete change.target.segments operand)

/-- Members are to be deleted where none of the types is a set. -/
def DeletesFromNoSet (change : Change σ) (types : List (CandidateType σ)) : Prop :=
  (∃ value, change.request = .delete value) ∧ ∀ element, .set element ∉ types

theorem lowersTo_of_addition {value : Value} (hrequest : change.request = .add value)
    (htypes : change.target.types = some types)
    (hadd : change.addition scope current value = .ok action) :
    change.LowersTo current types action := by
  rcases addition_cases hadd with ⟨hnone, -⟩ | ⟨others, hothers, hcases⟩
  · simp [htypes] at hnone
  obtain rfl := Option.some.inj (htypes.symm.trans hothers)
  rcases hcases with ⟨x, rfl, hnumber, rfl⟩ | ⟨element, operand, hfirst, hencode, rfl⟩ |
    ⟨array, operand, -, hfirst, hencode, rfl⟩
  · exact .addedNumber hrequest (CandidateType.number_mem_of_hasNumber hnumber)
  · exact .addedMembers hrequest (CandidateType.mem_of_firstSetElement? hfirst)
      (storesSet_of_encodeMembers hencode)
  · obtain ⟨elements, rfl, harray⟩ := CandidateType.exists_of_firstArray? hfirst
    rw [Value.encodeAs] at hencode
    simp only [Except.bind_eq_ok, Except.pure_eq_ok, Option.some.injEq] at hencode
    obtain ⟨items, -, rfl⟩ := hencode
    cases hitems : current.lacksItems change.path with
    | true => exact .begun hrequest harray hitems
    | false => exact .appended hrequest harray hitems

theorem lowersTo_of_deletion {value : Value} (hrequest : change.request = .delete value)
    (htypes : change.target.types = some types)
    (hdelete : change.deletion scope value = .ok action) :
    change.LowersTo current types action := by
  obtain ⟨element, operand, helement, hencode, rfl⟩ := deletion_cases hdelete
  have hset := storesSet_of_encodeMembers hencode
  rw [htypes, Option.bind_some, Option.or_eq_some_iff] at helement
  rcases helement with hfirst | ⟨hnone, htold⟩
  · exact .deletedMembers hrequest (CandidateType.mem_of_firstSetElement? hfirst) hset
  · exact .deletedAnyway hrequest (CandidateType.firstSetElement?_eq_none_iff.mp hnone) htold hset

theorem Stores.lowersTo (hstores : change.Stores scope writing current action)
    (htypes : change.target.types = some types) : change.LowersTo current types action := by
  obtain ⟨_, _, hrun⟩ := hstores
  unfold Change.action at hrun
  split at hrun
  · next hrequest =>
      obtain rfl := (yields_pure.mp hrun).1
      exact .removed hrequest
  · next hrequest =>
      obtain ⟨stored, -, rfl⟩ := assignment_cases hrun
      cases stored with
      | none => exact .vanished hrequest
      | some operand => exact .assigned operand hrequest
  · next hrequest => exact lowersTo_of_addition hrequest htypes (yields_ofExcept.mp hrun).1
  · next hrequest => exact lowersTo_of_deletion hrequest htypes (yields_ofExcept.mp hrun).1

/-- Only a deletion can become an action that does not fit. -/
theorem LowersTo.fits_iff (hlowers : change.LowersTo current types action) :
    action.Fits types ↔ ¬ change.DeletesFromNoSet types := by
  have hfits : (∀ value, change.request ≠ .delete value) →
      ¬ change.DeletesFromNoSet types := by
    rintro hother ⟨⟨value, hvalue⟩, -⟩
    exact hother value hvalue
  cases hlowers with
  | removed hrequest => exact iff_of_true .remove (hfits (by simp [hrequest]))
  | assigned operand hrequest => exact iff_of_true .set (hfits (by simp [hrequest]))
  | vanished hrequest => exact iff_of_true .remove (hfits (by simp [hrequest]))
  | addedNumber hrequest htype =>
      exact iff_of_true (.addNumber htype) (hfits (by simp [hrequest]))
  | addedMembers hrequest htype hset =>
      exact iff_of_true (.addMembers htype hset) (hfits (by simp [hrequest]))
  | appended hrequest htype _ =>
      exact iff_of_true (.append htype) (hfits (by simp [hrequest]))
  | begun hrequest htype _ => exact iff_of_true .set (hfits (by simp [hrequest]))
  | @deletedMembers _ element _ _ htype hset =>
      exact iff_of_true (.delete htype hset) fun ⟨_, hnone⟩ => hnone element htype
  | deletedAnyway hrequest hnone htold hset =>
      refine iff_of_false ?_ (not_not.mpr ⟨⟨_, hrequest⟩, hnone⟩)
      rintro (_ | _ | _ | ⟨htype, -⟩ | _ | _)
      exact hnone _ htype

end Change

/-! ## Compiled updates -/

/-- Of what an update requests or implies at declared types, whatever compiles becomes an action
that fits these types, unless members are requested to be deleted where none of the types is a
set. -/
theorem Mapper.update_actions_fit_iff {mapper : Mapper σ} {writing : Writing}
    {current update : Document} {before after : σ} {compiled : CompiledExpression}
    (hrun : Yields (mapper.update writing current update) before compiled after) :
    ∃ requested changes actions, mapper.scope.requestedChanges update = .ok requested ∧
      List.Forall₂ (Change.Stores mapper.scope writing current) changes actions ∧
      compiled = .ofPieces (Action.updatePieces actions) ∧
      ∀ pair ∈ changes.zip actions, mapper.scope.lookup pair.1.path = .ok pair.1.target ∧
        pair.2.path = pair.1.target.segments ∧
        ∀ types, pair.1.target.types = some types →
          pair.1.LowersTo current types pair.2 ∧
          (pair.2.Fits types ↔ ¬ (pair.1 ∈ requested ∧ pair.1.DeletesFromNoSet types)) := by
  obtain ⟨actions, hactions, hcompiled⟩ := Mapper.actions_of_yields_update hrun
  obtain ⟨requested, changes, hrequested, hstores, hall⟩ := Scope.rounds_or_derived hactions
  refine ⟨requested, changes, actions, hrequested, hstores, hcompiled, fun pair hpair => ?_⟩
  obtain ⟨hlookup, horigin⟩ := hall pair.1 (List.of_mem_zip hpair).1
  have hstored : pair.1.Stores mapper.scope writing current pair.2 :=
    List.forall₂_zip hstores hpair
  refine ⟨hlookup, hstored.path_eq, fun types htypes => ?_⟩
  have hlowers := hstored.lowersTo htypes
  refine ⟨hlowers, ?_⟩
  -- no deletion is derived, and preparing leaves deletions alone
  have hasked : pair.1.DeletesFromNoSet types → pair.1 ∈ requested := by
    rintro ⟨⟨value, hvalue⟩, -⟩
    rcases horigin with ⟨asked, hasked, hrounds⟩ | hderives
    · generalize pair.1 = change at hrounds hvalue ⊢
      cases hrounds.prepares with
      | assigned value _ => cases hvalue
      | kept _ _ => exact hasked
    · generalize pair.1 = change at hderives hvalue ⊢
      cases hderives with
      | forcedDefault value _ _ _ => cases hvalue
      | time _ _ _ => cases hvalue
      | combined request _ _ hrequest _ => rcases hrequest with rfl | ⟨text, rfl⟩ <;> cases hvalue
  rw [hlowers.fits_iff, and_iff_right_of_imp hasked]

/-! ## A wine -/

/-- A wine has a name, the grapes it is made of, a rating and notes. -/
def SchemaOf.wine : Schema Unit where
  attributes := [.plain "id" [.primitive .string], .plain "name" [.primitive .string],
    .plain "grapes" [.set (.primitive .string)], .plain "rating" [.primitive .number],
    .plain "notes" [.array [.primitive .string]]]
  keepUnknown := .disabled
  timestamps := none

theorem SchemaOf.build_wine : build wine.attributes .disabled none = .ok wine :=
  rfl

/-- The mapper of the only model, which has the schema `SchemaOf.wine`. -/
def Mapper.wine : Mapper Unit :=
  ⟨⟨[⟨"Wine", .wine, none⟩]⟩, ⟨"Wine", .wine, none⟩⟩

/-- The name of a wine is a text, but members of a set are deleted from it.  What is no set is
refused. -/
theorem Mapper.update_deletes_from_name :
    (∃ target, wine.scope.lookup "name" = .ok target ∧
      target.types = some [.primitive .string]) ∧
    Yields (wine.update ⟨.update, .epoch, 0⟩ []
        [("$DELETE", .map [("name", .set [.string "Merlot"])])]) ()
      ⟨"DELETE #a0 :v0", [("#a0", "name")], [(":v0", .stringSet ["Merlot"])]⟩ () ∧
    ¬ Action.Fits (σ := Unit) [.primitive .string]
      (.delete [.name "name"] (.stringSet ["Merlot"])) ∧
    (wine.update ⟨.update, .epoch, 0⟩ []
      [("$DELETE", .map [("name", .string "Merlot")])]).value? = none := by
  refine ⟨⟨_, rfl, rfl⟩, yields_of_value? (by decide +kernel), ?_, by decide +kernel⟩
  rintro (_ | _ | _ | ⟨htype, -⟩ | _ | _)
  simp at htype

theorem Mapper.update_actions_fit_iff_wine :
    Yields (wine.update ⟨.update, .epoch, 0⟩ []
        [("$ADD", .map [("notes", .string "dry"), ("rating", .number (.ofInt 1))]),
          ("$DELETE", .map [("grapes", .set [.string "Merlot"])])]) ()
      ⟨"ADD #a0 :v0 SET #a1 = list_append(#a1, :v1) DELETE #a2 :v2",
        [("#a0", "rating"), ("#a1", "notes"), ("#a2", "grapes")],
        [(":v0", .number "1"), (":v1", .list [.string "dry"]),
          (":v2", .stringSet ["Merlot"])]⟩ () ∧
    ∃ requested changes actions,
      wine.scope.requestedChanges
        [("$ADD", .map [("notes", .string "dry"), ("rating", .number (.ofInt 1))]),
          ("$DELETE", .map [("grapes", .set [.string "Merlot"])])] = .ok requested ∧
      List.Forall₂ (Change.Stores wine.scope ⟨.update, .epoch, 0⟩ []) changes actions ∧
      CompiledExpression.mk "ADD #a0 :v0 SET #a1 = list_append(#a1, :v1) DELETE #a2 :v2"
        [("#a0", "rating"), ("#a1", "notes"), ("#a2", "grapes")]
        [(":v0", .number "1"), (":v1", .list [.string "dry"]),
          (":v2", .stringSet ["Merlot"])] = .ofPieces (Action.updatePieces actions) ∧
      ∀ pair ∈ changes.zip actions, wine.scope.lookup pair.1.path = .ok pair.1.target ∧
        pair.2.path = pair.1.target.segments ∧
        ∀ types, pair.1.target.types = some types →
          pair.1.LowersTo [] types pair.2 ∧
          (pair.2.Fits types ↔ ¬ (pair.1 ∈ requested ∧ pair.1.DeletesFromNoSet types)) :=
  have hrun := yields_of_value? (by decide +kernel)
  ⟨hrun, update_actions_fit_iff hrun⟩

end ItemMapper
