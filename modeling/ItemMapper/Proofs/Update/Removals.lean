import ItemMapper.Proofs.Marshal.Vanishing
import ItemMapper.Proofs.Update.Checks

/-!
# When an update removes a required attribute

Two rounds prepare the changes of an update, and each refuses to take away the value of a required
attribute of the outermost document: the first one refuses removals that no default makes up for,
the second one assignments of the undefined value (`Change.Guarded`).  An update may still remove a
required attribute, in one of the ways of `Scope.LosesRequired`:

* the removal leads *inside* an attribute, where neither round looks;
* a combined attribute follows its sources, the last of which is removed, after both rounds;
* a value is assigned that *stores nothing*.  Both rounds look at the value that is given, and only
  writing it tells that nothing is left of it.

`Mapper.update_removes_required_iff` says that there are no others.
-/

namespace ItemMapper

variable {σ : Type}

open Pipeline

/-! ## What actions remove -/

namespace Change

variable {scope : Scope σ} {writing : Writing} {current : Document} {change : Change σ}
  {action : Action}

/-- Nothing that is added or taken from a set removes an attribute. -/
theorem addition_ne_remove {value : Value}
    (hadd : change.addition scope current value = .ok action) (path : List Segment) :
    action ≠ .remove path := by
  rcases addition_cases hadd with ⟨-, hundeclared⟩ |
    ⟨types, -, ⟨x, -, -, rfl⟩ | ⟨element, operand, -, -, rfl⟩ | ⟨array, operand, -, -, -, rfl⟩⟩
  · obtain ⟨operand, -, rfl | rfl⟩ := addUndeclared?_cases hundeclared <;> simp
  · simp
  · simp
  · split <;> simp

theorem deletion_ne_remove {value : Value} (hdelete : change.deletion scope value = .ok action)
    (path : List Segment) : action ≠ .remove path := by
  obtain ⟨element, operand, -, -, rfl⟩ := deletion_cases hdelete
  simp

/-- An assignment to a declared attribute removes it exactly if the value stores nothing. -/
theorem assignment_eq_remove_iff {value : Value} {types : List (CandidateType σ)}
    (htypes : change.target.types = some types) {before after : σ}
    (hrun : Yields (change.assignment scope writing value) before action after) :
    action = .remove change.target.segments ↔
      value.StoresNothing writing.options.typeCheck scope (.ofText change.path) types := by
  obtain ⟨stored, hstored, rfl⟩ := assignment_cases hrun
  obtain ⟨_, _, hstored⟩ := hstored.of_types htypes
  rw [← Value.tells_writerTo writing.depth value hstored]
  cases stored <;> simp [Action.ofStored]

/-- A change removes its path if it is a removal, or if it assigns a value that stores nothing. -/
theorem Stores.eq_remove_iff (hstores : change.Stores scope writing current action)
    {types : List (CandidateType σ)} (htypes : change.target.types = some types) :
    action = .remove change.target.segments ↔
      change.request.isRemoval = true ∨ ∃ value, change.request = .set value ∧
        value.StoresNothing writing.options.typeCheck scope (.ofText change.path) types := by
  obtain ⟨_, _, hrun⟩ := hstores
  unfold Change.action at hrun
  split at hrun
  · next hrequest =>
      obtain rfl := (yields_pure.mp hrun).1
      simp [hrequest, Request.isRemoval]
  · next hrequest =>
      rw [assignment_eq_remove_iff htypes hrun]
      simp [hrequest, Request.isRemoval]
  · next hrequest =>
      have hne := addition_ne_remove (yields_ofExcept.mp hrun).1 change.target.segments
      simp [hrequest, Request.isRemoval, hne]
  · next hrequest =>
      have hne := deletion_ne_remove (yields_ofExcept.mp hrun).1 change.target.segments
      simp [hrequest, Request.isRemoval, hne]

/-! ## What the two rounds refuse -/

/-- The change does not take a required attribute of the outermost document away, as far as this can
be told before its value is written. -/
def Guarded (change : Change σ) : Prop :=
  ∀ field, change.target.topLevel? = some field → field.required = true →
    change.request.isRemoval = false ∧
      ∀ value, change.request = .set value → value.isUndefined = false

/-- The first round leaves no removal of a required attribute. -/
theorem of_yields_restoreDefault_required {restored : Change σ} {before after : σ}
    (hrequired : writing.options.required ≠ .off)
    (hrun : Yields (change.restoreDefault writing current) before restored after) :
    ∀ field, restored.target.topLevel? = some field → field.required = true →
      restored.request.isRemoval = false := by
  unfold restoreDefault at hrun
  split at hrun
  case h_1 mayRestore declared hrequest hdeclared =>
    obtain ⟨value, middle, -, hrun⟩ := yields_ite_bind.mp hrun
    cases value with
    | some value =>
        obtain ⟨rfl, -⟩ := yields_pure.mp hrun
        exact fun _ _ _ => rfl
    | none =>
        dsimp only at hrun
        split at hrun
        case isTrue => simp at hrun
        case isFalse hfree =>
          obtain ⟨rfl, -⟩ := yields_pure.mp hrun
          intro field hfield hmust
          obtain rfl := Option.some.inj (hdeclared.symm.trans hfield)
          exact absurd (by simp [hmust, hrequired]) hfree
  case h_2 hother =>
    obtain ⟨rfl, -⟩ := yields_pure.mp hrun
    intro field hfield _
    cases hrequest : change.request with
    | remove restores => exact (hother restores field hrequest hfield).elim
    | _ => rfl

/-- The second round leaves no assignment of the undefined value to one, either. -/
theorem guarded_of_yields_prepare {prepared : Change σ} {before after : σ}
    (hrequired : writing.options.required ≠ .off)
    (hkept : ∀ field, change.target.topLevel? = some field → field.required = true →
      change.request.isRemoval = false)
    (hrun : Yields (change.prepare writing) before prepared after) : prepared.Guarded := by
  unfold prepare at hrun
  split at hrun
  case h_1 given declared hrequest hdeclared =>
    obtain ⟨value, middle, -, hrun⟩ := yields_ite_bind.mp hrun
    obtain ⟨hcheck, hrun⟩ := yields_check.mp hrun
    obtain ⟨_, _, -, hrun⟩ := yields_bind.mp hrun
    obtain ⟨rfl, -⟩ := yields_pure.mp hrun
    intro field hfield hmust
    obtain rfl := Option.some.inj (hdeclared.symm.trans hfield)
    refine ⟨rfl, ?_⟩
    rintro _ ⟨⟩
    simpa [hmust, hrequired] using hcheck
  case h_2 hother =>
    obtain ⟨rfl, -⟩ := yields_pure.mp hrun
    intro field hfield hmust
    refine ⟨hkept field hfield hmust, fun value hvalue => ?_⟩
    exact (hother value field hvalue hfield).elim

/-- Both rounds together: every change is guarded, and a removal is one that was requested. -/
theorem Rounds.guarded {asked : Change σ} (hrequired : writing.options.required ≠ .off)
    (hrounds : asked.Rounds writing current change) :
    change.Guarded ∧ (change.request.isRemoval = true → change = asked) := by
  refine ⟨?_, fun hremoval => ?_⟩
  · obtain ⟨middle, _, _, _, _, hrestore, hprepare⟩ := hrounds
    exact guarded_of_yields_prepare hrequired
      (of_yields_restoreDefault_required hrequired hrestore) hprepare
  · cases hrounds.prepares with
    | assigned value _ => contradiction
    | kept _ _ => rfl

end Change

/-! ## Compiled updates -/

namespace Scope

variable {scope : Scope σ} {writing : Writing} {current update : Document}
  {requested : List (Change σ)} {change : Change σ}

/-- The ways in which a change of a required attribute removes it. -/
inductive LosesRequired (scope : Scope σ) (writing : Writing) (requested : List (Change σ))
    (change : Change σ) : Prop where
  /-- A removal is requested, by a path that leads inside an attribute. -/
  | inside (hrequested : change ∈ requested) (hremoval : change.request.isRemoval = true)
      (hinside : change.target.topLevel? = none)
  /-- A combined attribute is removed with the last of its sources. -/
  | combined (hderives : scope.Derives writing change) (hremoval : change.request.isRemoval = true)
  /-- A value is assigned of which nothing is stored.  It is undefined only inside an attribute, or
  as a forced default. -/
  | vanishing (value : Value) (types : List (CandidateType σ))
      (hassigned : change.request = .set value) (htypes : change.target.types = some types)
      (hvanishes : value.StoresNothing writing.options.typeCheck scope (.ofText change.path) types)
      (hundefined : value.isUndefined = true →
        change.target.topLevel? = none ∨ scope.Derives writing change)

theorem losesRequired_iff {field : Attribute σ} {action : Action}
    (hlookup : scope.lookup change.path = .ok change.target)
    (hfield : change.target.attribute? = some field) (hmust : field.required = true)
    (horigin : (change.Guarded ∧ (change.request.isRemoval = true → change ∈ requested)) ∨
      scope.Derives writing change)
    (hstores : change.Stores scope writing current action) :
    action = .remove change.target.segments ↔ scope.LosesRequired writing requested change := by
  have htypes := (of_lookup_attribute? hlookup hfield).2
  -- what is guarded is not taken away at the top, so it is inside an attribute
  have hinside : change.Guarded → (change.request.isRemoval = true ∨
      ∃ value, change.request = .set value ∧ value.isUndefined = true) →
      change.target.topLevel? = none := by
    intro hguarded htaken
    cases htop : change.target.topLevel? with
    | none => rfl
    | some declared =>
        have hlast := ResolvedPath.last_eq_of_topLevel? htop
        obtain rfl := Option.some.inj
          (hlast.symm.trans (ResolvedPath.last_eq_of_attribute? hfield))
        obtain ⟨hkept, hdefined⟩ := hguarded declared htop hmust
        rcases htaken with hremoval | ⟨value, hvalue, hundefined⟩
        · simp [hkept] at hremoval
        · simp [hdefined value hvalue] at hundefined
  rw [hstores.eq_remove_iff htypes]
  constructor
  · rintro (hremoval | ⟨value, hvalue, hvanishes⟩)
    · rcases horigin with ⟨hguarded, hasked⟩ | hderives
      · exact .inside (hasked hremoval) hremoval (hinside hguarded (.inl hremoval))
      · exact .combined hderives hremoval
    · refine .vanishing value field.types hvalue htypes hvanishes fun hundefined => ?_
      rcases horigin with ⟨hguarded, -⟩ | hderives
      · exact .inl (hinside hguarded (.inr ⟨value, hvalue, hundefined⟩))
      · exact .inr hderives
  · rintro (⟨-, hremoval, -⟩ | ⟨-, hremoval⟩ | ⟨value, types, hvalue, hother, hvanishes, -⟩)
    · exact .inl hremoval
    · exact .inl hremoval
    · obtain rfl := Option.some.inj (htypes.symm.trans hother)
      exact .inr ⟨value, hvalue, hvanishes⟩

/-- Every change of an update is guarded or derived, and stands where its path leads. -/
theorem guarded_or_derived {actions : List Action} {before after : σ}
    (hrequired : writing.options.required ≠ .off)
    (hrun : Yields (scope.updateActions writing current update) before actions after) :
    ∃ requested changes, scope.requestedChanges update = .ok requested ∧
      List.Forall₂ (Change.Stores scope writing current) changes actions ∧
      ∀ change ∈ changes, scope.lookup change.path = .ok change.target ∧
        ((change.Guarded ∧ (change.request.isRemoval = true → change ∈ requested)) ∨
          scope.Derives writing change) := by
  obtain ⟨requested, changes, hrequested, hstores, hall⟩ := rounds_or_derived hrun
  refine ⟨requested, changes, hrequested, hstores, fun change hchange => ?_⟩
  obtain ⟨hlookup, ⟨asked, hasked, hrounds⟩ | hderives⟩ := hall change hchange
  · obtain ⟨hguarded, hkept⟩ := hrounds.guarded hrequired
    exact ⟨hlookup, .inl ⟨hguarded, fun hremoval => hkept hremoval ▸ hasked⟩⟩
  · exact ⟨hlookup, .inr hderives⟩

end Scope

/-- If required attributes are checked, an update that compiles removes one of them, at whatever
depth, exactly if the removal leads inside an attribute, if a combined attribute loses its last
source, or if what is assigned stores nothing. -/
theorem Mapper.update_removes_required_iff {mapper : Mapper σ} {writing : Writing}
    {current update : Document} {before after : σ} {compiled : CompiledExpression}
    (hrequired : writing.options.required ≠ .off)
    (hrun : Yields (mapper.update writing current update) before compiled after) :
    ∃ requested changes actions, mapper.scope.requestedChanges update = .ok requested ∧
      List.Forall₂ (Change.Stores mapper.scope writing current) changes actions ∧
      compiled = .ofPieces (Action.updatePieces actions) ∧
      ∀ pair ∈ changes.zip actions, mapper.scope.lookup pair.1.path = .ok pair.1.target ∧
        pair.2.path = pair.1.target.segments ∧
        ∀ field, pair.1.target.attribute? = some field → field.required = true →
          (pair.2 = .remove pair.1.target.segments ↔
            mapper.scope.LosesRequired writing requested pair.1) := by
  obtain ⟨actions, hactions, hcompiled⟩ := Mapper.actions_of_yields_update hrun
  obtain ⟨requested, changes, hrequested, hstores, hall⟩ :=
    Scope.guarded_or_derived hrequired hactions
  refine ⟨requested, changes, actions, hrequested, hstores, hcompiled, fun pair hpair => ?_⟩
  obtain ⟨hlookup, horigin⟩ := hall pair.1 (List.of_mem_zip hpair).1
  have hstored : pair.1.Stores mapper.scope writing current pair.2 :=
    List.forall₂_zip hstores hpair
  exact ⟨hlookup, hstored.path_eq, fun field hfield hmust =>
    Scope.losesRequired_iff hlookup hfield hmust horigin hstored⟩

/-! ## Shipments -/

/-- A shipment has marks and a label, and an address has a street. -/
def SchemaOf.shipment : Schema Unit where
  attributes := [.plain "id" [.primitive .string],
    .plain "to" [.object {
      attributes := [{ AttributeOf.plain "street" [.primitive .string] with required := true }]
      keepUnknown := .disabled
      timestamps := none }],
    { AttributeOf.plain "marks" [.set (.primitive .string)] with required := true },
    .plain "sender" [.primitive .string],
    { AttributeOf.plain "label" [.combine ["sender"] ","] with required := true }]
  keepUnknown := .disabled
  timestamps := none

/-- The mapper of the only model, which has the schema `SchemaOf.shipment`. -/
def Mapper.shipment : Mapper Unit :=
  ⟨⟨[⟨"Shipment", .shipment, none⟩]⟩, ⟨"Shipment", .shipment, none⟩⟩

/-- The street is removed although an address must have one, and so are all marks, and the label
together with the sender. -/
theorem Mapper.update_removes_street :
    (∃ target field, shipment.scope.lookup "to.street" = .ok target ∧
      target.attribute? = some field ∧ field.required = true) ∧
    Yields (shipment.update ⟨.save, .epoch, 0⟩ [] [("$REMOVE", .string "to.street")]) ()
      ⟨"REMOVE #a0.#a1", [("#a0", "to"), ("#a1", "street")], []⟩ () ∧
    Yields (shipment.update ⟨.save, .epoch, 0⟩ [] [("marks", .set [])]) ()
      ⟨"REMOVE #a0", [("#a0", "marks")], []⟩ () ∧
    Yields (shipment.update ⟨.save, .epoch, 0⟩ [] [("sender", .undefined)]) ()
      ⟨"REMOVE #a0, #a1", [("#a0", "sender"), ("#a1", "label")], []⟩ () :=
  ⟨⟨_, _, rfl, rfl, rfl⟩, yields_of_value? (by decide +kernel),
    yields_of_value? (by decide +kernel), yields_of_value? (by decide +kernel)⟩

theorem Mapper.update_removes_required_iff_shipment :
    (.save : MarshalOptions).required ≠ .off ∧
    ∃ requested changes actions,
      shipment.scope.requestedChanges [("marks", .set [.string "fragile"])] = .ok requested ∧
      List.Forall₂ (Change.Stores shipment.scope ⟨.save, .epoch, 0⟩ []) changes actions ∧
      ⟨"SET #a0 = :v0", [("#a0", "marks")], [(":v0", .stringSet ["fragile"])]⟩ =
        CompiledExpression.ofPieces (Action.updatePieces actions) ∧
      ∀ pair ∈ changes.zip actions, shipment.scope.lookup pair.1.path = .ok pair.1.target ∧
        pair.2.path = pair.1.target.segments ∧
        ∀ field, pair.1.target.attribute? = some field → field.required = true →
          (pair.2 = .remove pair.1.target.segments ↔
            shipment.scope.LosesRequired ⟨.save, .epoch, 0⟩ requested pair.1) :=
  ⟨by decide, update_removes_required_iff (by decide) (yields_of_value? (by decide +kernel))⟩

end ItemMapper
