import ItemMapper.Proofs.Carried.Writing
import ItemMapper.Proofs.Expression.Placeholders
import ItemMapper.Proofs.Spelling.Changes
import ItemMapper.Proofs.Update.Checks

/-!
# What the values of expressions are

The table of values of an expression holds the operands of its tests or actions and nothing else
(`CompiledExpression.Numbered.mem_operands`).  An operand of a test is an encoded value.  An action
sets a written value, and what it adds or deletes is a number, an encoded set or an encoded list.  So
a property of the values that are asked for is carried over to the table, of a condition
(`Scope.carries_compileCondition`) as well as of an update (`Scope.carries_compileUpdate`).
-/

namespace ItemMapper

variable {σ : Type}

open Pipeline

/-! ## Tables of values -/

namespace OperandPlace

def operands : OperandPlace → List WireValue
  | single operand => [operand]
  | several operands => operands

theorem mem_operands_of_mem_entries {place : OperandPlace} {number : Nat}
    {entry : String × WireValue} (hentry : entry ∈ place.entries number) :
    entry.2 ∈ place.operands := by
  cases place with
  | single operand =>
      obtain rfl := List.mem_singleton.mp hentry
      exact List.mem_singleton.mpr rfl
  | several operands =>
      obtain ⟨⟨operand, rank⟩, hoperand, rfl⟩ := List.mem_map.mp hentry
      exact List.fst_mem_of_mem_zipIdx hoperand

end OperandPlace

/-- A value of the table stands at one of the places. -/
theorem CompiledExpression.Numbered.mem_operands {compiled : CompiledExpression}
    {places : List OperandPlace} (hnumbered : compiled.Numbered places)
    {entry : String × WireValue} (hentry : entry ∈ compiled.values) :
    ∃ place ∈ places, entry.2 ∈ place.operands := by
  rw [hnumbered.values] at hentry
  obtain ⟨⟨place, number⟩, hplace, hentry⟩ := List.mem_flatMap.mp hentry
  exact ⟨place, List.fst_mem_of_mem_zipIdx hplace,
    OperandPlace.mem_operands_of_mem_entries hentry⟩

theorem Test.mem_operands_of_mem_places {test : Test} {place : OperandPlace}
    (hplace : place ∈ test.places) {operand : WireValue} (hoperand : operand ∈ place.operands) :
    operand ∈ test.operands := by
  unfold places at hplace
  split at hplace
  · obtain rfl := List.mem_singleton.mp hplace
    exact hoperand
  · obtain ⟨single, hsingle, rfl⟩ := List.mem_map.mp hplace
    obtain rfl := List.mem_singleton.mp hoperand
    exact hsingle

/-- A value of the table of an update is the operand of one of its actions. -/
theorem Action.exists_of_mem_values {actions : List Action} {entry : String × WireValue}
    (hentry : entry ∈ (CompiledExpression.ofPieces (updatePieces actions)).values) :
    ∃ action ∈ actions, entry.2 ∈ action.operand? := by
  have hnumbered := CompiledExpression.numbered_ofPieces (spaced_updatePieces actions)
  rw [places_updatePieces] at hnumbered
  obtain ⟨place, hplace, hentry⟩ := hnumbered.mem_operands hentry
  obtain ⟨operand, hoperand, rfl⟩ := List.mem_map.mp hplace
  obtain rfl := List.mem_singleton.mp hentry
  obtain ⟨clause, -, hoperand⟩ := List.mem_flatMap.mp hoperand
  obtain ⟨action, haction, hoperand⟩ := List.mem_filterMap.mp hoperand
  exact ⟨action, (List.mem_filter.mp haction).1, hoperand⟩

variable {scope : Scope σ} {given : Value → Prop} {stored : WireValue → Prop}

/-! ## Conditions -/

/-- All operands of a condition, at any depth, have a property. -/
def Condition.Asks (given : Value → Prop) (condition : Condition) : Prop :=
  ∀ comparison ∈ ConditionNode.allComparisons condition.root.children,
    ∀ operand ∈ comparison.operands, given operand

namespace Scope

theorem carries_operand (hcarries : Carries given stored) {path : String}
    {types : Option (List (CandidateType σ))} {value : Value} (hgiven : given value)
    {operand : WireValue} (hoperand : scope.operand path types value = .ok operand) :
    stored operand := by
  cases types with
  | some types =>
      obtain ⟨form, hform, hoperand⟩ := Except.bind_eq_ok.mp hoperand
      cases form with
      | none => contradiction
      | some form => exact Except.ok.inj hoperand ▸ hcarries.encode hgiven hform
  | none =>
      obtain ⟨form, hform, hoperand⟩ := Except.bind_eq_ok.mp hoperand
      cases form with
      | none => contradiction
      | some form =>
          exact Except.ok.inj hoperand ▸ hcarries.natural? hgiven (Except.ok.inj hform)

theorem carries_test (hcarries : Carries given stored) {comparison : Comparison}
    (hgiven : ∀ operand ∈ comparison.operands, given operand) {test : Test}
    (htest : scope.test comparison = .ok test) : ∀ operand ∈ test.operands, stored operand := by
  simp only [Scope.test, Except.bind_eq_ok] at htest
  obtain ⟨target, -, operands, hoperands, htest⟩ := htest
  split at htest
  · obtain rfl := Except.pure_eq_ok.mp htest
    intro operand hoperand
    obtain ⟨value, hmember, hvalue⟩ :=
      exists_related_right (Except.mapM_eq_ok.mp hoperands) hoperand
    exact carries_operand hcarries (hgiven value hmember) hvalue
  · split at htest <;> simp at htest

theorem carries_compileCondition (hcarries : Carries given stored) {condition : Condition}
    (hgiven : condition.Asks given) {compiled : CompiledExpression}
    (hcompiled : scope.compileCondition condition = .ok compiled) :
    ∀ entry ∈ compiled.values, stored entry.2 := by
  obtain ⟨chain, hchain, hnumbered⟩ := numbered_of_compileCondition hcompiled
  intro entry hentry
  obtain ⟨place, hplace, hentry⟩ := hnumbered.mem_operands hentry
  cases chain with
  | none => simp at hplace
  | some chain =>
      obtain ⟨test, htest, hstands⟩ := List.mem_flatMap.mp hplace
      obtain ⟨comparison, hmember, hcomparison⟩ :=
        exists_comparison_of_chain? hchain chain rfl test htest
      exact carries_test hcarries (hgiven comparison hmember) hcomparison _
        (Test.mem_operands_of_mem_places hstands hentry)

end Scope

/-! ## Requests -/

namespace Request

/-- The value of a request has a property. -/
def Asks (given : Value → Prop) : Request → Prop
  | .set value | .add value | .delete value => given value
  | .remove _ => True

theorem asks_of_ofBucket (hfields : ∀ {fields : List (String × Value)}, given (.map fields) →
      ∀ field ∈ fields, given field.2) {bucket : String} {make : Value → Request}
    (hmake : ∀ value, given value → (make value).Asks given) {value : Value} (hgiven : given value)
    {requests : List (String × Request)} (hrequests : ofBucket bucket make value = .ok requests) :
    ∀ request ∈ requests, request.2.Asks given := by
  unfold ofBucket at hrequests
  split at hrequests
  · obtain rfl := Except.ok.inj hrequests
    intro request hrequest
    obtain ⟨field, hfield, rfl⟩ := List.mem_map.mp hrequest
    exact hmake field.2 (hfields hgiven field hfield)
  · contradiction

theorem asks_of_ofField (hcarries : Carries given stored) {key : String} {value : Value}
    (hgiven : given value) {requests : List (String × Request)}
    (hrequests : ofField key value = .ok requests) : ∀ request ∈ requests, request.2.Asks given := by
  have hbucket : ∀ {bucket : String} {make : Value → Request},
      ofBucket bucket make value = .ok requests → (∀ value, given value → (make value).Asks given) →
        ∀ request ∈ requests, request.2.Asks given :=
    fun hfound hmake => asks_of_ofBucket hcarries.fields hmake hgiven hfound
  unfold ofField at hrequests
  split_ifs at hrequests
  · exact hbucket hrequests fun _ hvalue => hvalue
  · exact hbucket hrequests fun _ hvalue => hvalue
  · exact hbucket hrequests fun _ hvalue => hvalue
  · obtain ⟨paths, -, hremoved⟩ := Except.bind_eq_ok.mp hrequests
    obtain rfl := Except.ok.inj hremoved
    intro request hrequest
    obtain ⟨path, -, rfl⟩ := List.mem_map.mp hrequest
    trivial
  · obtain rfl := Except.ok.inj hrequests
    exact List.forall_mem_singleton.mpr trivial
  · obtain rfl := Except.ok.inj hrequests
    exact List.forall_mem_singleton.mpr hgiven

theorem asks_of_ofDocument (hcarries : Carries given stored) {update : Document}
    (hgiven : ∀ entry ∈ update, given entry.2) {requests : List (String × Request)}
    (hrequests : ofDocument update = .ok requests) : ∀ request ∈ requests, request.2.Asks given := by
  obtain ⟨found, hfound, hflat⟩ := Except.bind_eq_ok.mp hrequests
  obtain rfl := Except.ok.inj hflat
  intro request hrequest
  obtain ⟨members, hmembers, hmember⟩ := List.mem_flatten.mp hrequest
  obtain ⟨entry, hentry, hfield⟩ := exists_related_right (Except.mapM_eq_ok.mp hfound) hmembers
  exact asks_of_ofField hcarries (hgiven entry hentry) hfield request hmember

end Request

/-! ## Changes -/

namespace Scope

variable {writing : Writing} {current update : Document}

theorem asks_of_requestedChanges (hcarries : Carries given stored)
    (hgiven : ∀ entry ∈ update, given entry.2) {requested : List (Change σ)}
    (hrequested : scope.requestedChanges update = .ok requested) :
    ∀ change ∈ requested, change.request.Asks given := by
  obtain ⟨requests, hrequests, hmade⟩ := exists_requests hrequested
  intro change hchange
  obtain ⟨request, hrequest, hmakes⟩ := exists_related_right hmade hchange
  rw [(of_change_request hmakes).2.1]
  exact Request.asks_of_ofDocument hcarries hgiven hrequests request hrequest

/-- The rounds modify values, and put defaults in the place of removed ones. -/
theorem asks_of_rounds (hsupplies : scope.Supplies given)
    (hcurrent : ∀ entry ∈ current, given entry.2) {asked change : Change σ}
    (hlookup : scope.lookup asked.path = .ok asked.target) (hasked : asked.request.Asks given)
    (hrounds : asked.Rounds writing current change) : change.request.Asks given := by
  have hfield : ∀ {field}, asked.target.topLevel? = some field → field.Supplies given :=
    fun htop => hsupplies scope.root ⟨scope, .root⟩ _ (mem_of_topLevel? hlookup htop)
  rcases hrounds.cases with ⟨value, other, hrequest, hmodified, rfl⟩ |
    ⟨field, value, other, -, htop, hdefault, hmodified, rfl⟩ | ⟨-, -, rfl⟩
  · rw [hrequest] at hasked
    unfold Change.ModifiesTo at hmodified
    split at hmodified
    · next field htop => exact (hfield htop).modified _ _ _ hasked hmodified
    · exact hmodified ▸ hasked
  · exact (hfield htop).modified _ _ _ ((hfield htop).default _ _ _ hcurrent hdefault) hmodified
  · exact hasked

theorem asks_of_forcedDefault? (hsupplies : scope.Supplies given)
    (hcurrent : ∀ entry ∈ current, given entry.2) {requested : List (Change σ)}
    {field : Attribute σ} (hfield : field ∈ scope.root.attributes) {change : Change σ}
    {before after : σ}
    (hrun : Yields (scope.forcedDefault? writing current requested field) before (some change)
      after) : change.request.Asks given := by
  unfold forcedDefault? at hrun
  split at hrun
  · cases (yields_pure.mp hrun).1
  · obtain ⟨value, between, hvalue, hrun⟩ := yields_bind.mp hrun
    cases value with
    | none => cases (yields_pure.mp hrun).1
    | some value =>
        obtain ⟨made, _, hmade, hrun⟩ := yields_bind.mp hrun
        obtain rfl := Option.some.inj (yields_pure.mp hrun).1
        obtain ⟨target, -, rfl⟩ := of_assign (yields_ofExcept.mp hmade).1
        exact (hsupplies scope.root ⟨scope, .root⟩ field hfield).default writing.now current value
          hcurrent ⟨field.name, before, between, hvalue⟩

theorem asks_of_updateTime? (hcarries : Carries given stored) {requested : List (Change σ)}
    {change : Change σ} (htime : scope.updateTime? writing requested = .ok (some change)) :
    change.request.Asks given := by
  unfold updateTime? at htime
  split at htime
  · cases htime
  · split at htime
    · cases htime
    · obtain ⟨made, hassign, hsome⟩ := Except.bind_eq_ok.mp htime
      obtain rfl := Option.some.inj (Except.ok.inj hsome)
      obtain ⟨target, -, rfl⟩ := of_assign hassign
      exact hcarries.givenDate writing.now

/-- The changes that an update asks for or implies are found where their paths lead, and have values
with the property. -/
theorem asks_of_yields_updateActions (hcarries : Carries given stored)
    (hsupplies : scope.Supplies given) (hcurrent : ∀ entry ∈ current, given entry.2)
    (hupdate : ∀ entry ∈ update, given entry.2) {before after : σ} {actions : List Action}
    (hrun : Yields (scope.updateActions writing current update) before actions after) :
    ∃ changes, List.Forall₂ (Change.Stores scope writing current) changes actions ∧
      ∀ change ∈ changes, scope.lookup change.path = .ok change.target ∧
        change.request.Asks given := by
  unfold updateActions at hrun
  obtain ⟨requested, _, hrequests, hrun⟩ := yields_bind.mp hrun
  obtain ⟨hrequested, rfl⟩ := yields_ofExcept.mp hrequests
  obtain ⟨restored, _, hrestored, hrun⟩ := yields_bind.mp hrun
  obtain ⟨prepared, _, hprepared, hrun⟩ := yields_bind.mp hrun
  obtain ⟨changes, _, hchanges, hactions⟩ := yields_bind.mp hrun
  have hrounds := Change.rounds_of_yields hrestored hprepared
  have hlookups : ∀ change ∈ changes, scope.lookup change.path = .ok change.target := by
    intro change hchange
    rcases derives_of_yields_allChanges hchanges change hchange with hmember | hderives
    · obtain ⟨asked, hasked, hround⟩ := exists_related_right hrounds hmember
      rw [hround.prepares.path_eq, hround.prepares.target_eq]
      exact (of_requestedChanges hrequested asked hasked).1
    · exact lookup_of_derives hderives
  have hasks : ∀ change ∈ changes, change.request.Asks given := by
    refine of_yields_allChanges hchanges (fun change hmember => ?_)
      (fun _ field hfield _ _ _ hstep => asks_of_forcedDefault? hsupplies hcurrent hfield hstep)
      (fun _ htime => asks_of_updateTime? hcarries htime) ?_
    · obtain ⟨asked, hasked, hround⟩ := exists_related_right hrounds hmember
      exact asks_of_rounds hsupplies hcurrent (of_requestedChanges hrequested asked hasked).1
        (asks_of_requestedChanges hcarries hupdate hrequested asked hasked) hround
    · rintro - field - target request - - (rfl | ⟨text, rfl⟩)
      · trivial
      · exact hcarries.givenString text
  exact ⟨changes, Yields.forall₂_mapM (fun _ _ first last haction => ⟨first, last, haction⟩)
    hactions, fun change hchange => ⟨hlookups change hchange, hasks change hchange⟩⟩

end Scope

/-! ## Actions -/

/-- What a value adds to a set or takes from it are its members, or the value itself. -/
theorem Carries.givenMembers (hcarries : Carries given stored) {value : Value}
    (hgiven : given value) : ∀ member ∈ value.members, given member := by
  unfold Value.members
  split
  · exact hcarries.members hgiven
  · exact hcarries.list_iff.mp hgiven
  · exact List.forall_mem_singleton.mpr hgiven

namespace Change

variable {change : Change σ} {value : Value} {writing : Writing}

theorem carries_addition (hcarries : Carries given stored) (hgiven : given value)
    {current : Document} {action : Action}
    (haction : change.addition scope current value = .ok action) :
    ∀ operand ∈ action.operand?, stored operand := by
  have hmember : ∀ (form : WireValue) {operand : WireValue}, operand ∈ some form → stored form →
      stored operand := by
    rintro form operand hoperand hform
    obtain rfl := Option.some.inj hoperand
    exact hform
  intro operand hoperand
  rcases addition_cases haction with ⟨-, hundeclared⟩ | ⟨types, -, ⟨x, rfl, -, rfl⟩ |
    ⟨element, form, -, hform, rfl⟩ | ⟨array, form, -, -, hform, rfl⟩⟩
  · obtain ⟨form, hform, rfl | rfl⟩ := addUndeclared?_cases hundeclared <;>
      exact hmember _ hoperand (hcarries.natural? hgiven hform)
  · exact hmember _ hoperand (hcarries.number hgiven)
  · exact hmember _ hoperand (hcarries.encodeSet (hcarries.givenMembers hgiven) hform)
  · refine hmember form ?_ (hcarries.encodeAs _
      (hcarries.list_iff.mpr (hcarries.givenMembers hgiven)) hform)
    split at hoperand <;> exact hoperand

theorem carries_deletion (hcarries : Carries given stored) (hgiven : given value) {action : Action}
    (haction : change.deletion scope value = .ok action) :
    ∀ operand ∈ action.operand?, stored operand := by
  obtain ⟨element, form, -, hform, rfl⟩ := deletion_cases haction
  intro operand hoperand
  obtain rfl := Option.some.inj hoperand
  exact hcarries.encodeSet (hcarries.givenMembers hgiven) hform

theorem carries_assignment (hcarries : Carries given stored) (hsupplies : scope.Supplies given)
    (hlookup : scope.lookup change.path = .ok change.target) (hgiven : given value)
    {before after : σ} {action : Action}
    (hrun : Yields (change.assignment scope writing value) before action after) :
    ∀ operand ∈ action.operand?, stored operand := by
  obtain ⟨form, hwrites, rfl⟩ := assignment_cases hrun
  intro operand hoperand
  cases form with
  | none => contradiction
  | some form =>
      obtain rfl := Option.some.inj hoperand
      unfold Writes at hwrites
      split at hwrites
      · next types htypes =>
          obtain ⟨_, _, hform⟩ := hwrites
          exact Value.carries_madeDraft hcarries hsupplies (writing.depth + 1) value hgiven _ _ _ _ _
            _ ⟨rfl, scope, .root⟩ (Scope.mentionsTypes_of_lookup hlookup htypes) hform
      · exact hcarries.natural? hgiven hwrites.symm

/-- The operand of an action has the property if the value that is asked for does. -/
theorem carries_action (hcarries : Carries given stored) (hsupplies : scope.Supplies given)
    (hlookup : scope.lookup change.path = .ok change.target) (hasks : change.request.Asks given)
    {current : Document} {action : Action} (hstores : change.Stores scope writing current action) :
    ∀ operand ∈ action.operand?, stored operand := by
  obtain ⟨before, after, hrun⟩ := hstores
  unfold Change.action at hrun
  split at hrun <;> rename_i hrequest
  · obtain rfl := (yields_pure.mp hrun).1
    intro operand hoperand
    contradiction
  all_goals rw [hrequest] at hasks
  · exact carries_assignment hcarries hsupplies hlookup hasks hrun
  · exact carries_addition hcarries hasks (yields_ofExcept.mp hrun).1
  · exact carries_deletion hcarries hasks (yields_ofExcept.mp hrun).1

end Change

/-- What an update adds, sets or deletes has the property, if the values of the update and of the
current document do. -/
theorem Scope.carries_compileUpdate (hcarries : Carries given stored)
    (hsupplies : scope.Supplies given) {writing : Writing} {current update : Document}
    (hcurrent : ∀ entry ∈ current, given entry.2) (hupdate : ∀ entry ∈ update, given entry.2)
    {before after : σ} {compiled : CompiledExpression}
    (hrun : Yields (scope.compileUpdate writing current update) before compiled after) :
    ∀ entry ∈ compiled.values, stored entry.2 := by
  obtain ⟨actions, _, hactions, hcompiled⟩ := yields_bind.mp hrun
  obtain rfl := (yields_pure.mp hcompiled).1
  obtain ⟨changes, hstores, hasks⟩ :=
    asks_of_yields_updateActions hcarries hsupplies hcurrent hupdate hactions
  intro entry hentry
  obtain ⟨action, haction, hoperand⟩ := Action.exists_of_mem_values hentry
  obtain ⟨change, hchange, hstore⟩ := exists_related_right hstores haction
  obtain ⟨hlookup, hrequest⟩ := hasks change hchange
  exact Change.carries_action hcarries hsupplies hlookup hrequest hstore entry.2 hoperand

end ItemMapper
