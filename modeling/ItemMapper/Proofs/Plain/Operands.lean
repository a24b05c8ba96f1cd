import ItemMapper.Mapper
import ItemMapper.Proofs.Plain.Assignments
import ItemMapper.Proofs.Plain.Paths
import ItemMapper.Proofs.Update.Keys

/-!
# Operands as they are stored

A condition can ask for the value at a path, and an update can set it.  Both look the path up, and
store the value that they are given as one of the types at its end (`Mapper.asks_iff`,
`Mapper.sets_iff`).  They do so in the outermost scope, though, wherever the path has led.

`Mapper.operand_eq_stored_iff` says when the operand is what a saved document holds at the path:
exactly if it makes no difference for the value that it is encoded in the outermost scope
(`Scope.EncodesAlike`).  It makes none as long as the path enters no reference, and none for a
value that is settled.
-/

namespace ItemMapper

variable {σ : Type}

open Pipeline

/-- A value is encoded in the outermost scope, at the place that a path names, as it is where the
path leads. -/
def Scope.EncodesAlike (start : Scope σ) (path : String) (scope : Scope σ) (place : Place)
    (types : List (CandidateType σ)) (value : Value) : Prop :=
  start.encode (.ofText path) types value = scope.encode place types value

namespace Frame.Leads

variable {start scope : Scope σ} {path : String} {place : Place} {types : List (CandidateType σ)}
  {value : Value}

/-- This is so if the path enters no reference, or if the value is settled. -/
theorem encodesAlike (hleads : start.frame.Leads (Dotted.split path) scope place types)
    (halike : place.outer = [] ∨ ∀ type ∈ types, value.Settled type) :
    start.EncodesAlike path scope place types value := by
  have hkeys : (Place.ofText path).keys = place.keys := hleads.keys_eq.symm
  rcases halike with houter | hsettled
  · obtain rfl : scope = start := (hleads.scope_eq houter).1
    obtain ⟨outer, inner⟩ := place
    obtain rfl : outer = [] := houter
    obtain rfl : Dotted.split path = inner := hkeys
    rfl
  · exact Scope.encode_of_settled (hleads.covers .root).1.registry.symm hkeys hsettled

end Frame.Leads

/-! ## Conditions -/

/-- A condition that compares one attribute with one value. -/
def Condition.equals (path : String) (value : Value) : Condition :=
  ⟨⟨[.comparison ⟨path, .equal, [value]⟩], []⟩, none, false, none⟩

theorem Condition.compare_equal (path : String) (value : Value) :
    (empty.on path).compare .equal [value] = .ok (equals path value) :=
  rfl

/-- A condition that tests one attribute against one value. -/
def Condition.single (path : String) (op : Operator) (value : Value) : Condition :=
  ⟨⟨[.comparison ⟨path, op, [value]⟩], []⟩, none, false, none⟩

/-- The types of an operand, given those of the attribute. -/
def Operator.operandTypes (op : Operator) (types : List (CandidateType σ)) :
    List (CandidateType σ) :=
  if op.isMembership then CandidateType.memberTypes types else types

namespace Scope

variable {scope : Scope σ} {path : String} {segments : List Segment}
  {types : List (CandidateType σ)} {last : Option (Attribute σ)} {op : Operator} {value : Value}

theorem operand_eq_ok {operand : WireValue} :
    scope.operand path (some types) value = .ok operand ↔
      scope.encode (.ofText path) types value = .ok (some operand) := by
  rw [Scope.operand, Except.bind_eq_ok]
  constructor
  · rintro ⟨stored, hstored, hoperand⟩
    cases stored with
    | none => simp at hoperand
    | some stored =>
        obtain rfl := Except.ok.inj hoperand
        exact hstored
  · exact fun hencode => ⟨some operand, hencode, rfl⟩

theorem test_single_eq_ok (hlookup : scope.lookup path = .ok ⟨segments, some types, last⟩)
    (hop : op.takes 1 = true) {test : Test} : scope.test ⟨path, op, [value]⟩ = .ok test ↔
      ∃ operand, scope.encode (.ofText path) (op.operandTypes types) value = .ok (some operand) ∧
        test = ⟨segments, op, [operand]⟩ := by
  have htypes : (if op.isMembership then (some types).map CandidateType.memberTypes
      else some types) = some (op.operandTypes types) := by
    rw [Operator.operandTypes]
    split <;> rfl
  simp only [Scope.test, hlookup, Except.bind_eq_ok, Except.ok.injEq, exists_eq_left', htypes,
    ← operand_eq_ok, Except.mapM_eq_ok]
  constructor
  · rintro ⟨operands, hoperands, htest⟩
    obtain ⟨operand, _, hoperand, hrest, rfl⟩ := List.forall₂_cons_left_iff.mp hoperands
    obtain rfl := List.forall₂_nil_left_iff.mp hrest
    rw [List.length_singleton, if_pos hop] at htest
    exact ⟨operand, hoperand, (Except.ok.inj htest).symm⟩
  · rintro ⟨operand, hoperand, rfl⟩
    refine ⟨[operand], .cons hoperand .nil, ?_⟩
    rw [List.length_singleton, if_pos hop]
    simp only [Except.pure_eq_ok]

/-- A condition with a single comparison is compiled to its test. -/
theorem compileCondition_comparison_eq_ok {comparison : Comparison}
    {compiled : CompiledExpression} :
    scope.compileCondition ⟨⟨[.comparison comparison], []⟩, none, false, none⟩ = .ok compiled ↔
      ∃ test, scope.test comparison = .ok test ∧ compiled = .ofPieces test.pieces := by
  simp only [compileCondition, chain?, predicates, predicate?]
  cases scope.test comparison with
  | error cause =>
      show Except.error cause = .ok compiled ↔ _
      simp
  | ok test =>
      show Except.ok (CompiledExpression.ofPieces (test.pieces ++ [])) = .ok compiled ↔ _
      simp [eq_comm]

theorem compileCondition_single_eq_ok {compiled : CompiledExpression} :
    scope.compileCondition (.single path op value) = .ok compiled ↔
      ∃ test, scope.test ⟨path, op, [value]⟩ = .ok test ∧ compiled = .ofPieces test.pieces :=
  compileCondition_comparison_eq_ok

end Scope

/-- The operand of a test can be read off from its text. -/
theorem Test.operand_inj {path : List Segment} {op : Operator} (hop : op.takes 1 = true)
    {first second : WireValue}
    (hsame : CompiledExpression.ofPieces (Test.pieces ⟨path, op, [first]⟩) =
      .ofPieces (Test.pieces ⟨path, op, [second]⟩)) : first = second := by
  have hvalues := congrArg CompiledExpression.values hsame
  cases op with
  | present | absent | between => cases hop
  | _ =>
      simpa [CompiledExpression.ofPieces, pieces, infixed, call, numberedValues, memberValues]
        using hvalues

/-- A test of one attribute against one value has as operand what the value is encoded as in the
outermost scope. -/
theorem Mapper.condition_single_iff {mapper : Mapper σ} {path : String} {segments : List Segment}
    {types : List (CandidateType σ)} {last : Option (Attribute σ)} {op : Operator} {value : Value}
    {operand : WireValue} (hlookup : mapper.scope.lookup path = .ok ⟨segments, some types, last⟩)
    (hop : op.takes 1 = true) :
    mapper.condition (.single path op value) =
        .ok (.ofPieces (Test.pieces ⟨segments, op, [operand]⟩)) ↔
      mapper.scope.encode (.ofText path) (op.operandTypes types) value = .ok (some operand) := by
  simp only [condition, Scope.compileCondition_single_eq_ok, Scope.test_single_eq_ok hlookup hop]
  constructor
  · rintro ⟨_, ⟨other, hother, rfl⟩, hsame⟩
    exact Test.operand_inj hop hsame ▸ hother
  · exact fun hencode => ⟨_, ⟨operand, hencode, rfl⟩, rfl⟩

namespace Mapper

variable {mapper : Mapper σ}

/-- A condition on a path asks for this operand. -/
def Asks (mapper : Mapper σ) (path : String) (value : Value) (segments : List Segment)
    (operand : WireValue) : Prop :=
  ∃ condition, (Condition.empty.on path).compare .equal [value] = .ok condition ∧
    mapper.condition condition = .ok (.ofPieces (Test.pieces ⟨segments, .equal, [operand]⟩))

/-- An update of a path sets this operand. -/
def Sets (mapper : Mapper σ) (path : String) (value : Value) (segments : List Segment)
    (operand : WireValue) : Prop :=
  ∀ now depth current state, Yields (mapper.update ⟨.plain, now, depth⟩ current [(path, value)])
    state (.ofPieces (Action.updatePieces [.set segments operand])) state

/-- A condition asks for what its value is encoded as in the outermost scope. -/
theorem asks_iff {path : String} {segments : List Segment} {types : List (CandidateType σ)}
    {last : Option (Attribute σ)} {value : Value} {operand : WireValue}
    (hlookup : mapper.scope.lookup path = .ok ⟨segments, some types, last⟩) :
    mapper.Asks path value segments operand ↔
      mapper.scope.encode (.ofText path) types value = .ok (some operand) := by
  simp only [Asks, Condition.compare_equal, Except.ok.injEq, exists_eq_left']
  exact condition_single_iff hlookup rfl

end Mapper

/-! ## Updates -/

/-- A field of an update whose key is dotted is no bucket. -/
theorem Request.not_startsWith_of_ofField {path : String} {value : Value}
    {requests : List (String × Request)} (hnested : 2 ≤ (Dotted.split path).length)
    (hrequests : ofField path value = .ok requests) : path.startsWith "$" = false := by
  have hbucket : ∀ bucket : String, (Dotted.split bucket).length = 1 → path ≠ bucket := by
    rintro bucket hbucket rfl
    omega
  simp only [ofField, hbucket "$SET" (by decide), hbucket "$ADD" (by decide),
    hbucket "$DELETE" (by decide), hbucket "$REMOVE" (by decide), if_false]
    at hrequests
  cases hdollar : path.startsWith "$" with
  | false => rfl
  | true =>
      rw [hdollar] at hrequests
      cases hrequests

theorem Request.not_startsWith_of_ofDocument {path : String} {value : Value}
    {requests : List (String × Request)} (hnested : 2 ≤ (Dotted.split path).length)
    (hrequests : ofDocument [(path, value)] = .ok requests) : path.startsWith "$" = false := by
  rw [ofDocument, Except.bind_eq_ok] at hrequests
  obtain ⟨parts, hparts, -⟩ := hrequests
  obtain ⟨part, _, hpart, -, -⟩ := List.forall₂_cons_left_iff.mp (Except.mapM_eq_ok.mp hparts)
  exact not_startsWith_of_ofField hnested hpart

theorem Action.updatePieces_set (path : List Segment) (operand : WireValue) :
    updatePieces [.set path operand] =
      [.text "SET ", .path path, .text " = ", .operand operand] :=
  rfl

/-- The operand of a single assignment can be read off from its text. -/
theorem Action.ofStored_eq_set {path : List Segment} {stored : Option WireValue}
    {operand : WireValue}
    (hsame : CompiledExpression.ofPieces (updatePieces [.ofStored path stored]) =
      .ofPieces (updatePieces [.set path operand])) : stored = some operand := by
  have hvalues := congrArg CompiledExpression.values hsame
  cases stored with
  | none =>
      have hremove : updatePieces [.ofStored path none] = [.text "REMOVE ", .path path] := rfl
      simp [hremove, updatePieces_set, CompiledExpression.ofPieces, numberedValues] at hvalues
  | some other =>
      have hset : updatePieces [.ofStored path (some other)] = updatePieces [.set path other] := rfl
      simpa [hset, updatePieces_set, CompiledExpression.ofPieces, numberedValues] using hvalues

namespace Mapper

variable {mapper : Mapper σ} {path : String} {segments : List Segment}
  {types : List (CandidateType σ)} {last : Option (Attribute σ)} {value : Value}

/-- With the plain options an update that makes a single request, and not for a default, is a single
action. -/
theorem yields_update_single {now : Instant} {depth : Nat} {current update : Document}
    {request : Request} (hrequests : Request.ofDocument update = .ok [(path, request)])
    (hkept : ∀ change : Change σ, change.request = request →
      change.restoreDefault ⟨.plain, now, depth⟩ current = pure change)
    {before after : σ} {compiled : CompiledExpression} :
    Yields (mapper.update ⟨.plain, now, depth⟩ current update) before compiled after ↔
      ∃ change action, mapper.scope.change path request = .ok change ∧
        Yields (change.action mapper.scope ⟨.plain, now, depth⟩ current) before action after ∧
          compiled = .ofPieces (Action.updatePieces [action]) := by
  have hrequested : ∀ requested, mapper.scope.requestedChanges update = .ok requested ↔
      ∃ change, mapper.scope.change path request = .ok change ∧ requested = [change] := by
    intro requested
    have hall : [(path, request)].mapM (fun entry => mapper.scope.change entry.1 entry.2) =
        .ok requested ↔ _ := Except.mapM_eq_ok
    rw [Scope.requestedChanges, hrequests]
    refine hall.trans ?_
    simp [List.forall₂_cons_left_iff]
  have hactions : ∀ {change actions}, mapper.scope.change path request = .ok change →
      (Yields (mapper.scope.updateActions ⟨.plain, now, depth⟩ current update) before actions after ↔
        ∃ action, Yields (change.action mapper.scope ⟨.plain, now, depth⟩ current) before action
          after ∧ actions = [action]) := by
    intro change actions hchange
    refine (Scope.yields_updateActions_of_requested (.outermost now depth)
      ((hrequested _).mpr ⟨change, hchange, rfl⟩) fun other hother => ?_).trans ?_
    · obtain rfl := List.mem_singleton.mp hother
      exact hkept other (Scope.of_change_request hchange).2.1
    · simp only [yields_mapM_cons, yields_mapM_nil]
      constructor
      · rintro ⟨action, _, _, haction, ⟨rfl, rfl⟩, rfl⟩
        exact ⟨action, haction, rfl⟩
      · rintro ⟨action, haction, rfl⟩
        exact ⟨action, after, [], haction, ⟨rfl, rfl⟩, rfl⟩
  constructor
  · intro hrun
    obtain ⟨actions, hran, rfl⟩ := actions_of_yields_update hrun
    obtain ⟨requested, _, hstart, -⟩ := yields_bind.mp hran
    obtain ⟨change, hchange, -⟩ := (hrequested _).mp (yields_ofExcept.mp hstart).1
    obtain ⟨action, haction, rfl⟩ := (hactions hchange).mp hran
    exact ⟨change, action, hchange, haction, rfl⟩
  · rintro ⟨change, action, hchange, haction, rfl⟩
    exact ((hactions hchange).mpr ⟨action, haction, rfl⟩).bind yields_pure_self

/-- A single field of a flattened update assigns what its value is stored as. -/
theorem yields_update_flat {now : Instant} {depth : Nat} {current : Document} {before after : σ}
    {compiled : CompiledExpression} (hflat : path.startsWith "$" = false) :
    Yields (mapper.update ⟨.plain, now, depth⟩ current [(path, value)]) before compiled after ↔
      before = after ∧ ∃ change stored, mapper.scope.change path (.ofValue value) = .ok change ∧
        mapper.scope.AssignsAs path change.target.types value stored ∧
          compiled = .ofPieces (Action.updatePieces [.ofStored change.target.segments stored]) := by
  have hrequests : Request.ofDocument [(path, value)] = .ok [(path, .ofValue value)] :=
    Request.ofDocument_of_flat (by simpa using hflat)
  refine (yields_update_single hrequests fun change hrequest =>
    change.restoreDefault_plain (.outermost now depth) current hrequest).trans ?_
  constructor
  · rintro ⟨change, action, hchange, haction, rfl⟩
    obtain ⟨hpath, hrequest, -⟩ := Scope.of_change_request hchange
    obtain ⟨rfl, stored, rfl, hstored⟩ := (Change.yields_action_plain hrequest).mp haction
    exact ⟨rfl, change, stored, hchange, hpath ▸ hstored, rfl⟩
  · rintro ⟨rfl, change, stored, hchange, hstored, rfl⟩
    obtain ⟨hpath, hrequest, -⟩ := Scope.of_change_request hchange
    exact ⟨change, _, hchange, (Change.yields_action_plain hrequest).mpr
      ⟨rfl, stored, rfl, hpath ▸ hstored⟩, rfl⟩

/-- An update of a path inside of an attribute is a single assignment. -/
theorem yields_update_nested {now : Instant} {depth : Nat} {current : Document}
    {before after : σ} {compiled : CompiledExpression} (hflat : path.startsWith "$" = false)
    (hlookup : mapper.scope.lookup path = .ok ⟨segments, some types, last⟩)
    (hnested : 2 ≤ segments.length) :
    Yields (mapper.update ⟨.plain, now, depth⟩ current [(path, value)]) before compiled after ↔
      before = after ∧ ∃ stored, value.ConvertsTo mapper.scope (.ofText path) types stored ∧
        compiled = .ofPieces (Action.updatePieces [.ofStored segments stored]) := by
  have hchange : ∀ change, mapper.scope.change path (.ofValue value) = .ok change ↔
      ⟨path, ⟨segments, some types, last⟩, .ofValue value⟩ = change := by
    intro change
    have hinside : ResolvedPath.topLevel? (σ := σ) ⟨segments, some types, last⟩ = none := by
      have hlength : segments.length ≠ 1 := by omega
      simp [ResolvedPath.topLevel?, ResolvedPath.isTopLevel, hlength]
    rw [Scope.change, hlookup, Except.bind_eq_ok]
    simp only [Except.ok.injEq, exists_eq_left', hinside, Except.pure_eq_ok]
  simp only [yields_update_flat hflat, hchange, exists_and_left, exists_eq_left', Scope.AssignsAs]

/-- An update sets what its value is converted to in the outermost scope. -/
theorem sets_iff (before : σ)
    (hlookup : mapper.scope.lookup path = .ok ⟨segments, some types, last⟩)
    (hnested : 2 ≤ segments.length) (hpath : 2 ≤ (Dotted.split path).length) {operand : WireValue} :
    mapper.Sets path value segments operand ↔ path.startsWith "$" = false ∧
      value.ConvertsTo mapper.scope (.ofText path) types (some operand) := by
  constructor
  · intro hsets
    -- one run is enough, since what is assigned does not depend on the setting
    have hrun := hsets .epoch 0 [] before
    have hflat : path.startsWith "$" = false := by
      obtain ⟨actions, hactions, -⟩ := actions_of_yields_update hrun
      obtain ⟨requested, _, hstart, -⟩ := yields_bind.mp hactions
      obtain ⟨hrequested, -⟩ := yields_ofExcept.mp hstart
      obtain ⟨requests, hrequests, -⟩ := Scope.exists_requests hrequested
      exact Request.not_startsWith_of_ofDocument hpath hrequests
    obtain ⟨-, stored, hstored, hsame⟩ := (yields_update_nested hflat hlookup hnested).mp hrun
    obtain rfl := Action.ofStored_eq_set hsame.symm
    exact ⟨hflat, hstored⟩
  · rintro ⟨hflat, hstored⟩ now depth current state
    exact (yields_update_nested hflat hlookup hnested).mpr ⟨rfl, some operand, hstored, rfl⟩

end Mapper

/-! ## What is stored at the path -/

/-- A document is saved as an item under the plain options, and a path of declared attributes leads
to a value in the document and to a stored value in the item. -/
structure Mapper.StoresAt (mapper : Mapper σ) (document : Document) (item : Item) (path : String)
    (scope : Scope σ) (place : Place) (types : List (CandidateType σ)) (value : Value)
    (stored : WireValue) : Prop where
  wellFormed : (Value.map document).WellFormed
  saved : ∃ now depth before after,
    Yields (mapper.write ⟨.plain, now, depth⟩ document) before item after
  leads : mapper.scope.frame.Leads (Dotted.split path) scope place types
  given : (Value.map document).descend? (Dotted.split path) = some value
  kept : (WireValue.map item).descend? (Dotted.split path) = some stored

/-- What is stored at a path is what the value there is encoded as in the scope, and at the place,
where the path leads.  A condition on the path asks for exactly this operand, and an update sets it,
if the value is encoded alike in the outermost scope; the update moreover needs a path that is no
name of a bucket. -/
theorem Mapper.operand_eq_stored_iff {mapper : Mapper σ} (hnavigable : mapper.scope.Navigable)
    {document : Document} {item : Item} {path : String} {scope : Scope σ} {place : Place}
    {types : List (CandidateType σ)} {value : Value} {stored : WireValue}
    (hstores : mapper.StoresAt document item path scope place types value stored) :
    scope.encode place types value = .ok (some stored) ∧
      (mapper.Asks path value ((Dotted.split path).map .name) stored ↔
        mapper.scope.EncodesAlike path scope place types value) ∧
      (2 ≤ (Dotted.split path).length →
        (mapper.Sets path value ((Dotted.split path).map .name) stored ↔
          path.startsWith "$" = false ∧
            mapper.scope.EncodesAlike path scope place types value)) ∧
      (place.outer = [] ∨ (∀ type ∈ types, value.Settled type) →
        mapper.scope.EncodesAlike path scope place types value) := by
  obtain ⟨hformed, ⟨now, depth, before, after, hitem⟩, hleads, hvalue, hstored⟩ := hstores
  have hconverts : mapper.scope.frame.ConvertsTo document item :=
    (Frame.convertsTo_of_yields (.outermost now depth) hitem).2
  obtain ⟨field, hlookup⟩ := hleads.lookup hnavigable
  obtain ⟨hformedValue, -⟩ :=
    hleads.convertsTo hnavigable before .root hformed hconverts hvalue hstored
  obtain ⟨hcovers, htypes⟩ := hleads.covers .root
  have hencode := hleads.encode hnavigable before .root hformed hconverts hvalue hstored
  have halike : mapper.scope.EncodesAlike path scope place types value ↔
      mapper.scope.encode (.ofText path) types value = .ok (some stored) := by
    rw [Scope.EncodesAlike, hencode]
  refine ⟨hencode, ?_, fun hnested => ?_, hleads.encodesAlike⟩
  · rw [asks_iff hlookup, halike]
  · have houtermost : mapper.scope.Covers mapper.scope :=
      ((Scope.closed_covers mapper.scope).of_reaches .root).2
    rw [sets_iff before hlookup (by simpa using hnested) hnested, halike,
      Value.convertsTo_iff_encode hnavigable.toUnaliased before value hformedValue houtermost
        htypes]

/-! ## Orders of customers -/

/-- A customer may have been referred by another one. -/
def SchemaOf.customer : Schema Unit where
  attributes := [.plain "id" [.primitive .string], .plain "name" [.primitive .string],
    .plain "referrer" [.self]]
  keepUnknown := .disabled
  timestamps := none

/-- An order holds its customer. -/
def SchemaOf.order : Schema Unit where
  attributes := [.plain "id" [.primitive .string], .plain "customer" [.model "Customer"]]
  keepUnknown := .disabled
  timestamps := none

theorem SchemaOf.build_customer : build customer.attributes .disabled none = .ok customer :=
  rfl

theorem SchemaOf.build_order : build order.attributes .disabled none = .ok order :=
  rfl

/-- The mapper for orders, in a registry that knows customers too. -/
def Mapper.orders : Mapper Unit :=
  ⟨⟨[⟨"Customer", .customer, none⟩, ⟨"Order", .order, none⟩]⟩, ⟨"Order", .order, none⟩⟩

/-- The scope of customers that are met in an order. -/
def Scope.ofCustomers : Scope Unit :=
  ⟨Mapper.orders.registry, .customer⟩

theorem Scope.closed_orders : Mapper.orders.scope.Closed
    (fun scope schema => scope = Mapper.orders.scope ∧ schema = .order ∨
      scope = ofCustomers ∧ schema = .customer)
    (fun scope type =>
      scope = Mapper.orders.scope ∧ type ∈ [.primitive .string, .model "Customer"] ∨
        scope = ofCustomers ∧ type ∈ [.primitive .string, .self]) where
  root := .inl ⟨rfl, rfl⟩
  inside := by
    rintro scope type inner schema (⟨rfl, htype⟩ | ⟨rfl, htype⟩) hopens
    · cases hopens with
      | object => simp at htype
      | self => simp at htype
      | model hmodel =>
          obtain rfl := by simpa using htype
          obtain rfl := Option.some.inj hmodel
          exact .inr ⟨rfl, rfl⟩
    · cases hopens with
      | object => simp at htype
      | self => exact .inr ⟨rfl, rfl⟩
      | model => simp at htype
  field := by
    rintro scope schema (⟨rfl, rfl⟩ | ⟨rfl, rfl⟩) field hfield type htype
    · refine .inl ⟨rfl, ?_⟩
      simp only [SchemaOf.order, List.mem_cons, List.not_mem_nil, or_false] at hfield
      rcases hfield with rfl | rfl <;> simp_all [AttributeOf.plain]
    · refine .inr ⟨rfl, ?_⟩
      simp only [SchemaOf.customer, List.mem_cons, List.not_mem_nil, or_false] at hfield
      rcases hfield with rfl | rfl | rfl <;> simp_all [AttributeOf.plain]
  element := by
    rintro scope elements (⟨rfl, harray⟩ | ⟨rfl, harray⟩) <;> simp at harray

theorem Scope.schema_of_orders {scope : Scope Unit} {schema : Schema Unit}
    (hreaches : Mapper.orders.scope.Reaches scope schema) : schema = .order ∨ schema = .customer :=
  (closed_orders.of_reaches hreaches).imp And.right And.right

theorem Mapper.navigable_orders : orders.scope.Navigable where
  wellFormed := by
    intro scope schema hreaches
    rcases Scope.schema_of_orders hreaches with rfl | rfl
    · exact SchemaOf.wellFormed_of_build SchemaOf.build_order
    · exact SchemaOf.wellFormed_of_build SchemaOf.build_customer
  noAlias := by
    intro scope schema hreaches
    rcases Scope.schema_of_orders hreaches with rfl | rfl <;> decide
  oneType := by
    intro scope schema hreaches
    rcases Scope.schema_of_orders hreaches with rfl | rfl
    · simp [SchemaOf.order, AttributeOf.plain]
    · simp [SchemaOf.customer, AttributeOf.plain]
  noPosition := by
    intro scope schema hreaches
    rcases Scope.schema_of_orders hreaches with rfl | rfl <;> decide

/-- An order of a customer who was referred by another one. -/
def Document.order : Document :=
  [("customer", .map [("id", .string "c"), ("name", .string "n"),
      ("referrer", .map [("name", .string "m")])]),
    ("id", .string "o")]

/-- The item of the order. -/
def Item.order : Item :=
  [("customer", .map [("id", .string "c"), ("name", .string "n"),
      ("referrer", .map [("name", .string "m")])]),
    ("id", .string "o")]

/-- What the order holds of its customer. -/
theorem Mapper.storesAt_order {path key : String} {field : Attribute Unit} {value : Value}
    {stored : WireValue} (hpath : Dotted.split path = ["customer", key])
    (hfield : SchemaOf.customer.attribute? key = some field)
    (hgiven : (Value.map Document.order).descend? ["customer", key] = some value)
    (hkept : (WireValue.map Item.order).descend? ["customer", key] = some stored) :
    orders.StoresAt Document.order Item.order path .ofCustomers ⟨["customer"], [key]⟩ field.types
      value stored where
  wellFormed := by
    refine ⟨by decide, ⟨by decide, ?_⟩, ?_⟩ <;>
      simp [Value.FieldsWellFormed, Value.WellFormed, Fields.Sorted]
  saved := ⟨.epoch, 0, (), (), yields_of_value? (by decide +kernel)⟩
  leads := by
    have hcustomer : SchemaOf.order.attribute? "customer" =
        some (.plain "customer" [.model "Customer"]) := rfl
    rw [hpath]
    exact .inside hcustomer (List.mem_singleton.mpr rfl) rfl (.last hfield)
  given := by rw [hpath, hgiven]
  kept := by rw [hpath, hkept]

/-- The customer by whom the customer was referred can neither be asked for nor be set: in the
scope of orders this would have to be an order. -/
theorem Mapper.operand_not_stored_orders :
    orders.scope.Navigable ∧
      orders.StoresAt Document.order Item.order "customer.referrer" .ofCustomers
        ⟨["customer"], ["referrer"]⟩ [.self] (.map [("name", .string "m")])
        (.map [("name", .string "m")]) ∧
      ¬ orders.Asks "customer.referrer" (.map [("name", .string "m")])
        [.name "customer", .name "referrer"] (.map [("name", .string "m")]) ∧
      ¬ orders.Sets "customer.referrer" (.map [("name", .string "m")])
        [.name "customer", .name "referrer"] (.map [("name", .string "m")]) := by
  have hpath : Dotted.split "customer.referrer" = ["customer", "referrer"] := by decide
  refine ⟨navigable_orders, storesAt_order hpath rfl rfl rfl, ?_, ?_⟩
  · rintro ⟨condition, hcondition, hcompiled⟩
    obtain rfl := Except.ok.inj hcondition
    have hfails : (orders.condition (.equals "customer.referrer"
        (.map [("name", .string "m")]))).toOption = none := by decide +kernel
    exact Option.some_ne_none _ ((Except.toOption_eq_some.mpr hcompiled).symm.trans hfails)
  · intro hsets
    have hfails : (orders.update ⟨.plain, .epoch, 0⟩ []
        [("customer.referrer", .map [("name", .string "m")])]).value? = none := by decide +kernel
    exact Option.some_ne_none _ ((hsets .epoch 0 [] ()).value?_eq.symm.trans hfails)

/-- The name of the customer is a text in either scope. -/
theorem Mapper.operand_eq_stored_orders :
    orders.Asks "customer.name" (.string "n") [.name "customer", .name "name"] (.string "n") ∧
      orders.Sets "customer.name" (.string "n") [.name "customer", .name "name"]
        (.string "n") := by
  have hpath : Dotted.split "customer.name" = ["customer", "name"] := by decide
  obtain ⟨-, hasks, hsets, halike⟩ :=
    operand_eq_stored_iff navigable_orders (storesAt_order hpath rfl rfl rfl)
  rw [hpath] at hasks hsets
  have hsame := halike (.inr (by simp [AttributeOf.plain, Value.Settled]))
  exact ⟨hasks.mpr hsame, (hsets (by decide)).mpr ⟨by simp, hsame⟩⟩

end ItemMapper
