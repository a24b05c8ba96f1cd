import ItemMapper.Proofs.Expression.Lexeme
import ItemMapper.Proofs.Plain.Operands
import ItemMapper.Proofs.Spelling.Changes
import ItemMapper.Proofs.Update.Fitting

/-!
# Lists that are assigned and lists that are added

An update can assign a list to an attribute, or add its items to what is stored there.  An assignment
is written: the value takes the type that it fits best.  An addition looks for a set and then for a
list among the types, and encodes the items as the first one that there is.

`Mapper.appends_as_assigned` says when the same list is appended as would be assigned: exactly if there
is no set, and the first list type encodes the items to it.  This is the type that the assignment takes
if the items fit no other type better, and encoding agrees with writing unless a document among the
items names an attribute by its alias.
-/

namespace ItemMapper

variable {σ : Type}

open Pipeline

/-! ## Additions alone -/

theorem Request.ofDocument_added (path : String) (value : Value) :
    ofDocument [("$ADD", .map [(path, value)])] = .ok [(path, .add value)] := by
  simp [ofDocument, ofField, ofBucket]

/-- Whether something may be changed does not depend on what is requested. -/
theorem Scope.change_request {scope : Scope σ} {path : String} {request : Request}
    {change : Change σ} (hchange : scope.change path request = .ok change) (other : Request) :
    scope.change path other = .ok { change with request := other } := by
  rw [Scope.change, Except.bind_eq_ok] at hchange ⊢
  obtain ⟨target, hlookup, hchange⟩ := hchange
  refine ⟨target, hlookup, ?_⟩
  split at hchange
  · split at hchange
    · simp at hchange
    · next hkey =>
        obtain rfl := Except.ok.inj hchange
        rw [if_neg hkey]
        rfl
  · obtain rfl := Except.ok.inj hchange
    rfl

/-- With the plain options an addition is a single action. -/
theorem Mapper.yields_update_added {mapper : Mapper σ} {path : String} {value : Value}
    {change : Change σ} (hchange : mapper.scope.change path (.add value) = .ok change)
    {now : Instant} {depth : Nat} {current : Document} {before after : σ}
    {compiled : CompiledExpression} :
    Yields (mapper.update ⟨.plain, now, depth⟩ current [("$ADD", .map [(path, value)])])
        before compiled after ↔
      before = after ∧ ∃ action, change.addition mapper.scope current value = .ok action ∧
        compiled = .ofPieces (Action.updatePieces [action]) := by
  have hkept : ∀ other : Change σ, other.request = .add value →
      other.restoreDefault ⟨.plain, now, depth⟩ current = pure other := by
    intro other hrequest
    simp [Change.restoreDefault, hrequest]
  rw [yields_update_single (Request.ofDocument_added path value) hkept]
  have hrequest : change.request = .add value := (Scope.of_change_request hchange).2.1
  simp only [hchange, Except.ok.injEq, exists_and_left, exists_eq_left', Change.action, hrequest,
    yields_ofExcept]
  constructor
  · rintro ⟨action, ⟨hadd, rfl⟩, rfl⟩
    exact ⟨rfl, action, hadd, rfl⟩
  · rintro ⟨rfl, action, hadd, rfl⟩
    exact ⟨action, ⟨hadd, rfl⟩, rfl⟩

/-! ### Appending actions -/

namespace Action

variable {path : List Segment} {operand other : WireValue}

theorem updatePieces_append (path : List Segment) (operand : WireValue) :
    updatePieces [.append path operand] =
      [.text "SET ", .path path, .text " = list_append(", .path path, .text ", ", .operand operand,
        .text ")"] :=
  rfl

/-- The operand of a single appending action can be read off from its text. -/
theorem append_inj (hsame : CompiledExpression.ofPieces (updatePieces [.append path other]) =
    .ofPieces (updatePieces [.append path operand])) : other = operand := by
  have hvalues := congrArg CompiledExpression.values hsame
  simpa [updatePieces_append, CompiledExpression.ofPieces, numberedValues] using hvalues

/-- A set that gains members is told from a list that is appended to by the first letter. -/
theorem add_ne_append : CompiledExpression.ofPieces (updatePieces [.add path other]) ≠
    .ofPieces (updatePieces [.append path operand]) := by
  intro hsame
  have htext : ∀ (content : String) (rest : List Piece),
      (CompiledExpression.ofPieces (.text content :: rest)).expression.toList =
        content.toList ++ Token.chars (Token.ofPieces
          (numberedPaths (.text content :: rest)) 0 rest) := by
    intro content rest
    rw [CompiledExpression.ofPieces, Token.toList_join_render]
    rfl
  have hadd : updatePieces [.add path other] =
      [.text "ADD ", .path path, .text " ", .operand other] := rfl
  have hfirst := congrArg (fun compiled => compiled.expression.toList.head?) hsame
  simp [hadd, updatePieces_append, htext] at hfirst

end Action

namespace Change

variable {scope : Scope σ} {change : Change σ} {types : List (CandidateType σ)} {items : List Value}

/-- A list is appended if there is no set among the types but a list, and the items are encoded as the
first one. -/
theorem addition_eq_append_iff (htypes : change.target.types = some types) {operand : WireValue} :
    change.addition scope [] (.list items) = .ok (.append change.target.segments operand) ↔
      CandidateType.firstSetElement? types = none ∧ ∃ array,
        CandidateType.firstArray? types = some array ∧
          (Value.list items).encodeAs ⟨scope, .ofText change.path, array⟩ = .ok (some operand) := by
  constructor
  · intro hadd
    obtain ⟨hnone, -⟩ | ⟨others, hothers, hcases⟩ := addition_cases hadd
    · rw [htypes] at hnone
      cases hnone
    · obtain rfl := Option.some.inj (htypes.symm.trans hothers)
      obtain ⟨_, hnumber, -⟩ | ⟨_, _, -, -, hother⟩ | ⟨array, other, hset, harray, hencode, haction⟩ :=
        hcases
      · cases hnumber
      · cases hother
      · obtain rfl : operand = other := by simpa [Document.lacksItems] using haction
        exact ⟨hset, array, harray, hencode⟩
  · rintro ⟨hset, array, harray, hencode⟩
    simp only [addition, htypes, hset, harray, Value.members]
    rw [hencode]
    -- a list is no number, so the numbers among the types make no difference
    cases CandidateType.hasNumber types <;> rfl

end Change

/-! ## The same list -/

namespace Mapper

variable {mapper : Mapper σ} {path : String} {items : List Value} {segments : List Segment}
  {types : List (CandidateType σ)} {last : Option (Attribute σ)} {storeds : List WireValue}

/-- An update under the plain options, of an item whose document is not known, assigns some items to a
path, and these are stored as a list. -/
structure AssignsList (mapper : Mapper σ) (path : String) (items : List Value)
    (segments : List Segment) (storeds : List WireValue) : Prop where
  wellFormed : (Value.list items).WellFormed
  flat : path.startsWith "$" = false
  assigned : ∃ now depth before after,
    Yields (mapper.update ⟨.plain, now, depth⟩ [] [(path, .list items)]) before
      (.ofPieces (Action.updatePieces [.set segments (.list storeds)])) after

/-- An update under the plain options, of an item whose document is not known, adds some items to a
path, and appends this operand there. -/
def Appends (mapper : Mapper σ) (path : String) (items : List Value) (segments : List Segment)
    (operand : WireValue) : Prop :=
  ∀ now depth state,
    Yields (mapper.update ⟨.plain, now, depth⟩ [] [("$ADD", .map [(path, .list items)])]) state
      (.ofPieces (Action.updatePieces [.append segments operand])) state

/-- What is assigned is what the items are converted to. -/
theorem AssignsList.convertsTo (hassigns : mapper.AssignsList path items segments storeds)
    (hlookup : mapper.scope.lookup path = .ok ⟨segments, some types, last⟩) :
    mapper.scope.change path (.set (.list items)) =
        .ok ⟨path, ⟨segments, some types, last⟩, .set (.list items)⟩ ∧
      (Value.list items).ConvertsTo mapper.scope (.ofText path) types (some (.list storeds)) := by
  obtain ⟨-, hflat, now, depth, before, after, hrun⟩ := hassigns
  obtain ⟨-, change, stored, hchange, hstored, hsame⟩ := (yields_update_flat hflat).mp hrun
  obtain ⟨hpath, hrequest, htarget⟩ := Scope.of_change_request hchange
  have hends : change.target = ⟨segments, some types, last⟩ := Except.ok.inj (htarget.symm.trans hlookup)
  rw [hends] at hstored hsame
  obtain rfl := Action.ofStored_eq_set hsame.symm
  refine ⟨hchange.trans (congrArg Except.ok ?_), hstored⟩
  rw [← hends, ← hpath]
  exact congrArg (Change.mk change.path change.target) hrequest

/-- What is appended is what the items are encoded as by the first list type. -/
theorem AssignsList.appends_iff (hassigns : mapper.AssignsList path items segments storeds)
    (hlookup : mapper.scope.lookup path = .ok ⟨segments, some types, last⟩) {operand : WireValue} :
    mapper.Appends path items segments operand ↔
      CandidateType.firstSetElement? types = none ∧ ∃ array,
        CandidateType.firstArray? types = some array ∧
          (Value.list items).encodeAs ⟨mapper.scope, .ofText path, array⟩ = .ok (some operand) := by
  have hchange := Scope.change_request (hassigns.convertsTo hlookup).1 (.add (.list items))
  obtain ⟨-, -, -, -, before, -, -⟩ := hassigns
  refine Iff.trans ?_ (@Change.addition_eq_append_iff _ mapper.scope
    ⟨path, ⟨segments, some types, last⟩, .add (.list items)⟩ types items rfl operand)
  simp only [Appends, yields_update_added hchange, true_and]
  constructor
  · intro happends
    obtain ⟨action, hadd, hsame⟩ := happends .epoch 0 before
    obtain ⟨hnone, -⟩ | ⟨others, -, hcases⟩ := Change.addition_cases hadd
    · cases hnone
    · obtain ⟨_, hnumber, -⟩ | ⟨_, _, -, -, rfl⟩ | ⟨array, other, -, -, -, rfl⟩ := hcases
      · cases hnumber
      · exact absurd hsame.symm Action.add_ne_append
      · obtain rfl := Action.append_inj hsame.symm
        exact hadd
  · exact fun hadd _ _ _ => ⟨_, hadd, rfl⟩

end Mapper

/-- A list that is assigned to a declared attribute, and is stored as a list.  If the items are added
instead, an operand is appended exactly if there is no set among the types and the first list type
encodes the items to it.  It is the same list as for the assignment if this is the type that the items
take, and no document among them names an attribute by its alias. -/
theorem Mapper.appends_as_assigned {mapper : Mapper σ}
    (hschemas : ∀ scope schema, mapper.scope.Reaches scope schema → schema.WellFormed)
    {path : String} {items : List Value} {segments : List Segment} {types : List (CandidateType σ)}
    {last : Option (Attribute σ)} {storeds : List WireValue}
    (hlookup : mapper.scope.lookup path = .ok ⟨segments, some types, last⟩)
    (hassigns : mapper.AssignsList path items segments storeds) :
    (∀ operand, mapper.Appends path items segments operand ↔
      CandidateType.firstSetElement? types = none ∧ ∃ array,
        CandidateType.firstArray? types = some array ∧
          (Value.list items).encodeAs ⟨mapper.scope, .ofText path, array⟩ = .ok (some operand)) ∧
    ∃ choice, mapper.scope.resolve (.ofText path) types (.list items) = .ok choice ∧
      (CandidateType.firstSetElement? types = none →
        CandidateType.firstArray? types = some choice.type →
        (∀ key ∈ (Value.list items).keys, ¬ mapper.scope.IsAlias key) →
          mapper.Appends path items segments (.list storeds)) := by
  obtain ⟨-, hconverts⟩ := hassigns.convertsTo hlookup
  obtain ⟨-, -, -, before, -⟩ := hassigns.assigned
  refine ⟨fun _ => hassigns.appends_iff hlookup, ?_⟩
  obtain ⟨choice, hresolve, -⟩ := (Value.convertsTo_list_iff before).mp hconverts
  refine ⟨choice, hresolve, fun hset harray hkeys => ?_⟩
  have hcovers : mapper.scope.Covers mapper.scope :=
    ((Scope.closed_covers mapper.scope).of_reaches .root).2
  have hencode := (Value.convertsTo_iff_encode_of_keys hschemas before _ hassigns.wellFormed hkeys
    hcovers (Scope.mentionsTypes_of_lookup hlookup rfl)).mp hconverts
  obtain ⟨other, hother, hstored⟩ := (Scope.encode_eq_ok rfl).mp hencode
  obtain rfl := Except.ok.inj (hresolve.symm.trans hother)
  obtain ⟨elements, hchosen, -⟩ := CandidateType.exists_of_firstArray? harray
  rw [Scope.reading_of_array hresolve hchosen, ← hchosen] at hstored
  exact (hassigns.appends_iff hlookup).mpr ⟨hset, choice.type, harray, hstored⟩

/-! ## Satchels -/

/-- A buckle has a name, which is its title for the application. -/
def SchemaOf.buckle : Schema Unit where
  attributes := [{ AttributeOf.plain "name" [.primitive .string] with nativeAlias := some "title" }]
  keepUnknown := .disabled
  timestamps := none

/-- A satchel has lists of several kinds.  One of them goes by the name of a bucket. -/
def SchemaOf.satchel : Schema Unit where
  attributes := [.plain "id" [.primitive .string],
    .plain "labels" [.array [.primitive .string], .set (.primitive .string)],
    .plain "weights" [.array [.primitive .number], .array [.primitive .string]],
    .plain "seal" [.constant (.list [.string "a"])],
    .plain "buckles" [.array [.object .buckle]],
    { AttributeOf.plain "$REMOVE" [.array [.primitive .string]] with
      defaultValue := some (.literal (.list [.string "x"])) }]
  keepUnknown := .disabled
  timestamps := none

theorem SchemaOf.build_buckle : build buckle.attributes .disabled none = .ok buckle :=
  rfl

theorem SchemaOf.build_satchel : build satchel.attributes .disabled none = .ok satchel :=
  rfl

/-- The mapper of the only model, which has the schema `SchemaOf.satchel`. -/
def Mapper.satchel : Mapper Unit :=
  ⟨⟨[⟨"Satchel", .satchel, none⟩]⟩, ⟨"Satchel", .satchel, none⟩⟩

theorem Scope.closed_satchel : Mapper.satchel.scope.Closed
    (fun scope schema => scope = Mapper.satchel.scope ∧ (schema = .satchel ∨ schema = .buckle))
    (fun scope type => scope = Mapper.satchel.scope ∧
      type ∈ [.primitive .string, .primitive .number, .set (.primitive .string),
        .array [.primitive .string], .array [.primitive .number],
        .constant (.list [.string "a"]), .array [.object .buckle], .object .buckle]) :=
  .of_noModel (by simp [Mapper.satchel, Mapper.scope]) (by simp) (by simp)
    (by simp [SchemaOf.satchel, SchemaOf.buckle, AttributeOf.plain]) (by simp)

theorem Scope.wellFormed_satchel {scope : Scope Unit} {schema : Schema Unit}
    (hreaches : Mapper.satchel.scope.Reaches scope schema) : schema.WellFormed := by
  obtain ⟨-, rfl | rfl⟩ := closed_satchel.of_reaches hreaches
  · exact SchemaOf.wellFormed_of_build SchemaOf.build_satchel
  · exact SchemaOf.wellFormed_of_build SchemaOf.build_buckle

namespace Mapper

/-- Lists of a satchel that are assigned, and are not appended when they are added: to the labels they
are added as a set, the first list type of the weights refuses a text, and the seal is no list type.
Of a buckle that names its name twice, once as undefined, the name is dropped by the assignment and kept
by the addition.  The field `$REMOVE` removes what it lists, so that it assigns the default. -/
theorem satchel_appends_otherwise :
    (Yields (satchel.update ⟨.plain, .epoch, 0⟩ [] [("labels", .list [.string "a"])]) ()
        ⟨"SET #a0 = :v0", [("#a0", "labels")], [(":v0", .list [.string "a"])]⟩ () ∧
      Yields (satchel.update ⟨.plain, .epoch, 0⟩ []
          [("$ADD", .map [("labels", .list [.string "a"])])]) ()
        ⟨"ADD #a0 :v0", [("#a0", "labels")], [(":v0", .stringSet ["a"])]⟩ ()) ∧
    (Yields (satchel.update ⟨.plain, .epoch, 0⟩ [] [("weights", .list [.string "a"])]) ()
        ⟨"SET #a0 = :v0", [("#a0", "weights")], [(":v0", .list [.string "a"])]⟩ () ∧
      ∀ compiled after, ¬ Yields (satchel.update ⟨.plain, .epoch, 0⟩ []
        [("$ADD", .map [("weights", .list [.string "a"])])]) () compiled after) ∧
    (Yields (satchel.update ⟨.plain, .epoch, 0⟩ [] [("seal", .list [.string "a"])]) ()
        ⟨"SET #a0 = :v0", [("#a0", "seal")], [(":v0", .list [.string "a"])]⟩ () ∧
      ∀ compiled after, ¬ Yields (satchel.update ⟨.plain, .epoch, 0⟩ []
        [("$ADD", .map [("seal", .list [.string "a"])])]) () compiled after) ∧
    (Yields (satchel.update ⟨.plain, .epoch, 0⟩ []
          [("buckles", .list [.map [("name", .string "b"), ("title", .undefined)]])]) ()
        ⟨"SET #a0 = :v0", [("#a0", "buckles")], [(":v0", .list [.map []])]⟩ () ∧
      Yields (satchel.update ⟨.plain, .epoch, 0⟩ [] [("$ADD", .map
          [("buckles", .list [.map [("name", .string "b"), ("title", .undefined)]])])]) ()
        ⟨"SET #a0 = list_append(#a0, :v0)", [("#a0", "buckles")],
          [(":v0", .list [.map [("name", .string "b")]])]⟩ ()) ∧
    Yields (satchel.update ⟨.plain, .epoch, 0⟩ [] [("$REMOVE", .list [.string "$REMOVE"])]) ()
        ⟨"SET #a0 = :v0", [("#a0", "$REMOVE")], [(":v0", .list [.string "x"])]⟩ () ∧
      Yields (satchel.update ⟨.plain, .epoch, 0⟩ []
          [("$ADD", .map [("$REMOVE", .list [.string "$REMOVE"])])]) ()
        ⟨"SET #a0 = list_append(#a0, :v0)", [("#a0", "$REMOVE")],
          [(":v0", .list [.string "$REMOVE"])]⟩ () := by
  refine ⟨⟨yields_of_value? (by decide +kernel), yields_of_value? (by decide +kernel)⟩,
    ⟨yields_of_value? (by decide +kernel), fun compiled after hrun => ?_⟩,
    ⟨yields_of_value? (by decide +kernel), fun compiled after hrun => ?_⟩,
    ⟨yields_of_value? (by decide +kernel), yields_of_value? (by decide +kernel)⟩,
    yields_of_value? (by decide +kernel), yields_of_value? (by decide +kernel)⟩
  · exact Option.some_ne_none _ (hrun.value?_eq.symm.trans (by decide +kernel))
  · exact Option.some_ne_none _ (hrun.value?_eq.symm.trans (by decide +kernel))

/-- A buckle that goes by its name is appended as it is assigned. -/
theorem appends_as_assigned_buckle :
    (∀ scope schema, satchel.scope.Reaches scope schema → schema.WellFormed) ∧
    satchel.AssignsList "buckles" [.map [("name", .string "b")]] [.name "buckles"]
      [.map [("name", .string "b")]] ∧
    (∀ key ∈ (Value.list [.map [("name", .string "b")]]).keys, ¬ satchel.scope.IsAlias key) ∧
    satchel.Appends "buckles" [.map [("name", .string "b")]] [.name "buckles"]
      (.list [.map [("name", .string "b")]]) := by
  have hassigns : satchel.AssignsList "buckles" [.map [("name", .string "b")]] [.name "buckles"]
      [.map [("name", .string "b")]] := by
    refine ⟨?_, by simp, .epoch, 0, (), (), yields_of_value? (by decide +kernel)⟩
    simp [Value.WellFormed, Value.AllWellFormed, Value.FieldsWellFormed, Fields.Sorted]
  have hkeys : ∀ key ∈ (Value.list [.map [("name", .string "b")]]).keys,
      ¬ satchel.scope.IsAlias key := by
    intro key hkey
    obtain rfl : key = "name" := by
      simpa [Value.keys, Value.itemKeys, Value.fieldKeys] using hkey
    rintro ⟨scope, schema, hreaches, field, hfield, halias⟩
    obtain ⟨-, rfl | rfl⟩ := Scope.closed_satchel.of_reaches hreaches
    · simp only [SchemaOf.satchel, List.mem_cons, List.not_mem_nil, or_false] at hfield
      rcases hfield with rfl | rfl | rfl | rfl | rfl | rfl <;> cases halias
    · obtain rfl := List.mem_singleton.mp hfield
      simp at halias
  obtain ⟨-, choice, hresolve, happends⟩ := @appends_as_assigned Unit satchel
    (fun _ _ hreaches => Scope.wellFormed_satchel hreaches) "buckles" _ _
    [.array [.object .buckle]] _ _ rfl hassigns
  have htype : choice.type = .array [.object .buckle] := by
    simpa using (Scope.of_resolve hresolve).1
  refine ⟨fun _ _ hreaches => Scope.wellFormed_satchel hreaches, hassigns, hkeys, ?_⟩
  exact happends rfl (by rw [htype]; rfl) hkeys

end Mapper

end ItemMapper
