import ItemMapper.Proofs.Lasting.Returns
import ItemMapper.Proofs.Spelling.Changes

/-!
# Conditions and updates in other spellings

Two paths that differ only in how attributes are named compile to the same conditions and updates,
as long as no pattern of undeclared data tells the spellings apart (`Mapper.agree_spellings`).  They
lead to the same target, and operands and values are encoded alike at both.
-/

namespace ItemMapper

variable {σ : Type}

/-! ## Conditions -/

namespace Scope

variable {start : Scope σ} {alike : Place → Place → Prop} (hblind : start.reach.BlindTo alike)
  {path path' : String} {types : List (CandidateType σ)}

include hblind

/-- The types of members can be looked at where those of sets and lists can. -/
theorem memberTypes_anywhere (htypes : ∀ type ∈ types, start.anywhere.types start type) :
    ∀ type ∈ CandidateType.memberTypes types, start.anywhere.types start type := by
  intro type hmember
  obtain ⟨whole, hwhole, hmem⟩ := List.mem_flatMap.mp hmember
  have hreached := htypes whole hwhole
  split at hmem
  · next element =>
      obtain rfl := List.mem_singleton.mp hmem
      exact ⟨hreached.1, .inr ((blind_anywhere hblind).scalarSets start type hreached)⟩
  · exact start.anywhere.element hreached hmem
  · obtain rfl := List.mem_singleton.mp hmem
    exact hreached

variable (hplaces : Place.SameOr alike (.ofText path) (.ofText path'))

include hplaces

theorem agree_operand {candidates : Option (List (CandidateType σ))}
    (htypes : ∀ types, candidates = some types → ∀ type ∈ types, start.anywhere.types start type)
    (value : Value) :
    Except.Agree Eq (start.operand path candidates value) (start.operand path' candidates value) := by
  unfold operand
  cases candidates with
  | none =>
      cases value.natural? with
      | none => exact .error _ _
      | some stored => exact .ok rfl
  | some types =>
      refine (Value.agree_encode (blind_anywhere hblind).links value (htypes types rfl) rfl
        hplaces).bind ?_
      rintro stored _ rfl
      cases stored with
      | none => exact .error _ _
      | some stored => exact .ok rfl

/-- A comparison means the same test. -/
theorem agree_test (hlookups : Except.Agree Eq (start.lookup path) (start.lookup path'))
    (op : Operator) (operands : List Value) :
    Except.Agree Eq (start.test ⟨path, op, operands⟩) (start.test ⟨path', op, operands⟩) := by
  have hfound : Except.Agree (fun target other => target = other ∧ start.lookup path = .ok target)
      (start.lookup path) (start.lookup path') := by
    obtain ⟨target, _, hlookup, hother, rfl⟩ | ⟨cause, other, hlookup, hother⟩ := hlookups.cases
    · rw [hlookup, hother]
      exact .ok ⟨rfl, rfl⟩
    · rw [hlookup, hother]
      exact .error cause other
  unfold test
  refine hfound.bind ?_
  rintro target _ ⟨rfl, hlookup⟩
  have htypes : ∀ types, (if op.isMembership then target.types.map CandidateType.memberTypes
      else target.types) = some types → ∀ type ∈ types, start.anywhere.types start type := by
    intro types hsome
    split at hsome
    · obtain ⟨whole, hwhole, rfl⟩ := Option.map_eq_some_iff.mp hsome
      exact memberTypes_anywhere hblind (types_anywhere hlookup hwhole)
    · exact types_anywhere hlookup hsome
  refine Except.Agree.bind (.mapM_eq (List.forall₂_same.mpr fun value _ =>
    agree_operand hblind hplaces htypes value)) ?_
  rintro stored _ rfl
  exact .refl _

omit hblind hplaces in
/-- The last member of a group may be another one that means the same. -/
theorem agree_predicates (nodes : List ConditionNode) {node other : ConditionNode}
    (hnode : Except.Agree Eq (start.predicate? node) (start.predicate? other)) :
    Except.Agree Eq (start.predicates (nodes ++ [node])) (start.predicates (nodes ++ [other])) := by
  induction nodes with
  | nil =>
      simp only [List.nil_append, predicates]
      refine hnode.bind ?_
      rintro predicate _ rfl
      exact .refl _
  | cons first rest ih =>
      simp only [List.cons_append, predicates]
      refine (Except.Agree.refl _).bind ?_
      rintro predicate _ rfl
      refine ih.bind ?_
      rintro others _ rfl
      exact .refl _

omit hblind hplaces in
/-- So may the last member of a condition. -/
theorem agree_compileCondition (condition : Condition) {node other : ConditionNode}
    (hnode : Except.Agree Eq (start.predicate? node) (start.predicate? other)) :
    Except.Agree Eq (start.compileCondition (condition.append node))
      (start.compileCondition (condition.append other)) := by
  have hchain : Except.Agree Eq (start.chain? (condition.append node))
      (start.chain? (condition.append other)) := by
    unfold chain?
    refine Except.Agree.bind (.refl _) fun _ _ _ => ?_
    refine (agree_predicates condition.root.children hnode).bind ?_
    rintro predicates _ rfl
    exact .ok rfl
  refine hchain.bind ?_
  rintro chain _ rfl
  exact .ok rfl

end Scope

/-- The expression of a condition with one more comparison. -/
def Mapper.compared (mapper : Mapper σ) (condition : Condition) (path : String) (op : Operator)
    (operands : List Value) : Except MapperError CompiledExpression := do
  let complete ← ((condition.on path).compare op operands).mapError .ofCondition
  mapper.condition complete

/-- One more comparison means the same in another spelling if its test does. -/
theorem Mapper.agree_compared {mapper : Mapper σ} {path path' : String} {operands : List Value}
    (htest : ∀ op, Except.Agree Eq (mapper.scope.test ⟨path, op, operands⟩)
      (mapper.scope.test ⟨path', op, operands⟩)) (condition : Condition) (op : Operator) :
    Except.Agree Eq (mapper.compared condition path op operands)
      (mapper.compared condition path' op operands) := by
  have hmeant : (condition.on path').effective op = (condition.on path).effective op := rfl
  unfold compared Condition.compare
  simp only [Condition.on] at hmeant ⊢
  rw [hmeant]
  cases Condition.effective _ op with
  | error cause => exact .error _ _
  | ok meant =>
      dsimp only [bind, Except.bind]
      by_cases htakes : meant.takes operands.length = true
      · rw [if_pos htakes, if_pos htakes]
        refine Scope.agree_compileCondition _ ?_
        simp only [Scope.predicate?]
        refine (htest meant).bind ?_
        rintro test _ rfl
        exact .refl _
      · rw [if_neg htakes, if_neg htakes]
        exact .error _ _

/-! ## Both kinds of requests -/

/-- Requests for two spellings of a path lead to changes that are alike. -/
theorem Scope.agree_requestedChanges {start : Scope σ} {alike : Place → Place → Prop}
    {path path' : String} (hlookups : Except.Agree Eq (start.lookup path) (start.lookup path'))
    (hplaces : Place.SameOr alike (.ofText path) (.ofText path')) {current update other : Document}
    {request : Request} (hupdate : Request.ofDocument update = .ok [(path, request)])
    (hother : Request.ofDocument other = .ok [(path', request)])
    (hitems : ∀ value, request = .add value →
      current.lacksItems path' = current.lacksItems path) :
    Except.Agree (List.Forall₂ (Change.Alike start alike current)) (start.requestedChanges update)
      (start.requestedChanges other) := by
  unfold requestedChanges
  rw [hupdate, hother]
  exact .mapM (.cons (agree_change hlookups hplaces hitems) .nil)

/-- Where patterns say the same of all places, they tell none apart. -/
theorem Scope.Placeless.blindTo {start : Scope σ} {alike : Place → Place → Prop}
    (hplaceless : start.Placeless)
    (hschemas : ∀ scope schema, start.Reaches scope schema → schema.WellFormed)
    (hsets : ∀ scope element, start.Uses scope (.set element) → element.isSetElement = true)
    (halike : Place.Compatible alike) : start.reach.BlindTo alike where
  toCompatible := halike
  wellFormed := hschemas
  scalarSets := hsets
  unknownMatch := fun _ _ _ hreaches => hplaceless _ _ hreaches _ _

/-- Two paths that differ only in how attributes are named lead to the same target, if they lead
anywhere, and whatever is declared is found under both.  Comparisons and updates are compiled to
the same expressions, or fail, under both, unless a pattern of undeclared data tells apart what is
at or below the one path and the other.  For an addition to a list, the document that is known must
have items under both spellings or under none. -/
theorem Mapper.agree_spellings {mapper : Mapper σ} {path path' : String}
    (hspells : mapper.scope.SpellsDocument mapper.model.schema (Dotted.split path)
      (Dotted.split path')) :
    (∀ target other, mapper.scope.lookup path = .ok target → mapper.scope.lookup path' = .ok other →
      other = target) ∧
    (∀ target, target.types.isSome = true →
      (mapper.scope.lookup path = .ok target ↔ mapper.scope.lookup path' = .ok target)) ∧
    (mapper.scope.reach.BlindTo (Place.Below (Dotted.split path) (Dotted.split path')) →
      (∀ condition op operands, Except.Agree Eq (mapper.compared condition path op operands)
        (mapper.compared condition path' op operands)) ∧
      ∀ writing current request update other,
        Request.ofDocument update = .ok [(path, request)] →
        Request.ofDocument other = .ok [(path', request)] →
        (∀ value, request = .add value →
          current.lacksItems path' = current.lacksItems path) →
        Pipeline.Agree Eq (mapper.update writing current update)
          (mapper.update writing current other)) := by
  have hlookups := Scope.lookups_agree hspells
  refine ⟨fun _ _ => hlookups.target_eq, fun _ => hlookups.eq_ok_iff, fun hblind => ?_⟩
  have hsame := hlookups.of_unseen hblind
  have hplaces : Place.SameOr (Place.Below (Dotted.split path) (Dotted.split path')) (.ofText path)
      (.ofText path') := .inr (Scope.below_ofText hspells)
  constructor
  · intro condition op operands
    exact agree_compared (fun op => Scope.agree_test hblind hplaces hsame op operands) condition op
  · intro writing current request update other hupdate hother hitems
    exact Scope.agree_compileUpdate hblind writing
      (Scope.agree_requestedChanges hsame hplaces hupdate hother hitems)

/-! ## Homes that are called houses -/

/-- A home has a street. -/
def SchemaOf.home : Schema Unit where
  attributes := [.plain "street" [.primitive .string]]
  keepUnknown := .disabled
  timestamps := none

/-- The home of a tenant is a house for the application. -/
def SchemaOf.tenant (keep : KeepUnknown) : Schema Unit where
  attributes := [.plain "id" [.primitive .string],
    { AttributeOf.plain "home" [.object .home] with nativeAlias := some "house" }]
  keepUnknown := keep
  timestamps := none

theorem SchemaOf.build_home : build home.attributes .disabled none = .ok home :=
  rfl

theorem SchemaOf.build_tenant (keep : KeepUnknown) :
    build (tenant keep).attributes keep none = .ok (tenant keep) :=
  rfl

/-- The mapper of the only model, which has the schema `SchemaOf.tenant`. -/
def Mapper.tenant (keep : KeepUnknown) : Mapper Unit :=
  ⟨⟨[⟨"Tenant", .tenant keep, none⟩]⟩, ⟨"Tenant", .tenant keep, none⟩⟩

theorem Scope.closed_tenant (keep : KeepUnknown) : (Mapper.tenant keep).scope.Closed
    (fun scope schema => scope = (Mapper.tenant keep).scope ∧ (schema = .tenant keep ∨ schema = .home))
    (fun scope type => scope = (Mapper.tenant keep).scope ∧
      (type = .primitive .string ∨ type = .object .home)) :=
  .of_noModel (by simp [Mapper.tenant, Mapper.scope]) (by simp) (by simp)
    (by simp [SchemaOf.tenant, SchemaOf.home, AttributeOf.plain]) (by simp)

theorem Scope.wellFormed_tenant {keep : KeepUnknown} {scope : Scope Unit} {schema : Schema Unit}
    (hreaches : (Mapper.tenant keep).scope.Reaches scope schema) : schema.WellFormed := by
  obtain ⟨-, rfl | rfl⟩ := (closed_tenant keep).of_reaches hreaches
  · exact SchemaOf.wellFormed_of_build (SchemaOf.build_tenant keep)
  · exact SchemaOf.wellFormed_of_build SchemaOf.build_home

/-- Where everything is kept, spelling makes no difference. -/
theorem Scope.blindTo_tenant {alike : Place → Place → Prop} (halike : Place.Compatible alike) :
    (Mapper.tenant .everything).scope.reach.BlindTo alike := by
  refine Placeless.blindTo ?_ ?_ ?_ halike
  · intro scope schema hreaches near far
    obtain ⟨rfl, -⟩ := (closed_tenant _).of_reaches hreaches
    rfl
  · exact fun _ _ => wellFormed_tenant
  · intro scope element huses
    obtain ⟨-, hset | hset⟩ := (closed_tenant _).of_uses huses <;> cases hset

theorem Scope.spells_tenant (keep : KeepUnknown) :
    (Mapper.tenant keep).scope.SpellsDocument (Mapper.tenant keep).model.schema
      (Dotted.split "home.city") (Dotted.split "house.city") := by
  have hhome : Dotted.split "home.city" = ["home", "city"] := by decide +kernel
  have hhouse : Dotted.split "house.city" = ["house", "city"] := by decide +kernel
  rw [hhome, hhouse]
  exact .attribute (by decide) (by decide) rfl rfl .same

/-- The pattern keeps the city of a home, but is asked about the city of a house. -/
theorem Mapper.city_of_house_is_unknown :
    (tenant (.matching ["home.city"])).scope.SpellsDocument (.tenant (.matching ["home.city"]))
        (Dotted.split "home.city") (Dotted.split "house.city") ∧
      (tenant (.matching ["home.city"])).compared .empty "home.city" .present [] =
        .ok ⟨"attribute_exists(#a0.#a1)", [("#a0", "home"), ("#a1", "city")], []⟩ ∧
      (tenant (.matching ["home.city"])).compared .empty "house.city" .present [] =
        .error (.unknownAttribute "house.city") :=
  ⟨Scope.spells_tenant _, rfl, rfl⟩

theorem Mapper.agree_spellings_tenant :
    (tenant .everything).compared .empty "home.city" .equal [.string "Rome"] =
        .ok ⟨"#a0.#a1 = :v0", [("#a0", "home"), ("#a1", "city")], [(":v0", .string "Rome")]⟩ ∧
      Except.Agree Eq ((tenant .everything).compared .empty "home.city" .equal [.string "Rome"])
        ((tenant .everything).compared .empty "house.city" .equal [.string "Rome"]) ∧
      Pipeline.Agree Eq
        ((tenant .everything).update ⟨.update, .epoch, 0⟩ []
          [("$SET", .map [("home.city", .string "Rome")])])
        ((tenant .everything).update ⟨.update, .epoch, 0⟩ []
          [("$SET", .map [("house.city", .string "Rome")])]) := by
  have hblind := (agree_spellings (Scope.spells_tenant .everything)).2.2
    (Scope.blindTo_tenant (Place.Below.compatible _ _))
  refine ⟨rfl, hblind.1 .empty .equal [.string "Rome"], ?_⟩
  exact hblind.2 _ [] (.set (.string "Rome")) _ _ rfl rfl fun _ hadd => nomatch hadd

end ItemMapper
