import ItemMapper.Mapper
import ItemMapper.Proofs.Expression.Faults
import ItemMapper.Proofs.Expression.Predicate

/-!
# Conditions that can be built

A condition is put together by calls, and whatever the calls are, the result is well formed: between
any two neighbouring members of a group stands one joiner, a nested group has at least two members,
and each comparison has as many operands as its operator takes.  The conditions that can be built
(`Condition.Built`) keep track of the comparisons that were asked for, so that the comparisons of
the result can be told to be just these, the negated ones by the complement of their operator.

Compiling relies on this.  A well-formed group means a group of as many predicates with the joiners
it was given (`Scope.Means`): no member drops out, and no joiner moves.
-/

namespace ItemMapper

variable {σ : Type}

/-! ## Well-formed conditions -/

/-- Each group has at least two members with a joiner between any two neighbours, and each
comparison as many operands as its operator takes. -/
inductive ConditionNode.WellFormed : ConditionNode → Prop
  | comparison {comparison : Comparison}
      (takes : comparison.op.takes comparison.operands.length = true) :
      WellFormed (.comparison comparison)
  | group {children : List ConditionNode} {joiners : List Joiner} (several : 2 ≤ children.length)
      (joined : joiners.length + 1 = children.length)
      (members : ∀ child ∈ children, child.WellFormed) : WellFormed (.group children joiners)

/-- The outermost group may have a single member, or none. -/
structure ConditionGroup.WellFormed (group : ConditionGroup) : Prop where
  joined : group.joiners.length = group.children.length - 1
  members : ∀ child ∈ group.children, child.WellFormed

namespace ConditionNode

theorem allComparisons_append (children others : List ConditionNode) :
    allComparisons (children ++ others) = allComparisons children ++ allComparisons others := by
  induction children with
  | nil => rfl
  | cons child rest ih => simp [allComparisons, ih]

end ConditionNode

/-! ## Calls -/

/-- A comparison that is asked for, with the negation before it. -/
structure Asked where
  path : String
  op : Operator
  operands : List Value
  negated : Bool

namespace Asked

/-- What an entry of a condition document asks for. -/
def ofEntry (path : String) (value : Value) : Asked :=
  match Condition.operatorOf? value with
  | none => ⟨path, .equal, [value], false⟩
  | some (.present, .bool false) => ⟨path, .present, [], true⟩
  | some (.present, _) => ⟨path, .present, [], false⟩
  | some (.absent, _) => ⟨path, .absent, [], false⟩
  | some (.between, .list items) => ⟨path, .between, items, false⟩
  | some (.oneOf, .list items) => ⟨path, .oneOf, items, false⟩
  | some (op, operand) => ⟨path, op, [operand], false⟩

/-- The comparison is the one that is asked for.  A negation is part of its operator. -/
structure RecordedAs (asked : Asked) (comparison : Comparison) : Prop where
  path : comparison.path = asked.path
  operands : comparison.operands = asked.operands
  op : if asked.negated then asked.op.complement? = some comparison.op
    else asked.op = comparison.op

end Asked

namespace Condition

/-- The conditions that successful calls lead to, and the comparisons that the calls ask for.  Inside
of parentheses any calls may stand, also those that put together a condition of their own. -/
inductive Built : Condition → List Asked → Prop
  | empty : Built .empty []
  | on {condition : Condition} {asked : List Asked} (path : String)
      (hbuilt : condition.Built asked) : Built (condition.on path) asked
  | not {condition : Condition} {asked : List Asked} (hbuilt : condition.Built asked) :
      Built condition.not asked
  | join {condition : Condition} {asked : List Asked} (joiner : Joiner)
      (hbuilt : condition.Built asked) : Built (condition.join joiner) asked
  | compare {condition next : Condition} {asked : List Asked} {path : String} {op : Operator}
      {operands : List Value} (hbuilt : condition.Built asked)
      (hpending : condition.pending = some path)
      (hnext : condition.compare op operands = .ok next) :
      Built next (asked ++ [⟨path, op, operands, condition.negated⟩])
  | compareBy {condition next : Condition} {asked : List Asked} {path name : String}
      {op : Operator} {operands : List Value} (hbuilt : condition.Built asked)
      (hpending : condition.pending = some path) (hname : Operator.ofName? name = some op)
      (hnext : condition.compareBy name operands = .ok next) :
      Built next (asked ++ [⟨path, op, operands, condition.negated⟩])
  | parenthesis {condition inner next : Condition} {asked more : List Asked}
      {build : Condition → Except ConditionError Condition} (hbuilt : condition.Built asked)
      (hinner : inner.Built more) (hbuild : build .empty = .ok inner)
      (hnext : condition.parenthesis build = .ok next) : Built next (asked ++ more)
  | ofDocument {document : Document} {condition : Condition}
      (hdocument : ofDocument document = .ok condition) :
      Built condition (document.map fun entry => .ofEntry entry.1 entry.2)

/-! ### What the calls do -/

theorem recordedAs_of_effective {condition : Condition} {op meant : Operator}
    (hmeant : condition.effective op = .ok meant) (path : String) (operands : List Value) :
    Asked.RecordedAs ⟨path, op, operands, condition.negated⟩ ⟨path, meant, operands⟩ := by
  refine ⟨rfl, rfl, ?_⟩
  unfold effective at hmeant
  cases hnegated : condition.negated with
  | false =>
      rw [hnegated] at hmeant
      simpa using hmeant
  | true =>
      rw [hnegated] at hmeant
      simp only [if_true] at hmeant ⊢
      split at hmeant
      · rename_i other hother
        rw [hother, Except.ok.inj hmeant]
      · cases hmeant

/-- A comparison of the attribute that waits is added, with as many operands as it takes. -/
theorem compare_eq_ok {condition next : Condition} {op : Operator} {operands : List Value} :
    condition.compare op operands = .ok next ↔
      ∃ path meant, condition.pending = some path ∧ condition.effective op = .ok meant ∧
        meant.takes operands.length = true ∧
        next = { condition with pending := none, negated := false }.append
          (.comparison ⟨path, meant, operands⟩) := by
  unfold compare
  cases condition.pending with
  | none => simp
  | some path =>
      simp only [Except.bind_eq_ok, Option.some.injEq]
      constructor
      · rintro ⟨meant, hmeant, hnext⟩
        split at hnext
        · rename_i htakes
          exact ⟨path, meant, rfl, hmeant, htakes, (Except.pure_eq_ok.mp hnext).symm⟩
        · simp at hnext
      · rintro ⟨_, meant, rfl, hmeant, htakes, rfl⟩
        exact ⟨meant, hmeant, by rw [if_pos htakes]; rfl⟩

/-- A condition of its own is added as one member, if it has any members. -/
theorem parenthesis_eq_ok {condition next : Condition}
    {build : Condition → Except ConditionError Condition}
    (hnext : condition.parenthesis build = .ok next) {inner : Condition}
    (hbuild : build .empty = .ok inner) :
    (inner.root.children = [] ∧ next = condition) ∨
      (∃ node, inner.root.children = [node] ∧ next = condition.append node) ∨
      (2 ≤ inner.root.children.length ∧
        next = condition.append (.group inner.root.children inner.root.joiners)) := by
  unfold parenthesis at hnext
  rw [Except.check_eq_ok] at hnext
  obtain ⟨-, hnext⟩ := hnext
  simp only [hbuild, Except.bind_eq_ok, Except.ok.injEq, exists_eq_left'] at hnext
  obtain ⟨-, -, hnext⟩ := hnext
  split at hnext
  · rename_i hnone
    exact .inl ⟨hnone, (Except.pure_eq_ok.mp hnext).symm⟩
  · rename_i node hone
    exact .inr (.inl ⟨node, hone, (Except.pure_eq_ok.mp hnext).symm⟩)
  · rename_i hnone hone
    refine .inr (.inr ⟨?_, (Except.pure_eq_ok.mp hnext).symm⟩)
    cases hchildren : inner.root.children with
    | nil => exact absurd hchildren hnone
    | cons node others =>
        cases others with
        | nil => exact absurd hchildren (hone node)
        | cons other others => simp

/-- An entry of a condition document is compared by the operator that it asks for. -/
theorem compareWith_eq (condition : Condition) (path : String) (value : Value) :
    condition.compareWith value =
      (if (Asked.ofEntry path value).negated then condition.not else condition).compare
        (Asked.ofEntry path value).op (Asked.ofEntry path value).operands := by
  unfold compareWith Asked.ofEntry
  generalize operatorOf? value = found
  split <;> simp [*]

/-! ### What the calls keep -/

/-- The invariant of all calls. -/
structure Sound (condition : Condition) (asked : List Asked) : Prop where
  wellFormed : condition.root.WellFormed
  recorded : List.Forall₂ Asked.RecordedAs asked
    (ConditionNode.allComparisons condition.root.children)

namespace Sound

variable {condition : Condition} {asked more : List Asked}

/-- A member that is added brings one more joiner, unless it is the first. -/
theorem append (hsound : condition.Sound asked) {node : ConditionNode} (hnode : node.WellFormed)
    (hmore : List.Forall₂ Asked.RecordedAs more node.comparisons) :
    (condition.append node).Sound (asked ++ more) where
  wellFormed := by
    obtain ⟨hjoined, hmembers⟩ := hsound.wellFormed
    refine ⟨?_, ?_⟩
    · simp only [Condition.append, ConditionGroup.push]
      cases hchildren : condition.root.children with
      | nil => simpa [hchildren] using hjoined
      | cons child rest =>
          rw [hchildren] at hjoined
          simp only [List.isEmpty_cons, Bool.false_eq_true, if_false, List.length_append, hjoined,
            List.length_cons, List.length_nil]
          omega
    · intro child hchild
      rcases List.mem_append.mp hchild with hold | hnew
      · exact hmembers child hold
      · obtain rfl := List.mem_singleton.mp hnew
        exact hnode
  recorded := by
    simp only [Condition.append, ConditionGroup.push, ConditionNode.allComparisons_append]
    refine List.rel_append hsound.recorded ?_
    simpa [ConditionNode.allComparisons] using hmore

theorem compare (hsound : condition.Sound asked) {next : Condition} {path : String}
    {op : Operator} {operands : List Value} (hpending : condition.pending = some path)
    (hnext : condition.compare op operands = .ok next) :
    next.Sound (asked ++ [⟨path, op, operands, condition.negated⟩]) := by
  obtain ⟨named, meant, hnamed, hmeant, htakes, rfl⟩ := compare_eq_ok.mp hnext
  obtain rfl := Option.some.inj (hpending.symm.trans hnamed)
  have hidle : Sound { condition with pending := none, negated := false } asked :=
    ⟨hsound.wellFormed, hsound.recorded⟩
  refine hidle.append (.comparison htakes) ?_
  rw [ConditionNode.comparisons]
  exact .cons (recordedAs_of_effective hmeant path operands) .nil

theorem parenthesis (hsound : condition.Sound asked) {inner next : Condition}
    (hinner : inner.Sound more) {build : Condition → Except ConditionError Condition}
    (hbuild : build .empty = .ok inner) (hnext : condition.parenthesis build = .ok next) :
    next.Sound (asked ++ more) := by
  have hrecorded := hinner.recorded
  rcases parenthesis_eq_ok hnext hbuild with ⟨hnone, rfl⟩ | ⟨node, hone, rfl⟩ | ⟨hseveral, rfl⟩
  · rw [hnone] at hrecorded
    cases hrecorded
    simpa using hsound
  · rw [hone] at hrecorded
    exact hsound.append (hinner.wellFormed.members node (by simp [hone]))
      (by simpa [ConditionNode.allComparisons] using hrecorded)
  · obtain ⟨hjoined, hmembers⟩ := hinner.wellFormed
    exact hsound.append (.group hseveral (by omega) hmembers)
      (by rwa [ConditionNode.comparisons])

/-- One entry of a condition document after another. -/
theorem ofEntries {next : Condition} :
    ∀ {document : Document} {condition : Condition} {asked : List Asked},
      condition.Sound asked → condition.negated = false →
      document.foldlM (fun condition entry => (condition.on entry.1).compareWith entry.2)
        condition = .ok next →
      next.Sound (asked ++ document.map fun entry => .ofEntry entry.1 entry.2)
  | [], _, _, hsound, _, hnext => by
      obtain rfl := Except.pure_eq_ok.mp hnext
      simpa using hsound
  | entry :: rest, condition, asked, hsound, hnegated, hnext => by
      rw [List.foldlM_cons, Except.bind_eq_ok] at hnext
      obtain ⟨middle, hmiddle, hnext⟩ := hnext
      rw [compareWith_eq _ entry.1] at hmiddle
      have hnot : middle.negated = false := by
        obtain ⟨_, _, -, -, -, rfl⟩ := compare_eq_ok.mp hmiddle
        rfl
      have hmiddle : middle.Sound (asked ++ [.ofEntry entry.1 entry.2]) := by
        have hpath : (Asked.ofEntry entry.1 entry.2).path = entry.1 := by
          unfold Asked.ofEntry
          split <;> rfl
        generalize Asked.ofEntry entry.1 entry.2 = meant at hmiddle hpath
        obtain ⟨path, op, operands, negated⟩ := meant
        obtain rfl := hpath
        cases negated with
        | false =>
            have hentry : (condition.on entry.1).Sound asked :=
              ⟨hsound.wellFormed, hsound.recorded⟩
            simpa [Condition.on, hnegated] using hentry.compare rfl hmiddle
        | true =>
            have hentry : (condition.on entry.1).not.Sound asked :=
              ⟨hsound.wellFormed, hsound.recorded⟩
            simpa [Condition.on, Condition.not, hnegated] using hentry.compare rfl hmiddle
      simpa using ofEntries hmiddle hnot hnext

end Sound

/-- Calls lead from the empty condition to sound conditions only. -/
theorem Built.sound {condition : Condition} {asked : List Asked}
    (hbuilt : condition.Built asked) : condition.Sound asked := by
  have hempty : Condition.empty.Sound [] := ⟨⟨rfl, by simp [Condition.empty,
    ConditionGroup.empty]⟩, .nil⟩
  induction hbuilt with
  | empty => exact hempty
  | on path _ ih => exact ⟨ih.wellFormed, ih.recorded⟩
  | not _ ih => exact ⟨ih.wellFormed, ih.recorded⟩
  | join joiner _ ih => exact ⟨ih.wellFormed, ih.recorded⟩
  | compare _ hpending hnext ih => exact ih.compare hpending hnext
  | compareBy _ hpending hname hnext ih =>
      rw [Condition.compareBy, hname] at hnext
      exact ih.compare hpending hnext
  | parenthesis _ _ hbuild hnext ih ihInner => exact ih.parenthesis ihInner hbuild hnext
  | ofDocument hdocument => exact Sound.ofEntries hempty rfl hdocument

end Condition

/-! ## Compiling well-formed conditions -/

/-- The predicate is what a member of a condition means, member by member and with the same
joiners. -/
inductive Scope.Means (scope : Scope σ) : ConditionNode → Predicate → Prop
  | comparison {comparison : Comparison} {test : Test}
      (htest : scope.test comparison = .ok test) : Means scope (.comparison comparison) (.test test)
  | group {children : List ConditionNode} {first : Predicate} {rest : List (Joiner × Predicate)}
      (hmembers : List.Forall₂ (Means scope) children (first :: rest.map Prod.snd)) :
      Means scope (.group children (rest.map Prod.fst)) (.group first rest)

namespace PredicateChain

/-- With a joiner between any two neighbours, each joiner stays where it is. -/
theorem of_ofParts? {predicates : List Predicate} {joiners : List Joiner} {chain : PredicateChain}
    (hchain : ofParts? predicates joiners = some chain)
    (hjoined : joiners.length = predicates.length - 1) :
    predicates = chain.first :: chain.rest.map Prod.snd ∧ joiners = chain.rest.map Prod.fst := by
  cases predicates with
  | nil => simp [ofParts?] at hchain
  | cons first others =>
      obtain rfl := Option.some.inj hchain
      have hlength : joiners.length = others.length := by simpa using hjoined
      have hzip : (joiners ++ List.replicate others.length Joiner.and).zip others =
          joiners.zip others := by
        rw [← List.append_nil others, List.zip_append hlength, List.append_nil]
        simp
      simp only [hzip]
      exact ⟨by rw [List.map_snd_zip hlength.ge], by rw [List.map_fst_zip hlength.le]⟩

end PredicateChain

namespace Scope

variable {scope : Scope σ}

mutual

/-- A well-formed member means a predicate, whatever it is part of, by recursion on its groups. -/
theorem exists_means_of_predicate? : ∀ {node : ConditionNode} {result : Option Predicate},
    node.WellFormed → scope.predicate? node = .ok result →
      ∃ predicate, result = some predicate ∧ scope.Means node predicate
  | .comparison comparison, result, _, hresult => by
      simp only [predicate?, Except.bind_eq_ok, Except.pure_eq_ok] at hresult
      obtain ⟨test, htest, rfl⟩ := hresult
      exact ⟨.test test, rfl, .comparison htest⟩
  | .group children joiners, result, .group hseveral hjoined hmembers, hresult => by
      simp only [predicate?, Except.bind_eq_ok, Except.pure_eq_ok] at hresult
      obtain ⟨predicates, hpredicates, rfl⟩ := hresult
      have hmeans := means_of_predicates hmembers hpredicates
      have hlength := hmeans.length_eq
      cases hchain : PredicateChain.ofParts? predicates joiners with
      | none => cases predicates <;> simp_all [PredicateChain.ofParts?]
      | some chain =>
          obtain ⟨rfl, rfl⟩ := PredicateChain.of_ofParts? hchain (by omega)
          refine ⟨.group chain.first chain.rest, ?_, .group hmeans⟩
          have hrest : chain.rest ≠ [] := by
            rintro hnone
            simp [hnone] at hlength
            omega
          simp [PredicateChain.toPredicate, hrest]

/-- None of some well-formed members drops out. -/
theorem means_of_predicates : ∀ {nodes : List ConditionNode} {predicates : List Predicate},
    (∀ node ∈ nodes, node.WellFormed) → scope.predicates nodes = .ok predicates →
      List.Forall₂ scope.Means nodes predicates
  | [], _, _, hpredicates => by
      obtain rfl := Except.ok.inj hpredicates
      exact .nil
  | node :: rest, _, hnodes, hpredicates => by
      simp only [predicates, Except.bind_eq_ok, Except.pure_eq_ok] at hpredicates
      obtain ⟨first, hfirst, others, hothers, rfl⟩ := hpredicates
      rw [List.forall_mem_cons] at hnodes
      obtain ⟨predicate, rfl, hmeans⟩ := exists_means_of_predicate? hnodes.1 hfirst
      exact .cons hmeans (means_of_predicates hnodes.2 hothers)

end

mutual

/-- A well-formed member fails only where one of its comparisons does. -/
theorem ofComparison_of_predicate? : ∀ {node : ConditionNode} {cause : MapperError},
    node.WellFormed → scope.predicate? node = .error cause → cause.OfComparison
  | .comparison comparison, cause, .comparison htakes, hcause => by
      rcases Except.bind_eq_error.mp hcause with htest | ⟨_, _, hnone⟩
      · exact ofComparison_of_test htakes htest
      · cases hnone
  | .group children joiners, cause, .group _ _ hmembers, hcause => by
      rw [predicate?] at hcause
      rcases Except.bind_eq_error.mp hcause with hpredicates | ⟨_, _, hnone⟩
      · exact ofComparison_of_predicates hmembers hpredicates
      · cases hnone

theorem ofComparison_of_predicates : ∀ {nodes : List ConditionNode} {cause : MapperError},
    (∀ node ∈ nodes, node.WellFormed) → scope.predicates nodes = .error cause →
      cause.OfComparison
  | [], _, _, hcause => by cases hcause
  | node :: rest, _, hnodes, hcause => by
      rw [List.forall_mem_cons] at hnodes
      rw [predicates] at hcause
      rcases Except.bind_eq_error.mp hcause with hfirst | ⟨_, _, hothers⟩
      · exact ofComparison_of_predicate? hnodes.1 hfirst
      · rcases Except.bind_eq_error.mp hothers with hrest | ⟨_, _, hnone⟩
        · exact ofComparison_of_predicates hnodes.2 hrest
        · cases hnone

end

/-- A condition that compiles means a chain of predicates, one for each member, with the joiners of
the condition; the empty condition means none. -/
theorem means_of_chain? {condition : Condition} {result : Option PredicateChain}
    (hroot : condition.root.WellFormed) (hresult : scope.chain? condition = .ok result) :
    (condition.isEmpty = true ∧ result = none) ∨
      ∃ chain, result = some chain ∧
        List.Forall₂ scope.Means condition.root.children
          (chain.first :: chain.rest.map Prod.snd) ∧
        condition.root.joiners = chain.rest.map Prod.fst := by
  simp only [chain?, Except.bind_eq_ok, Except.pure_eq_ok] at hresult
  obtain ⟨-, -, predicates, hpredicates, rfl⟩ := hresult
  have hmeans := means_of_predicates hroot.members hpredicates
  have hlength := hmeans.length_eq
  cases hchain : PredicateChain.ofParts? predicates condition.root.joiners with
  | none =>
      refine .inl ⟨?_, rfl⟩
      cases predicates with
      | nil => simpa [Condition.isEmpty] using hlength
      | cons first others => simp [PredicateChain.ofParts?] at hchain
  | some chain =>
      obtain ⟨rfl, hjoiners⟩ := PredicateChain.of_ofParts? hchain (by rw [← hlength, hroot.joined])
      exact .inr ⟨chain, rfl, hmeans, hjoiners⟩

/-- Compiling fails only for an attribute that still waits for its comparison, or for one of the
comparisons. -/
theorem ofComparison_of_compileCondition {condition : Condition} {cause : MapperError}
    (hroot : condition.root.WellFormed) (hcause : scope.compileCondition condition = .error cause) :
    (∃ path, condition.pending = some path ∧ cause = .ofCondition (.noComparison path)) ∨
      cause.OfComparison := by
  simp only [compileCondition, chain?, Except.bind_eq_error, Except.pure_eq_error, and_false,
    exists_false, or_false] at hcause
  rcases hcause with hcomplete | ⟨_, -, hpredicates⟩
  · left
    unfold Condition.ensureComplete at hcomplete
    cases hpending : condition.pending with
    | none =>
        rw [hpending] at hcomplete
        cases hcomplete
    | some path =>
        rw [hpending] at hcomplete
        exact ⟨path, rfl, (Except.error.inj hcomplete).symm⟩
  · exact .inr (ofComparison_of_predicates hroot.members hpredicates)

end Scope

theorem MapperError.OfComparison.ne_missing {cause : MapperError} (hcause : cause.OfComparison) :
    cause ≠ .ofCondition .missingBound ∧ ∀ op, cause ≠ .ofCondition (.missingOperand op) := by
  constructor
  · rintro rfl
    cases hcause
  · rintro op rfl
    cases hcause

/-- Whatever calls a condition is put together by, it is well formed: its comparisons are the ones
that were asked for, with as many operands as their operators take and negations as complements, and
its groups have a joiner between any two neighbouring members, and at least two members if they are
nested.  So it compiles to the layout of a chain of predicates, one for each member and with the
joiners it was given, or to nothing if it is empty; and it never fails for a missing operand. -/
theorem Condition.wellFormed_of_built {condition : Condition} {asked : List Asked}
    (hbuilt : condition.Built asked) :
    condition.root.WellFormed ∧
      List.Forall₂ Asked.RecordedAs asked
        (ConditionNode.allComparisons condition.root.children) ∧
      ∀ (σ : Type) (mapper : Mapper σ),
        (∀ compiled, mapper.condition condition = .ok compiled →
          (condition.isEmpty = true ∧ compiled = .ofPieces []) ∨
            ∃ chain : PredicateChain,
              List.Forall₂ mapper.scope.Means condition.root.children
                (chain.first :: chain.rest.map Prod.snd) ∧
              condition.root.joiners = chain.rest.map Prod.fst ∧
              compiled = .ofPieces chain.pieces) ∧
        ∀ cause, mapper.condition condition = .error cause →
          cause ≠ .ofCondition .missingBound ∧
          (∀ op, cause ≠ .ofCondition (.missingOperand op)) ∧
          ((∃ path, condition.pending = some path ∧ cause = .ofCondition (.noComparison path)) ∨
            cause.OfComparison) := by
  obtain ⟨hroot, hrecorded⟩ := hbuilt.sound
  refine ⟨hroot, hrecorded, fun σ mapper => ⟨fun compiled hcompiled => ?_, fun cause hcause => ?_⟩⟩
  · simp only [Mapper.condition, Scope.compileCondition, Except.bind_eq_ok,
      Except.pure_eq_ok] at hcompiled
    obtain ⟨result, hresult, rfl⟩ := hcompiled
    rcases Scope.means_of_chain? hroot hresult with ⟨hempty, rfl⟩ | ⟨chain, rfl, hmeans, hjoiners⟩
    · exact .inl ⟨hempty, rfl⟩
    · exact .inr ⟨chain, hmeans, hjoiners, rfl⟩
  · have hcases := Scope.ofComparison_of_compileCondition hroot hcause
    refine ⟨?_, ?_, hcases⟩
    · rintro rfl
      rcases hcases with ⟨path, -, hpath⟩ | hcomparison
      · cases hpath
      · exact hcomparison.ne_missing.1 rfl
    · rintro op rfl
      rcases hcases with ⟨path, -, hpath⟩ | hcomparison
      · cases hpath
      · exact hcomparison.ne_missing.2 op rfl

/-- Those who are not below eighteen, or who are called by one name and live between two towns. -/
def Condition.adults : Condition :=
  ⟨⟨[.comparison ⟨"age", .greaterOrEqual, [.string "18"]⟩,
      .group [.comparison ⟨"name", .equal, [.string "Ann"]⟩,
        .comparison ⟨"town", .between, [.string "Bern", .string "Rome"]⟩] [.and]], [.or]⟩,
    none, false, none⟩

theorem Condition.built_adults : adults.Built
    [⟨"age", .less, [.string "18"], true⟩, ⟨"name", .equal, [.string "Ann"], false⟩,
      ⟨"town", .between, [.string "Bern", .string "Rome"], false⟩] := by
  have hage : Built ⟨⟨[.comparison ⟨"age", .greaterOrEqual, [.string "18"]⟩], []⟩, none, false,
      none⟩ [⟨"age", .less, [.string "18"], true⟩] :=
    .compare (.not (.on "age" .empty)) rfl rfl
  have hname : Built ⟨⟨[.comparison ⟨"name", .equal, [.string "Ann"]⟩], []⟩, none, false, none⟩
      [⟨"name", .equal, [.string "Ann"], false⟩] :=
    .compare (.on "name" .empty) rfl rfl
  have hinner : Built ⟨⟨[.comparison ⟨"name", .equal, [.string "Ann"]⟩,
      .comparison ⟨"town", .between, [.string "Bern", .string "Rome"]⟩], [.and]⟩, none, false, none⟩
      [⟨"name", .equal, [.string "Ann"], false⟩,
        ⟨"town", .between, [.string "Bern", .string "Rome"], false⟩] :=
    .compare (.on "town" hname) rfl rfl
  let build : Condition → Except ConditionError Condition := fun inner => do
    let named ← (inner.on "name").compare .equal [.string "Ann"]
    (named.on "town").compare .between [.string "Bern", .string "Rome"]
  have hbuild : build .empty = .ok ⟨⟨[.comparison ⟨"name", .equal, [.string "Ann"]⟩,
      .comparison ⟨"town", .between, [.string "Bern", .string "Rome"]⟩], [.and]⟩, none, false,
      none⟩ := rfl
  exact .parenthesis (.join .or hage) hinner hbuild rfl

theorem Condition.wellFormed_of_built_adults : adults.root.WellFormed ∧
    List.Forall₂ Asked.RecordedAs
      [⟨"age", .less, [.string "18"], true⟩, ⟨"name", .equal, [.string "Ann"], false⟩,
        ⟨"town", .between, [.string "Bern", .string "Rome"], false⟩]
      (ConditionNode.allComparisons adults.root.children) ∧
    ∀ (mapper : Mapper Unit) (cause : MapperError), mapper.condition adults = .error cause →
      cause ≠ .ofCondition .missingBound :=
  have hadults := wellFormed_of_built built_adults
  ⟨hadults.1, hadults.2.1, fun mapper cause hcause => ((hadults.2.2 Unit mapper).2 cause hcause).1⟩

end ItemMapper
