import ItemMapper.Expression.Predicate
import ItemMapper.Proofs.AttributePath
import ItemMapper.Proofs.Expression.Lexeme

/-!
# Predicates and their layout

A condition that compiles means a predicate whose tests are well formed: each operator has as many
operands as it takes, and each path begins with a name (`Test.WellFormed`).  Both are needed to
read the layout of a predicate back.  A test of a group at any depth is one of `Predicate.tests`,
and what is said of the tests of a predicate is proved by recursion on its groups.
-/

namespace ItemMapper

variable {σ : Type}

/-! ## Tests of a predicate -/

/-- The operator has as many operands as it takes, and the path begins with a name. -/
structure Test.WellFormed (test : Test) : Prop where
  takes : test.op.takes test.operands.length = true
  named : ∃ name rest, test.path = .name name :: rest

namespace Predicate

mutual

/-- The tests of a predicate from left to right. -/
def tests : Predicate → List Test
  | .test leaf => [leaf]
  | .group first rest => tests first ++ restTests rest

/-- The tests of the predicates after the first one. -/
def restTests : List (Joiner × Predicate) → List Test
  | [] => []
  | (_, predicate) :: rest => tests predicate ++ restTests rest

end

theorem restTests_eq (rest : List (Joiner × Predicate)) :
    restTests rest = (rest.map Prod.snd).flatMap tests := by
  induction rest with
  | nil => rfl
  | cons member others ih => rw [restTests, ih, List.map_cons, List.flatMap_cons]

end Predicate

/-- The tests of the outermost group from left to right. -/
def PredicateChain.tests (chain : PredicateChain) : List Test :=
  chain.first.tests ++ Predicate.restTests chain.rest

namespace PredicateChain

theorem tests_toPredicate (chain : PredicateChain) : chain.toPredicate.tests = chain.tests := by
  unfold toPredicate
  split
  · next hrest =>
      rw [List.isEmpty_iff] at hrest
      rw [tests, hrest, Predicate.restTests, List.append_nil]
  · rw [Predicate.tests, tests]

/-- No test drops out of a chain: there is a joiner for each predicate but the first. -/
theorem tests_ofParts? (predicates : List Predicate) (joiners : List Joiner) :
    (ofParts? predicates joiners).toList.flatMap tests = predicates.flatMap Predicate.tests := by
  cases predicates with
  | nil => rfl
  | cons first others =>
      have hothers : others = ((joiners ++ List.replicate others.length Joiner.and).zip others).map
          Prod.snd := by
        rw [List.map_snd_zip]
        simp
      rw [ofParts?, Option.toList_some, List.flatMap_singleton, tests, Predicate.restTests_eq,
        ← hothers, List.flatMap_cons]

end PredicateChain

/-! ## Tests that conditions mean -/

namespace ConditionNode

mutual

/-- The comparisons of a member from left to right. -/
def comparisons : ConditionNode → List Comparison
  | .comparison leaf => [leaf]
  | .group children _ => allComparisons children

def allComparisons : List ConditionNode → List Comparison
  | [] => []
  | child :: rest => comparisons child ++ allComparisons rest

end

end ConditionNode

namespace Scope

variable {scope : Scope σ}

/-- A path of a schema begins with a name. -/
theorem named_of_lookup {path : String} {target : ResolvedPath σ}
    (hlookup : scope.lookup path = .ok target) :
    ∃ name rest, target.segments = .name name :: rest := by
  rcases lookup_cases hlookup with ⟨field, -, rfl⟩ | ⟨field, -, segment, rest, hsegments, -⟩ |
    ⟨name, rest, hsegments, -⟩
  · exact ⟨field.name, [], rfl⟩
  · exact ⟨field.name, segment :: rest, hsegments⟩
  · exact ⟨name, rest, hsegments⟩

theorem wellFormed_of_test {comparison : Comparison} {test : Test}
    (htest : scope.test comparison = .ok test) : test.WellFormed := by
  simp only [Scope.test, Except.bind_eq_ok] at htest
  obtain ⟨target, hlookup, operands, -, htest⟩ := htest
  split at htest
  · rename_i htakes
    obtain rfl := Except.pure_eq_ok.mp htest
    exact ⟨htakes, named_of_lookup hlookup⟩
  · split at htest <;> simp at htest

mutual

/-- The tests that a member of a condition means are those of its comparisons, one for each and in
their order, by recursion on its groups. -/
theorem forall₂_tests_of_predicate? : ∀ {node : ConditionNode} {result : Option Predicate},
    scope.predicate? node = .ok result →
      List.Forall₂ (fun comparison test => scope.test comparison = .ok test) node.comparisons
        (result.toList.flatMap Predicate.tests)
  | .comparison comparison, result, hresult => by
      simp only [Scope.predicate?, Except.bind_eq_ok, Except.pure_eq_ok] at hresult
      obtain ⟨leaf, hleaf, rfl⟩ := hresult
      exact .cons hleaf .nil
  | .group children joiners, result, hresult => by
      simp only [Scope.predicate?, Except.bind_eq_ok, Except.pure_eq_ok] at hresult
      obtain ⟨predicates, hpredicates, rfl⟩ := hresult
      have hmembers := forall₂_tests_of_predicates hpredicates
      rw [← PredicateChain.tests_ofParts? predicates joiners] at hmembers
      cases hchain : PredicateChain.ofParts? predicates joiners with
      | none => rwa [hchain] at hmembers
      | some chain =>
          rw [hchain] at hmembers
          simpa [PredicateChain.tests_toPredicate, ConditionNode.comparisons] using hmembers

theorem forall₂_tests_of_predicates : ∀ {nodes : List ConditionNode}
    {predicates : List Predicate}, scope.predicates nodes = .ok predicates →
      List.Forall₂ (fun comparison test => scope.test comparison = .ok test)
        (ConditionNode.allComparisons nodes) (predicates.flatMap Predicate.tests)
  | [], predicates, hpredicates => by
      obtain rfl := Except.ok.inj hpredicates
      exact .nil
  | node :: rest, predicates, hpredicates => by
      simp only [Scope.predicates, Except.bind_eq_ok, Except.pure_eq_ok] at hpredicates
      obtain ⟨first, hfirst, others, hothers, rfl⟩ := hpredicates
      rw [ConditionNode.allComparisons, List.flatMap_append]
      exact List.rel_append (forall₂_tests_of_predicate? hfirst)
        (forall₂_tests_of_predicates hothers)

end

theorem forall₂_tests_of_chain? {condition : Condition} {result : Option PredicateChain}
    (hresult : scope.chain? condition = .ok result) :
    List.Forall₂ (fun comparison test => scope.test comparison = .ok test)
      (ConditionNode.allComparisons condition.root.children)
      (result.toList.flatMap PredicateChain.tests) := by
  simp only [Scope.chain?, Except.bind_eq_ok, Except.pure_eq_ok] at hresult
  obtain ⟨-, -, predicates, hpredicates, rfl⟩ := hresult
  rw [PredicateChain.tests_ofParts?]
  exact forall₂_tests_of_predicates hpredicates

theorem exists_comparison_of_chain? {condition : Condition} {result : Option PredicateChain}
    (hresult : scope.chain? condition = .ok result) : ∀ chain ∈ result, ∀ test ∈ chain.tests,
      ∃ comparison ∈ ConditionNode.allComparisons condition.root.children,
        scope.test comparison = .ok test :=
  fun chain hchain _ htest => exists_related_right (forall₂_tests_of_chain? hresult)
    (List.mem_flatMap.mpr ⟨chain, Option.mem_toList.mpr hchain, htest⟩)

theorem wellFormed_of_chain? {condition : Condition} {result : Option PredicateChain}
    (hresult : scope.chain? condition = .ok result) :
    ∀ chain ∈ result, ∀ test ∈ chain.tests, test.WellFormed := by
  intro chain hchain test htest
  obtain ⟨_, -, htest⟩ := exists_comparison_of_chain? hresult chain hchain test htest
  exact wellFormed_of_test htest

end Scope

/-! ## Layout -/

/-- Which operators take two values or a list of them, in one place. -/
def Operator.isPlural : Operator → Bool
  | .between | .oneOf => true
  | _ => false

namespace Test

variable {test : Test}

/-- An operator with a single place takes at most one operand. -/
theorem WellFormed.operands_cases (htest : test.WellFormed) (hplural : test.op.isPlural = false) :
    test.operands = [] ∨ ∃ operand, test.operands = [operand] := by
  have htakes := htest.takes
  match hoperands : test.operands with
  | [] => exact .inl rfl
  | [operand] => exact .inr ⟨operand, rfl⟩
  | first :: second :: rest =>
      rw [hoperands] at htakes
      revert htakes hplural
      cases test.op <;> simp [Operator.takes, Operator.isPlural]

theorem spaced_call (hoperands : test.operands = [] ∨ ∃ operand, test.operands = [operand])
    {function : String} (hplain : Piece.isPlain (function ++ "(") = true) :
    Piece.Spaced (test.call function) := by
  rcases hoperands with hnone | ⟨operand, hone⟩
  · simp only [call, hnone, List.flatMap_nil, List.append_nil]
    exact ⟨hplain, (by decide : Piece.breaks ")" = true), by decide, trivial⟩
  · simp only [call, hone, List.flatMap_cons, List.flatMap_nil, List.append_nil]
    exact ⟨hplain, (by decide : Piece.breaks "," = true), by decide,
      (by decide : Piece.breaks ")" = true), by decide, trivial⟩

theorem spaced_infixed (hoperands : test.operands = [] ∨ ∃ operand, test.operands = [operand])
    {sign : String} (hplain : Piece.isPlain (" " ++ sign ++ " ") = true)
    (hbreaks : Piece.breaks (" " ++ sign ++ " ") = true) : Piece.Spaced (test.infixed sign) := by
  rcases hoperands with hnone | ⟨operand, hone⟩
  · simp only [infixed, hnone, List.map_nil]
    exact ⟨hbreaks, hplain, trivial⟩
  · simp only [infixed, hone, List.map_cons, List.map_nil]
    exact ⟨hbreaks, hplain, trivial, trivial⟩

theorem WellFormed.spaced (htest : test.WellFormed) : Piece.Spaced test.pieces := by
  have hoperands := htest.operands_cases
  revert hoperands
  unfold pieces
  cases test.op with
  | between => exact fun _ => ⟨(by decide : Piece.breaks " BETWEEN " = true), by decide,
      ⟨by decide, by decide⟩, trivial, trivial⟩
  | oneOf => exact fun _ => ⟨(by decide : Piece.breaks " IN (" = true), by decide,
      ⟨by decide, by decide⟩, (by decide : Piece.breaks ")" = true), by decide, trivial⟩
  | lacks => exact fun hoperands => ⟨by decide, spaced_call (hoperands rfl) (by decide)⟩
  | present => exact fun hoperands => spaced_call (hoperands rfl) (by decide)
  | absent => exact fun hoperands => spaced_call (hoperands rfl) (by decide)
  | beginsWith => exact fun hoperands => spaced_call (hoperands rfl) (by decide)
  | contains => exact fun hoperands => spaced_call (hoperands rfl) (by decide)
  | equal => exact fun hoperands => spaced_infixed (hoperands rfl) (by decide) (by decide)
  | notEqual => exact fun hoperands => spaced_infixed (hoperands rfl) (by decide) (by decide)
  | less => exact fun hoperands => spaced_infixed (hoperands rfl) (by decide) (by decide)
  | lessOrEqual => exact fun hoperands => spaced_infixed (hoperands rfl) (by decide) (by decide)
  | greater => exact fun hoperands => spaced_infixed (hoperands rfl) (by decide) (by decide)
  | greaterOrEqual => exact fun hoperands => spaced_infixed (hoperands rfl) (by decide) (by decide)

end Test

namespace Predicate

theorem breaks_joiner (joiner : Joiner) : Piece.isPlain (" " ++ joiner.name ++ " ") = true ∧
    Piece.breaks (" " ++ joiner.name ++ " ") = true := by
  cases joiner <;> decide

theorem ends_restPieces (rest : List (Joiner × Predicate)) {after : List Piece}
    (hafter : Piece.Ends after) : Piece.Ends (restPieces rest ++ after) := by
  cases rest with
  | nil => exact hafter
  | cons member others => exact (breaks_joiner member.1).2

mutual

theorem spaced_pieces : ∀ (predicate : Predicate),
    (∀ test ∈ predicate.tests, test.WellFormed) → Piece.Spaced predicate.pieces
  | .test leaf, htests => (htests leaf (by simp [tests])).spaced
  | .group first rest, htests => by
      have hfirst := spaced_pieces first fun test htest =>
        htests test (List.mem_append_left _ htest)
      have hrest := spaced_restPieces rest fun test htest =>
        htests test (List.mem_append_right _ htest)
      have hclose : Piece.Spaced [.text ")"] ∧ Piece.Ends [.text ")"] :=
        ⟨⟨by decide, trivial⟩, (by decide : Piece.breaks ")" = true)⟩
      exact ⟨by decide, hfirst.append (hrest.append hclose.1 hclose.2)
        (ends_restPieces rest hclose.2)⟩

theorem spaced_restPieces : ∀ (rest : List (Joiner × Predicate)),
    (∀ test ∈ restTests rest, test.WellFormed) → Piece.Spaced (restPieces rest)
  | [], _ => trivial
  | (joiner, predicate) :: rest, htests => by
      have hpredicate := spaced_pieces predicate fun test htest =>
        htests test (List.mem_append_left _ htest)
      have hrest := spaced_restPieces rest fun test htest =>
        htests test (List.mem_append_right _ htest)
      have hends := ends_restPieces rest (show Piece.Ends [] from trivial)
      rw [List.append_nil] at hends
      exact ⟨(breaks_joiner joiner).1, hpredicate.append hrest hends⟩

end

end Predicate

theorem PredicateChain.spaced_pieces {chain : PredicateChain}
    (htests : ∀ test ∈ chain.tests, test.WellFormed) : Piece.Spaced chain.pieces := by
  have hends := Predicate.ends_restPieces chain.rest (show Piece.Ends [] from trivial)
  rw [List.append_nil] at hends
  apply Piece.Spaced.append
  · exact Predicate.spaced_pieces _ fun test htest => htests test (List.mem_append_left _ htest)
  · exact Predicate.spaced_restPieces _ fun test htest =>
      htests test (List.mem_append_right _ htest)
  · exact hends

end ItemMapper
