import ItemMapper.Proofs.Expression.Numbering
import ItemMapper.Proofs.Update.Keys

/-!
# Placeholders of conditions and updates

Conditions and updates are laid out by separate rules, and an update writes its actions clause by
clause rather than in their order.  Both layouts are spaced, so that their placeholders fit their
tables (`CompiledExpression.numbered_ofPieces`).  What is left to say is where operands stand: a
comparison by `BETWEEN` or `IN` has one place for all of its operands, any other comparison and each
action have one for each, and `list_append` writes its path twice but its operand once.
-/

namespace ItemMapper

variable {σ : Type}

/-! ## Conditions -/

/-- The places of the operands of a test. -/
def Test.places (test : Test) : List OperandPlace :=
  if test.op.isPlural then [.several test.operands] else test.operands.map .single

/-- The pieces of a test without the fixed texts. -/
def Test.content (test : Test) : List Piece :=
  .path test.path ::
    match test.op with
    | .between => [.operands " AND " test.operands]
    | .oneOf => [.operands ", " test.operands]
    | _ => test.operands.map .operand

namespace Test

variable {β : Type} {pick : Piece → Option β} {test : Test}

theorem filterMap_call (htext : ∀ content, pick (.text content) = none) (function : String) :
    (test.call function).filterMap pick =
      (Piece.path test.path :: test.operands.map .operand).filterMap pick := by
  have hoperands : (test.operands.flatMap fun value => [Piece.text ",", .operand value]).filterMap
      pick = (test.operands.map Piece.operand).filterMap pick := by
    induction test.operands with
    | nil => rfl
    | cons operand rest ih =>
        rw [List.flatMap_cons, List.filterMap_append, ih, List.filterMap_cons_none (htext _),
          ← List.filterMap_append]
        rfl
  rw [call, List.filterMap_append, List.filterMap_append, hoperands,
    List.filterMap_cons_none (htext _), List.filterMap_cons_none (htext _), List.filterMap_nil,
    List.append_nil, ← List.filterMap_append]
  rfl

theorem filterMap_infixed (htext : ∀ content, pick (.text content) = none) (sign : String) :
    (test.infixed sign).filterMap pick =
      (Piece.path test.path :: test.operands.map .operand).filterMap pick := by
  rw [infixed, List.filterMap_cons, List.filterMap_cons_none (htext _), ← List.filterMap_cons]

/-- What is no fixed text stands in the content of a test. -/
theorem filterMap_pieces (htext : ∀ content, pick (.text content) = none) (test : Test) :
    test.pieces.filterMap pick = test.content.filterMap pick := by
  unfold pieces content
  cases test.op with
  | between =>
      rw [List.filterMap_cons, List.filterMap_cons_none (htext _), ← List.filterMap_cons]
  | oneOf =>
      rw [List.filterMap_cons, List.filterMap_cons_none (htext _), List.filterMap_cons,
        List.filterMap_cons_none (htext _), ← List.filterMap_cons, ← List.filterMap_cons]
  | lacks => rw [List.filterMap_cons_none (htext _), filterMap_call htext]
  | present | absent | beginsWith | contains => exact filterMap_call htext _
  | _ => exact filterMap_infixed htext _

theorem places_pieces (test : Test) : test.pieces.filterMap Piece.place? = test.places := by
  have hsingle : (test.operands.map Piece.operand).filterMap Piece.place? =
      test.operands.map .single := by
    rw [List.filterMap_map, ← List.filterMap_eq_map]
    rfl
  rw [filterMap_pieces fun _ => rfl, content, List.filterMap_cons_none (by rfl), places]
  cases test.op with
  | between | oneOf => rfl
  | _ => exact hsingle

end Test

namespace Predicate

variable {β : Type} {pick : Piece → Option β}

mutual

/-- What is no fixed text stands in the tests of a predicate. -/
theorem filterMap_pieces (htext : ∀ content, pick (.text content) = none) :
    ∀ predicate : Predicate, predicate.pieces.filterMap pick =
      predicate.tests.flatMap fun test => test.pieces.filterMap pick
  | .test leaf => by
      rw [pieces, tests, List.flatMap_singleton]
  | .group first rest => by
      rw [pieces, List.filterMap_cons_none (htext _), List.filterMap_append, List.filterMap_append,
        filterMap_pieces htext first, filterMap_restPieces htext rest,
        List.filterMap_cons_none (htext _), List.filterMap_nil, List.append_nil, tests,
        List.flatMap_append]

theorem filterMap_restPieces (htext : ∀ content, pick (.text content) = none) :
    ∀ rest : List (Joiner × Predicate), (restPieces rest).filterMap pick =
      (restTests rest).flatMap fun test => test.pieces.filterMap pick
  | [] => rfl
  | (_, predicate) :: rest => by
      rw [restPieces, List.filterMap_cons_none (htext _), List.filterMap_append,
        filterMap_pieces htext predicate, filterMap_restPieces htext rest, restTests,
        List.flatMap_append]

end

end Predicate

theorem PredicateChain.filterMap_pieces {β : Type} {pick : Piece → Option β}
    (htext : ∀ content, pick (.text content) = none) (chain : PredicateChain) :
    chain.pieces.filterMap pick = chain.tests.flatMap fun test => test.pieces.filterMap pick := by
  rw [pieces, List.filterMap_append, Predicate.filterMap_pieces htext,
    Predicate.filterMap_restPieces htext, tests, List.flatMap_append]

/-- The text of a condition fits its tables. -/
theorem Scope.numbered_of_compileCondition {scope : Scope σ} {condition : Condition}
    {compiled : CompiledExpression} (hcompiled : scope.compileCondition condition = .ok compiled) :
    ∃ chain, scope.chain? condition = .ok chain ∧
      compiled.Numbered (((chain.map PredicateChain.tests).getD []).flatMap Test.places) := by
  simp only [compileCondition, Except.bind_eq_ok, Except.pure_eq_ok] at hcompiled
  obtain ⟨chain, hchain, rfl⟩ := hcompiled
  refine ⟨chain, hchain, ?_⟩
  cases chain with
  | none => exact CompiledExpression.numbered_ofPieces (show Piece.Spaced [] from trivial)
  | some chain =>
      have hplaces : chain.pieces.filterMap Piece.place? = chain.tests.flatMap Test.places := by
        rw [chain.filterMap_pieces fun _ => rfl]
        simp only [Test.places_pieces]
      have hnumbered := CompiledExpression.numbered_ofPieces
        (PredicateChain.spaced_pieces (wellFormed_of_chain? hchain chain rfl))
      rwa [hplaces] at hnumbered

/-! ## Updates -/

namespace Piece

/-- Layouts with a break between each two of them. -/
theorem spaced_intercalate {separator : String} (hplain : isPlain separator = true)
    (hbreaks : breaks separator = true) {parts : List (List Piece)}
    (hparts : ∀ part ∈ parts, Spaced part) : Spaced ([.text separator].intercalate parts) := by
  induction parts with
  | nil => trivial
  | cons first rest ih =>
      have hfirst := hparts first (by simp)
      cases rest with
      | nil => simpa using hfirst
      | cons second more =>
          rw [List.intercalate_cons_cons, List.append_assoc]
          exact hfirst.append ⟨hplain, ih fun part hpart => hparts part (by simp [hpart])⟩ hbreaks

/-- No operand stands between the parts. -/
theorem places_intercalate (separator : String) (parts : List (List Piece)) :
    ([.text separator].intercalate parts).filterMap place? =
      parts.flatMap (List.filterMap place?) := by
  induction parts with
  | nil => rfl
  | cons first rest ih =>
      cases rest with
      | nil => simp
      | cons second more =>
          rw [List.intercalate_cons_cons, List.append_assoc, List.filterMap_append,
            List.flatMap_cons, ← ih]
          rfl

end Piece

namespace Action

/-- What an action adds, sets or deletes. -/
def operand? : Action → Option WireValue
  | .remove _ => none
  | .add _ operand | .set _ operand | .append _ operand | .delete _ operand => some operand

/-- The operands of some actions, clause by clause. -/
def clauseOperands (actions : List Action) : List WireValue :=
  Clause.all.flatMap fun clause =>
    (actions.filter fun action => action.clause = clause).filterMap operand?

theorem spaced_pieces (action : Action) : Piece.Spaced action.pieces := by
  have hspace : Piece.breaks " " = true ∧ Piece.isPlain " " = true := by decide
  have hequals : Piece.breaks " = " = true ∧ Piece.isPlain " = " = true := by decide
  have happend : Piece.breaks " = list_append(" = true ∧
      Piece.isPlain " = list_append(" = true := by decide
  have hcomma : Piece.breaks ", " = true ∧ Piece.isPlain ", " = true := by decide
  have hclose : Piece.breaks ")" = true ∧ Piece.isPlain ")" = true := by decide
  cases action with
  | add path operand => exact ⟨hspace.1, hspace.2, trivial, trivial⟩
  | delete path operand => exact ⟨hspace.1, hspace.2, trivial, trivial⟩
  | remove path => exact ⟨trivial, trivial⟩
  | set path operand => exact ⟨hequals.1, hequals.2, trivial, trivial⟩
  | append path operand =>
      exact ⟨happend.1, happend.2, hcomma.1, hcomma.2, hclose.1, hclose.2, trivial⟩

theorem places_pieces (action : Action) :
    action.pieces.filterMap Piece.place? = (action.operand?.map OperandPlace.single).toList := by
  cases action <;> rfl

/-- A clause without actions has no text, and no operands either. -/
theorem clause_layout (actions : List Action) (clause : Clause) :
    (∀ pieces ∈ clausePieces? actions clause, Piece.Spaced pieces) ∧
      ((clausePieces? actions clause).getD []).filterMap Piece.place? =
        ((actions.filter fun action => action.clause = clause).filterMap operand?).map .single := by
  unfold clausePieces?
  generalize actions.filter (fun action => action.clause = clause) = members
  have hkeyword : Piece.isPlain (clause.keyword ++ " ") = true := by cases clause <;> decide
  have hspaced : Piece.Spaced ([.text ", "].intercalate (members.map pieces)) := by
    apply Piece.spaced_intercalate (by decide) (by decide)
    intro part hpart
    obtain ⟨action, -, rfl⟩ := List.mem_map.mp hpart
    exact action.spaced_pieces
  have hplaces : ([Piece.text ", "].intercalate (members.map pieces)).filterMap Piece.place? =
      (members.filterMap operand?).map .single := by
    rw [Piece.places_intercalate, List.flatMap_map]
    -- an appended list prints its path twice, but its operand only once
    clear hspaced
    induction members with
    | nil => rfl
    | cons action rest ih =>
        rw [List.flatMap_cons, places_pieces, ih]
        cases action <;> rfl
  cases members with
  | nil => exact ⟨by simp, rfl⟩
  | cons first rest =>
      constructor
      · intro layout hlayout
        obtain rfl := Option.some.inj hlayout
        exact ⟨hkeyword, hspaced⟩
      · exact hplaces

theorem spaced_updatePieces (actions : List Action) : Piece.Spaced (updatePieces actions) := by
  apply Piece.spaced_intercalate (by decide) (by decide)
  intro part hpart
  obtain ⟨clause, -, hclause⟩ := List.mem_filterMap.mp hpart
  exact (clause_layout actions clause).1 part hclause

theorem places_updatePieces (actions : List Action) :
    (updatePieces actions).filterMap Piece.place? = (clauseOperands actions).map .single := by
  rw [updatePieces, Piece.places_intercalate, clauseOperands]
  induction Clause.all with
  | nil => rfl
  | cons clause rest ih =>
      rw [List.flatMap_cons, List.map_append, ← ih, ← (clause_layout actions clause).2]
      cases hclause : clausePieces? actions clause with
      | none => rw [List.filterMap_cons_none hclause]; rfl
      | some layout => rw [List.filterMap_cons_some hclause, List.flatMap_cons]; rfl

end Action

/-! ## Compiled expressions -/

/-- Every condition and every update that compiles has a text that fits its tables. -/
theorem Mapper.placeholders_numbered (mapper : Mapper σ) :
    (∀ condition compiled, mapper.condition condition = .ok compiled →
      ∃ chain, mapper.scope.chain? condition = .ok chain ∧
        compiled.Numbered (((chain.map PredicateChain.tests).getD []).flatMap Test.places)) ∧
    ∀ writing current changes before compiled after,
      (mapper.update writing current changes).Yields before compiled after →
        ∃ actions,
          (mapper.scope.updateActions writing current changes).Yields before actions after ∧
          compiled.Numbered ((Action.clauseOperands actions).map .single) := by
  constructor
  · intro condition compiled hcompiled
    exact Scope.numbered_of_compileCondition hcompiled
  · intro writing current changes before compiled after hrun
    obtain ⟨actions, hactions, rfl⟩ := actions_of_yields_update hrun
    refine ⟨actions, hactions, ?_⟩
    rw [← Action.places_updatePieces]
    exact CompiledExpression.numbered_ofPieces (Action.spaced_updatePieces actions)

/-! ## A condition and an update with shared paths -/

/-- Articles with labels and with readings inside a nested object. -/
def SchemaOf.article : Schema Unit where
  attributes := [.plain "id" [.primitive .string],
    .plain "labels" [.array [.primitive .string]],
    .plain "info" [.object ⟨[.plain "views" [.primitive .number],
      .plain "state" [.primitive .string]], .disabled, none⟩]]
  keepUnknown := .disabled
  timestamps := none

/-- The mapper of the only model, which has the schema `SchemaOf.article`. -/
def Mapper.articles : Mapper Unit :=
  ⟨⟨[⟨"Article", .article, none⟩]⟩, ⟨"Article", .article, none⟩⟩

/-- The paths of `info` share a placeholder, and each comparison has a place of its own. -/
def Condition.article : Condition where
  root := ⟨[.comparison ⟨"info.views", .between, [.number (.ofInt 1), .number (.ofInt 9)]⟩,
    .comparison ⟨"info.state", .oneOf, [.string "new", .string "old"]⟩,
    .comparison ⟨"info.views", .notEqual, [.number (.ofInt 5)]⟩], [.or, .and]⟩
  pending := none
  negated := false
  joiner := none

theorem Mapper.placeholders_numbered_articles :
    (∃ chain, articles.scope.chain? .article = .ok chain ∧
      CompiledExpression.Numbered
        ⟨"#a0.#a1 BETWEEN :v0_1 AND :v0_2 OR #a0.#a2 IN (:v1_1, :v1_2) AND #a0.#a1 <> :v2",
        [("#a0", "info"), ("#a1", "views"), ("#a2", "state")],
        [(":v0_1", .number "1"), (":v0_2", .number "9"), (":v1_1", .string "new"),
          (":v1_2", .string "old"), (":v2", .number "5")]⟩
        (((chain.map PredicateChain.tests).getD []).flatMap Test.places)) ∧
    ∃ actions, (articles.scope.updateActions ⟨.update, .epoch, 0⟩ []
        [("$ADD", .map [("info.views", .number (.ofInt 1)), ("labels", .string "x")]),
          ("info.state", .string "old")]).Yields () actions () ∧
      CompiledExpression.Numbered
        ⟨"ADD #a0.#a1 :v0 SET #a2 = list_append(#a2, :v1), #a0.#a3 = :v2",
        [("#a0", "info"), ("#a1", "views"), ("#a2", "labels"), ("#a3", "state")],
        [(":v0", .number "1"), (":v1", .list [.string "x"]), (":v2", .string "old")]⟩
        ((Action.clauseOperands actions).map .single) :=
  ⟨(placeholders_numbered articles).1 .article _ (Except.toOption_eq_some.mp (by decide +kernel)),
    (placeholders_numbered articles).2 ⟨.update, .epoch, 0⟩ [] _ () _ ()
      (Pipeline.yields_of_value? (by decide +kernel))⟩

end ItemMapper
