import ItemMapper.Mapper
import ItemMapper.Proofs.Expression.Predicate
import ItemMapper.Proofs.Expression.Symbols

/-!
# Conditions can be read back

The text of a condition with its tables determines the predicate that was compiled: its groups, its
joiners, its tests with their operators, paths and operands.

Expressions that are equal say the same (`CompiledExpression.symbols_ofPieces`), so it is enough
that no two predicates are laid out alike.  `Predicate.symbols_inj` states it for predicates that
are followed by anything, which lets the argument walk through a group member by member.  The
delicate points are these.  After a path something stands that goes on no path, so its end can be
seen (`Symbol.ofPath_inj`).  The `AND` of `BETWEEN` is met only while the second bound is awaited.
A joiner begins with a space and the end of a group does not, so the last member can be told.
-/

namespace ItemMapper

variable {σ : Type}

namespace Symbol

/-- A character, no name and no operand. -/
def IsChar : Symbol → Prop
  | .char _ => True
  | _ => False

theorem isChar_of_mem_ofText {content : String} : ∀ symbol ∈ ofText content, symbol.IsChar := by
  intro symbol hsymbol
  obtain ⟨c, -, rfl⟩ := List.mem_map.mp hsymbol
  trivial

theorem ofText_inj {first second : String} (heq : ofText first = ofText second) :
    first = second := by
  apply String.toList_inj.mp
  exact List.map_injective_iff.mpr (fun _ _ h => Symbol.char.inj h) heq

/-! ## Paths -/

/-- No step of a path begins like this. -/
def EndsPath (rest : List Symbol) : Prop :=
  rest.head? ≠ some (.char '.') ∧ rest.head? ≠ some (.char '[')

theorem ofText_index (position : Nat) (rest : List Symbol) :
    ofText ("[" ++ toString position ++ "]") ++ rest =
      .char '[' :: ((toString position).toList.map .char ++ .char ']' :: rest) := by
  simp [ofText, String.toList_append]

/-- The position between two brackets. -/
theorem index_inj {first second : Nat} {rest other : List Symbol}
    (heq : ofText ("[" ++ toString first ++ "]") ++ rest =
      ofText ("[" ++ toString second ++ "]") ++ other) : first = second ∧ rest = other := by
  rw [ofText_index, ofText_index] at heq
  have hdigits : ∀ number : Nat, ∀ symbol ∈ (toString number).toList.map Symbol.char,
      ∃ c : Char, c.isDigit = true ∧ symbol = .char c := by
    intro number symbol hsymbol
    obtain ⟨c, hc, rfl⟩ := List.mem_map.mp hsymbol
    exact ⟨c, Token.isDigit_of_mem_digits number c hc, rfl⟩
  have hbracket : ¬ ∃ c : Char, c.isDigit = true ∧ Symbol.char ']' = .char c := by
    rintro ⟨c, hc, heq⟩
    obtain rfl := Symbol.char.inj heq
    exact absurd hc (by decide)
  obtain ⟨hnumber, -, hrest⟩ := append_cons_inj (hdigits first) (hdigits second) hbracket hbracket
    (List.cons.inj heq).2
  have hchars := List.map_injective_iff.mpr (fun _ _ h => Symbol.char.inj h) hnumber
  exact ⟨Token.toString_inj (String.toList_inj.mp hchars), hrest⟩

theorem not_endsPath_ofSteps (segment : Segment) (steps : List Segment) (rest : List Symbol) :
    ¬ EndsPath (ofSteps (segment :: steps) ++ rest) := by
  cases segment with
  | name label => exact fun hends => hends.1 rfl
  | index position =>
      intro hends
      rw [ofSteps, List.append_assoc, ofText_index] at hends
      exact hends.2 rfl

theorem ofSteps_inj {first second : List Segment} {rest other : List Symbol}
    (hrest : EndsPath rest) (hother : EndsPath other)
    (heq : ofSteps first ++ rest = ofSteps second ++ other) : first = second ∧ rest = other := by
  induction first generalizing second with
  | nil =>
      cases second with
      | nil => exact ⟨rfl, heq⟩
      | cons segment steps =>
          rw [ofSteps, List.nil_append] at heq
          exact absurd (heq ▸ hrest) (not_endsPath_ofSteps segment steps other)
  | cons segment steps ih =>
      cases second with
      | nil =>
          rw [ofSteps.eq_def [], List.nil_append] at heq
          exact absurd (heq ▸ hother) (not_endsPath_ofSteps segment steps rest)
      | cons segment' steps' =>
          cases segment with
          | name label =>
              cases segment' with
              | name label' =>
                  obtain ⟨hname, hsteps⟩ := List.cons.inj (List.cons.inj heq).2
                  obtain ⟨rfl, hrest⟩ := ih hsteps
                  exact ⟨by rw [Symbol.name.inj hname], hrest⟩
              | index position =>
                  rw [ofSteps, ofSteps, List.append_assoc _ (ofSteps steps'), ofText_index] at heq
                  exact absurd (Symbol.char.inj (List.cons.inj heq).1) (by decide)
          | index position =>
              cases segment' with
              | name label =>
                  rw [ofSteps, ofSteps, List.append_assoc _ (ofSteps steps), ofText_index] at heq
                  exact absurd (Symbol.char.inj (List.cons.inj heq).1) (by decide)
              | index position' =>
                  rw [ofSteps, ofSteps, List.append_assoc, List.append_assoc] at heq
                  obtain ⟨rfl, hsteps⟩ := index_inj heq
                  obtain ⟨rfl, hrest⟩ := ih hsteps
                  exact ⟨rfl, hrest⟩

/-! ## Operands -/

/-- The operands after the first one. -/
def ofOthers (separator : String) (operands : List WireValue) : List Symbol :=
  operands.flatMap fun operand => ofText separator ++ [.value operand]

theorem ofMembers_cons (separator : String) (operand : WireValue) (others : List WireValue) :
    ofMembers separator (operand :: others) = .value operand :: ofOthers separator others := by
  induction others generalizing operand with
  | nil => rfl
  | cons next rest ih =>
      have hsplit : ofMembers separator (operand :: next :: rest) =
          .value operand :: (ofText separator ++ ofMembers separator (next :: rest)) := rfl
      rw [hsplit, ih next, ofOthers, ofOthers, List.flatMap_cons, List.append_assoc]
      rfl

theorem head?_ofOthers {separator : String} {mark : Char} {chars : List Char}
    (hseparator : separator.toList = mark :: chars) (operand : WireValue)
    (others : List WireValue) (rest : List Symbol) :
    (ofOthers separator (operand :: others) ++ rest).head? = some (.char mark) := by
  simp [ofOthers, ofText, hseparator]

/-- Operands are the same if there are as many of them, or if a bracket follows both times. -/
theorem ofOthers_inj {separator : String} {mark : Char} {chars : List Char}
    (hseparator : separator.toList = mark :: chars) (hmark : mark ≠ ')')
    {first second : List WireValue} {rest other : List Symbol}
    (hend : first.length = second.length ∨
      rest.head? = some (.char ')') ∧ other.head? = some (.char ')'))
    (heq : ofOthers separator first ++ rest = ofOthers separator second ++ other) :
    first = second ∧ rest = other := by
  have hbracket : (some (Symbol.char mark)) ≠ some (.char ')') :=
    fun h => hmark (Symbol.char.inj (Option.some.inj h))
  induction first generalizing second with
  | nil =>
      cases second with
      | nil => exact ⟨rfl, heq⟩
      | cons operand others =>
          have hhead := head?_ofOthers hseparator operand others other
          rw [← heq] at hhead
          rcases hend with hlength | hend
          · simp at hlength
          · exact absurd (hhead.symm.trans hend.1) hbracket
  | cons operand others ih =>
      cases second with
      | nil =>
          have hhead := head?_ofOthers hseparator operand others rest
          rw [heq] at hhead
          rcases hend with hlength | hend
          · simp at hlength
          · exact absurd (hhead.symm.trans hend.2) hbracket
      | cons operand' others' =>
          simp only [ofOthers, List.flatMap_cons, List.append_assoc] at heq
          obtain ⟨hvalue, hothers⟩ := List.cons.inj (List.append_cancel_left heq)
          obtain ⟨rfl, hrest⟩ := ih (hend.imp (by simp) id) hothers
          exact ⟨by rw [Symbol.value.inj hvalue], hrest⟩

end Symbol

/-! ## Tests -/

namespace Operator

/-- The text before the path. -/
def opening : Operator → String
  | .present => "attribute_exists("
  | .absent => "attribute_not_exists("
  | .beginsWith => "begins_with("
  | .contains => "contains("
  | .lacks => "NOT contains("
  | _ => ""

/-- The text between the path and the operands. -/
def sign : Operator → String
  | .equal => " = "
  | .notEqual => " <> "
  | .less => " < "
  | .lessOrEqual => " <= "
  | .greater => " > "
  | .greaterOrEqual => " >= "
  | .present | .absent => ")"
  | .beginsWith | .contains | .lacks => ","
  | .between => " BETWEEN "
  | .oneOf => " IN ("

/-- The text between two operands. -/
def separator : Operator → String
  | .between => " AND "
  | _ => ", "

/-- The text after the operands. -/
def closing : Operator → String
  | .beginsWith | .contains | .lacks | .oneOf => ")"
  | _ => ""

/-- What stands around the path tells the operator. -/
theorem eq_of_opening_sign {first second : Operator} (hopening : first.opening = second.opening)
    (hsign : first.sign = second.sign) : first = second := by
  revert hopening hsign
  cases first <;> cases second <;> decide

/-- Operators without operands stand before the path. -/
theorem eq_of_takes_zero {first second : Operator} (hnone : first.takes 0 = true)
    (hopening : first.opening = second.opening) : first = second := by
  revert hnone hopening
  cases first <;> cases second <;> decide

theorem takes_zero {op : Operator} (hnone : op.takes 0 = true) {count : Nat}
    (htakes : op.takes count = true) : count = 0 := by
  revert hnone htakes
  cases op <;> simp [takes]

/-- Only a list of operands can have different lengths. -/
theorem eq_of_takes {op : Operator} {first second : Nat} (hfirst : op.takes first = true)
    (hsecond : op.takes second = true) : first = second ∨ op = .oneOf := by
  revert hfirst hsecond
  cases op <;> simp [takes] <;> omega

/-- Nothing that follows a path goes on with it. -/
theorem endsPath_sign (op : Operator) (rest : List Symbol) :
    Symbol.EndsPath (Symbol.ofText op.sign ++ rest) := by
  have hhead : ∃ c, op.sign.toList.head? = some c ∧ c ≠ '.' ∧ c ≠ '[' := by
    cases op <;> exact ⟨_, rfl, by decide, by decide⟩
  obtain ⟨c, hc, hdot, hbracket⟩ := hhead
  obtain ⟨chars, hchars⟩ := List.head?_eq_some_iff.mp hc
  have hfirst : (Symbol.ofText op.sign ++ rest).head? = some (.char c) := by
    simp [Symbol.ofText, hchars]
  rw [Symbol.EndsPath, hfirst]
  constructor
  · exact fun h => hdot (Symbol.char.inj (Option.some.inj h))
  · exact fun h => hbracket (Symbol.char.inj (Option.some.inj h))

end Operator

namespace Test

/-- What a test says. -/
def symbols (test : Test) : List Symbol :=
  Symbol.ofText test.op.opening ++ (Symbol.ofPath test.path ++ (Symbol.ofText test.op.sign ++
    (Symbol.ofMembers test.op.separator test.operands ++ Symbol.ofText test.op.closing)))

/-- The layout of a test says what the test says. -/
theorem symbols_pieces {test : Test} (htest : test.WellFormed) :
    test.pieces.flatMap Piece.symbols = test.symbols := by
  have htakes := htest.takes
  obtain ⟨path, op, operands⟩ := test
  cases op with
  | between | oneOf =>
      simp [pieces, symbols, Piece.symbols, Operator.opening, Operator.sign, Operator.separator,
        Operator.closing, Symbol.ofText]
  | present | absent =>
      obtain rfl : operands = [] := by simpa [Operator.takes] using htakes
      simp [pieces, call, symbols, Piece.symbols, Operator.opening, Operator.sign,
        Operator.closing, Symbol.ofText, Symbol.ofMembers]
  | beginsWith | contains | lacks =>
      obtain ⟨operand, rfl⟩ := List.length_eq_one_iff.mp (by simpa [Operator.takes] using htakes)
      simp [pieces, call, symbols, Piece.symbols, Operator.opening, Operator.sign,
        Operator.closing, Symbol.ofText, Symbol.ofMembers]
  | _ =>
      obtain ⟨operand, rfl⟩ := List.length_eq_one_iff.mp (by simpa [Operator.takes] using htakes)
      simp [pieces, infixed, symbols, Piece.symbols, Operator.opening, Operator.sign,
        Operator.closing, Symbol.ofText, Symbol.ofMembers]

/-- The path of a test is the first thing in it that is no character. -/
theorem symbols_eq {test : Test} {name : String} {steps : List Segment}
    (hpath : test.path = .name name :: steps) (rest : List Symbol) :
    test.symbols ++ rest = Symbol.ofText test.op.opening ++ .name name :: (Symbol.ofSteps steps ++
      (Symbol.ofText test.op.sign ++ (Symbol.ofMembers test.op.separator test.operands ++
        (Symbol.ofText test.op.closing ++ rest)))) := by
  simp [symbols, hpath, Symbol.ofPath]

/-- The operands that follow the sign of an operator are read back. -/
theorem operands_inj {op : Operator} {first second : List WireValue} {rest other : List Symbol}
    (hfirst : op.takes first.length = true) (hsecond : op.takes second.length = true)
    (heq : Symbol.ofMembers op.separator first ++ (Symbol.ofText op.closing ++ rest) =
      Symbol.ofMembers op.separator second ++ (Symbol.ofText op.closing ++ other)) :
    first = second ∧ rest = other := by
  cases first with
  | nil =>
      obtain rfl := List.eq_nil_of_length_eq_zero (Operator.takes_zero hfirst hsecond)
      exact ⟨rfl, List.append_cancel_left heq⟩
  | cons operand others =>
      cases second with
      | nil => exact absurd (Operator.takes_zero hsecond hfirst) (by simp)
      | cons operand' others' =>
          have hend : others.length = others'.length ∨
              (Symbol.ofText op.closing ++ rest).head? = some (.char ')') ∧
                (Symbol.ofText op.closing ++ other).head? = some (.char ')') := by
            rcases Operator.eq_of_takes hfirst hsecond with hlength | rfl
            · exact .inl (by simpa using hlength)
            · exact .inr ⟨rfl, rfl⟩
          have hseparator : ∃ mark chars, op.separator.toList = mark :: chars ∧ mark ≠ ')' := by
            cases op <;> exact ⟨_, _, rfl, by decide⟩
          obtain ⟨mark, chars, hchars, hmark⟩ := hseparator
          rw [Symbol.ofMembers_cons, Symbol.ofMembers_cons] at heq
          obtain ⟨hoperand, hothers⟩ := List.cons.inj heq
          obtain ⟨rfl, hclosing⟩ := Symbol.ofOthers_inj hchars hmark hend hothers
          exact ⟨by rw [Symbol.value.inj hoperand], List.append_cancel_left hclosing⟩

/-- Texts before operands are told apart by where the operands begin. -/
theorem sign_eq {first second : Test} {rest other : List Symbol} (hfirst : first.operands ≠ [])
    (hsecond : second.operands ≠ [])
    (heq : Symbol.ofText first.op.sign ++
        (Symbol.ofMembers first.op.separator first.operands ++ rest) =
      Symbol.ofText second.op.sign ++
        (Symbol.ofMembers second.op.separator second.operands ++ other)) :
    first.op.sign = second.op.sign := by
  obtain ⟨operand, others, hoperands⟩ := List.exists_cons_of_ne_nil hfirst
  obtain ⟨operand', others', hoperands'⟩ := List.exists_cons_of_ne_nil hsecond
  rw [hoperands, hoperands', Symbol.ofMembers_cons, Symbol.ofMembers_cons] at heq
  exact Symbol.ofText_inj (append_cons_inj Symbol.isChar_of_mem_ofText Symbol.isChar_of_mem_ofText
    (by simp [Symbol.IsChar]) (by simp [Symbol.IsChar]) heq).1

/-- A test is determined by what begins with it. -/
theorem symbols_inj {first second : Test} (hfirst : first.WellFormed)
    (hsecond : second.WellFormed) {rest other : List Symbol}
    (heq : first.symbols ++ rest = second.symbols ++ other) : first = second ∧ rest = other := by
  obtain ⟨name, steps, hpath⟩ := hfirst.named
  obtain ⟨name', steps', hpath'⟩ := hsecond.named
  rw [symbols_eq hpath, symbols_eq hpath'] at heq
  obtain ⟨hopening, hname, hafter⟩ := append_cons_inj Symbol.isChar_of_mem_ofText
    Symbol.isChar_of_mem_ofText (by simp [Symbol.IsChar]) (by simp [Symbol.IsChar]) heq
  obtain ⟨hsteps, hsign⟩ := Symbol.ofSteps_inj (Operator.endsPath_sign _ _)
    (Operator.endsPath_sign _ _) hafter
  have htexts := Symbol.ofText_inj hopening
  have hop : first.op = second.op := by
    by_cases hnone : first.operands = []
    · have htakes := hfirst.takes
      rw [hnone] at htakes
      exact Operator.eq_of_takes_zero htakes htexts
    · by_cases hnone' : second.operands = []
      · have htakes := hsecond.takes
        rw [hnone'] at htakes
        exact (Operator.eq_of_takes_zero htakes htexts.symm).symm
      · exact Operator.eq_of_opening_sign htexts (sign_eq hnone hnone' hsign)
  have htakes := hsecond.takes
  rw [← hop] at hsign htakes
  obtain ⟨hoperands, hrest⟩ := operands_inj hfirst.takes htakes (List.append_cancel_left hsign)
  have hpaths : first.path = second.path := by
    rw [hpath, hpath', hsteps, Symbol.name.inj hname]
  obtain ⟨path, op, operands⟩ := first
  obtain ⟨path', op', operands'⟩ := second
  obtain rfl : path = path' := hpaths
  obtain rfl : op = op' := hop
  obtain rfl : operands = operands' := hoperands
  exact ⟨rfl, hrest⟩

end Test

/-! ## Groups -/

namespace Predicate

mutual

/-- What a predicate says. -/
def symbols : Predicate → List Symbol
  | .test leaf => leaf.symbols
  | .group first rest =>
    .char '(' :: (symbols first ++ (restSymbols rest ++ [.char ')']))

/-- What the predicates after the first one say. -/
def restSymbols : List (Joiner × Predicate) → List Symbol
  | [] => []
  | (joiner, predicate) :: rest =>
    Symbol.ofText (" " ++ joiner.name ++ " ") ++ (symbols predicate ++ restSymbols rest)

end

mutual

theorem symbols_pieces : ∀ (predicate : Predicate),
    (∀ test ∈ predicate.tests, test.WellFormed) →
      predicate.pieces.flatMap Piece.symbols = predicate.symbols
  | .test leaf, htests => Test.symbols_pieces (htests leaf (by simp [tests]))
  | .group first rest, htests => by
      have hfirst := symbols_pieces first fun test htest =>
        htests test (List.mem_append_left _ htest)
      have hrest := symbols_restPieces rest fun test htest =>
        htests test (List.mem_append_right _ htest)
      rw [pieces, List.flatMap_cons, List.flatMap_append, List.flatMap_append, hfirst, hrest]
      rfl

theorem symbols_restPieces : ∀ (rest : List (Joiner × Predicate)),
    (∀ test ∈ restTests rest, test.WellFormed) →
      (restPieces rest).flatMap Piece.symbols = restSymbols rest
  | [], _ => rfl
  | (joiner, predicate) :: rest, htests => by
      have hpredicate := symbols_pieces predicate fun test htest =>
        htests test (List.mem_append_left _ htest)
      have hrest := symbols_restPieces rest fun test htest =>
        htests test (List.mem_append_right _ htest)
      rw [restPieces, List.flatMap_cons, List.flatMap_append, hpredicate, hrest]
      rfl

end

/-- No test begins with a parenthesis. -/
theorem head?_test {test : Test} (htest : test.WellFormed) (rest : List Symbol) :
    (test.symbols ++ rest).head? ≠ some (.char '(') := by
  obtain ⟨name, steps, hpath⟩ := htest.named
  rw [Test.symbols_eq hpath]
  generalize Symbol.ofSteps steps ++ _ = after
  cases test.op <;> simp [Operator.opening, Symbol.ofText]

theorem joiner_inj {first second : Joiner} {rest other : List Symbol}
    (heq : Symbol.ofText (" " ++ first.name ++ " ") ++ rest =
      Symbol.ofText (" " ++ second.name ++ " ") ++ other) : first = second ∧ rest = other := by
  cases first <;> cases second <;> simp_all [Joiner.name, Symbol.ofText]

theorem head?_restSymbols (joiner : Joiner) (predicate : Predicate)
    (rest : List (Joiner × Predicate)) (after : List Symbol) :
    (restSymbols ((joiner, predicate) :: rest) ++ after).head? = some (.char ' ') := by
  cases joiner <;> rfl

mutual

/-- A predicate is determined by what begins with it, by recursion on its groups. -/
theorem symbols_inj : ∀ {first second : Predicate} {rest other : List Symbol},
    (∀ test ∈ first.tests, test.WellFormed) → (∀ test ∈ second.tests, test.WellFormed) →
      first.symbols ++ rest = second.symbols ++ other → first = second ∧ rest = other
  | .test leaf, .test leaf', rest, other, hfirst, hsecond, heq => by
      obtain ⟨rfl, hrest⟩ := Test.symbols_inj (hfirst leaf (by simp [tests]))
        (hsecond leaf' (by simp [tests])) heq
      exact ⟨rfl, hrest⟩
  | .test leaf, .group _ _, rest, other, hfirst, _, heq => by
      -- only a group begins with a parenthesis
      refine absurd ?_ (head?_test (hfirst leaf (by simp [tests])) rest)
      exact (congrArg List.head? heq).trans rfl
  | .group _ _, .test leaf, rest, other, _, hsecond, heq => by
      refine absurd ?_ (head?_test (hsecond leaf (by simp [tests])) other)
      exact (congrArg List.head? heq.symm).trans rfl
  | .group member members, .group member' members', rest, other, hfirst, hsecond, heq => by
      simp only [symbols, List.cons_append, List.append_assoc] at heq
      obtain ⟨rfl, hmembers⟩ := symbols_inj
        (fun test htest => hfirst test (List.mem_append_left _ htest))
        (fun test htest => hsecond test (List.mem_append_left _ htest)) (List.cons.inj heq).2
      -- after the members stands the closing parenthesis, with which no joiner begins
      obtain ⟨rfl, hclose⟩ := restSymbols_inj
        (fun test htest => hfirst test (List.mem_append_right _ htest))
        (fun test htest => hsecond test (List.mem_append_right _ htest)) (by simp) (by simp)
        hmembers
      exact ⟨rfl, (List.cons.inj hclose).2⟩

/-- So are the predicates after the first one, unless a joiner follows. -/
theorem restSymbols_inj : ∀ {first second : List (Joiner × Predicate)} {rest other : List Symbol},
    (∀ test ∈ restTests first, test.WellFormed) → (∀ test ∈ restTests second, test.WellFormed) →
      rest.head? ≠ some (.char ' ') → other.head? ≠ some (.char ' ') →
        restSymbols first ++ rest = restSymbols second ++ other → first = second ∧ rest = other
  | [], [], _, _, _, _, _, _, heq => ⟨rfl, heq⟩
  | [], (joiner, predicate) :: others, rest, other, _, _, hrest, _, heq => by
      refine absurd ?_ hrest
      exact (congrArg List.head? heq).trans (head?_restSymbols joiner predicate others other)
  | (joiner, predicate) :: others, [], rest, other, _, _, _, hother, heq => by
      refine absurd ?_ hother
      exact (congrArg List.head? heq.symm).trans (head?_restSymbols joiner predicate others rest)
  | (joiner, predicate) :: others, (joiner', predicate') :: others', rest, other, hfirst, hsecond,
      hrest, hother, heq => by
      simp only [restSymbols, List.append_assoc] at heq
      obtain ⟨rfl, hmember⟩ := joiner_inj heq
      obtain ⟨rfl, hmembers⟩ := symbols_inj
        (fun test htest => hfirst test (List.mem_append_left _ htest))
        (fun test htest => hsecond test (List.mem_append_left _ htest)) hmember
      obtain ⟨rfl, hafter⟩ := restSymbols_inj
        (fun test htest => hfirst test (List.mem_append_right _ htest))
        (fun test htest => hsecond test (List.mem_append_right _ htest)) hrest hother hmembers
      exact ⟨rfl, hafter⟩

end

/-- A predicate says something. -/
theorem symbols_ne_nil (predicate : Predicate)
    (htests : ∀ test ∈ predicate.tests, test.WellFormed) : predicate.symbols ≠ [] := by
  cases predicate with
  | group first rest => simp [symbols]
  | test leaf =>
      obtain ⟨name, steps, hpath⟩ := (htests leaf (by simp [tests])).named
      have hsymbols := Test.symbols_eq hpath []
      rw [List.append_nil] at hsymbols
      simp [symbols, hsymbols]

end Predicate

/-! ## Conditions -/

namespace PredicateChain

/-- What the outermost group says. -/
def symbols (chain : PredicateChain) : List Symbol :=
  chain.first.symbols ++ Predicate.restSymbols chain.rest

theorem symbols_ofPieces {chain : PredicateChain} (htests : ∀ test ∈ chain.tests, test.WellFormed) :
    (CompiledExpression.ofPieces chain.pieces).symbols = chain.symbols := by
  have hfirst := Predicate.symbols_pieces chain.first fun test htest =>
    htests test (List.mem_append_left _ htest)
  have hrest := Predicate.symbols_restPieces chain.rest fun test htest =>
    htests test (List.mem_append_right _ htest)
  rw [CompiledExpression.symbols_ofPieces (spaced_pieces htests), pieces, List.flatMap_append,
    hfirst, hrest, symbols]

theorem symbols_inj {first second : PredicateChain} (hfirst : ∀ test ∈ first.tests, test.WellFormed)
    (hsecond : ∀ test ∈ second.tests, test.WellFormed) (heq : first.symbols = second.symbols) :
    first = second := by
  obtain ⟨hmember, hmembers⟩ := Predicate.symbols_inj
    (fun test htest => hfirst test (List.mem_append_left _ htest))
    (fun test htest => hsecond test (List.mem_append_left _ htest)) heq
  have hnil : Predicate.restSymbols first.rest ++ [] = Predicate.restSymbols second.rest ++ [] := by
    rw [hmembers]
  obtain ⟨hrest, -⟩ := Predicate.restSymbols_inj
    (fun test htest => hfirst test (List.mem_append_right _ htest))
    (fun test htest => hsecond test (List.mem_append_right _ htest)) (by simp) (by simp) hnil
  obtain ⟨member, members⟩ := first
  obtain ⟨member', members'⟩ := second
  obtain rfl : member = member' := hmember
  obtain rfl : members = members' := hrest
  rfl

theorem symbols_ne_nil {chain : PredicateChain} (htests : ∀ test ∈ chain.tests, test.WellFormed) :
    chain.symbols ≠ [] := by
  have hfirst := Predicate.symbols_ne_nil chain.first fun test htest =>
    htests test (List.mem_append_left _ htest)
  simp [symbols, hfirst]

end PredicateChain

/-- The chain of predicates that an expression was compiled from is determined by what the
expression says. -/
theorem PredicateChain.eq_of_ofPieces {first second : Option PredicateChain}
    (hfirst : ∀ chain ∈ first, ∀ test ∈ chain.tests, test.WellFormed)
    (hsecond : ∀ chain ∈ second, ∀ test ∈ chain.tests, test.WellFormed)
    (heq : CompiledExpression.ofPieces ((first.map PredicateChain.pieces).getD []) =
      .ofPieces ((second.map PredicateChain.pieces).getD [])) : first = second := by
  have hsymbols := congrArg CompiledExpression.symbols heq
  have hnone : (CompiledExpression.ofPieces []).symbols = [] :=
    CompiledExpression.symbols_ofPieces (show Piece.Spaced [] from trivial)
  cases first with
  | none =>
      cases second with
      | none => rfl
      | some chain =>
          have htests := hsecond chain rfl
          refine absurd ?_ (symbols_ne_nil htests)
          rw [← symbols_ofPieces htests, ← hnone]
          exact hsymbols.symm
  | some chain =>
      have htests := hfirst chain rfl
      cases second with
      | none =>
          refine absurd ?_ (symbols_ne_nil htests)
          rw [← symbols_ofPieces htests, ← hnone]
          exact hsymbols
      | some other =>
          have hothers := hsecond other rfl
          have hsame : chain.symbols = other.symbols := by
            rw [← symbols_ofPieces htests, ← symbols_ofPieces hothers]
            exact hsymbols
          rw [symbols_inj htests hothers hsame]

/-- Conditions that compile to the same expression mean the same predicates: the same groups with
the same joiners, the same operators, the same stored paths and the same stored operands. -/
theorem Mapper.chain?_eq_of_condition_eq {mapper : Mapper σ} {first second : Condition}
    {compiled : CompiledExpression} (hfirst : mapper.condition first = .ok compiled)
    (hsecond : mapper.condition second = .ok compiled) :
    ∃ chain, mapper.scope.chain? first = .ok chain ∧ mapper.scope.chain? second = .ok chain := by
  simp only [condition, Scope.compileCondition, Except.bind_eq_ok, Except.pure_eq_ok]
    at hfirst hsecond
  obtain ⟨chain, hchain, hcompiled⟩ := hfirst
  obtain ⟨chain', hchain', hcompiled'⟩ := hsecond
  refine ⟨chain, hchain, ?_⟩
  rw [PredicateChain.eq_of_ofPieces (Scope.wellFormed_of_chain? hchain)
    (Scope.wellFormed_of_chain? hchain') (hcompiled.trans hcompiled'.symm)]
  exact hchain'

/-! ## Two spellings of a condition -/

/-- Tasks with an alias for their state. -/
def SchemaOf.task : Schema Unit where
  attributes := [.plain "id" [.primitive .string],
    { AttributeOf.plain "st" [.primitive .string] with nativeAlias := some "state" },
    .plain "load" [.primitive .number], .plain "tags" [.set (.primitive .string)]]
  keepUnknown := .disabled
  timestamps := none

/-- The mapper of the only model, which has the schema `SchemaOf.task`. -/
def Mapper.tasks : Mapper Unit :=
  ⟨⟨[⟨"Task", .task, none⟩]⟩, ⟨"Task", .task, none⟩⟩

/-- A range joined with a group, in which the state has the given name. -/
def Condition.task (state : String) : Condition where
  root := ⟨[.comparison ⟨"load", .between, [.number (.ofInt 1), .number (.ofInt 9)]⟩,
    .group [.comparison ⟨state, .oneOf, [.string "new", .string "old"]⟩,
      .comparison ⟨"tags", .lacks, [.string "x"]⟩] [.or]], [.and]⟩
  pending := none
  negated := false
  joiner := none

theorem Mapper.chain?_eq_of_condition_eq_tasks :
    tasks.condition (.task "state") = tasks.condition (.task "st") ∧
      ∃ chain, tasks.scope.chain? (.task "state") = .ok chain ∧
        tasks.scope.chain? (.task "st") = .ok chain := by
  have hcompiled : ∀ state, state = "state" ∨ state = "st" →
      (tasks.condition (.task state)).toOption = some
        ⟨"#a0 BETWEEN :v0_1 AND :v0_2 AND (#a1 IN (:v1_1, :v1_2) OR NOT contains(#a2,:v2))",
          [("#a0", "load"), ("#a1", "st"), ("#a2", "tags")],
          [(":v0_1", .number "1"), (":v0_2", .number "9"), (":v1_1", .string "new"),
            (":v1_2", .string "old"), (":v2", .string "x")]⟩ := by
    rintro state (rfl | rfl) <;> decide +kernel
  have hfirst := Except.toOption_eq_some.mp (hcompiled "state" (.inl rfl))
  have hsecond := Except.toOption_eq_some.mp (hcompiled "st" (.inr rfl))
  exact ⟨hfirst.trans hsecond.symm, chain?_eq_of_condition_eq hfirst hsecond⟩

end ItemMapper
