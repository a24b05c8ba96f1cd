import ItemMapper.Mapper
import ItemMapper.Proofs.Coding.Set
import ItemMapper.Proofs.Expression.Predicate
import Mathlib.Data.List.Nodup
import Mathlib.Data.List.Range

/-!
# Numbered placeholders

The text of an expression and its tables are made apart from each other, and only the order in
which each walks through the pieces ties them together.  `CompiledExpression.Numbered` says that
they fit: the placeholders that are read off the text are exactly the keys of the tables, names are
numbered as they first occur, and operands as they stand.

What is read off the text is the tokens (`CompiledExpression.ofChars_ofPieces`), so both sides are
brought to lists of tokens.  The names in them are the positions of paths among the distinct ones,
and numbering anything by position leaves the first occurrences in order without gaps
(`eraseDups_map_idxOf`).  The operands in them are those of the table, one after another
(`Token.filter_isOperand_ofPieces`).
-/

namespace ItemMapper

variable {σ : Type}

/-! ## First occurrences -/

section FirstOccurrences

variable {α β : Type} [DecidableEq α] [DecidableEq β]

/-- Different items stay different, so the first occurrences are those of the items. -/
theorem eraseDups_map {f : α → β} {items : List α}
    (hinj : ∀ a ∈ items, ∀ b ∈ items, f a = f b → a = b) :
    (items.map f).eraseDups = items.eraseDups.map f := by
  induction hlength : items.length using Nat.strong_induction_on generalizing items with
  | _ length ih =>
      cases items with
      | nil => rfl
      | cons item rest =>
          have hsame : (rest.map f).filter (fun other => !other == f item) =
              (rest.filter fun other => !other == item).map f := by
            rw [List.filter_map]
            congr 1
            apply List.filter_congr
            intro other hother
            by_cases heq : other = item
            · simp [heq]
            · have hne : f other ≠ f item :=
                fun hf => heq (hinj other (by simp [hother]) item (by simp) hf)
              simp [heq, hne]
          have hshorter : (rest.filter fun other => !other == item).length < length := by
            rw [← hlength]
            exact Nat.lt_succ_of_le (List.length_filter_le _ _)
          have hinside : ∀ a ∈ rest.filter (fun other => !other == item), a ∈ item :: rest :=
            fun a ha => List.mem_cons_of_mem _ (List.mem_filter.mp ha).1
          rw [List.map_cons, List.eraseDups_cons, List.eraseDups_cons, List.map_cons, hsame,
            ih _ hshorter (fun a ha b hb => hinj a (hinside a ha) b (hinside b hb)) rfl]

theorem map_idxOf_of_nodup {items : List α} (hdistinct : items.Nodup) :
    items.map items.idxOf = List.range items.length := by
  apply List.ext_getElem
  · simp
  · intro position hleft _
    rw [List.length_map] at hleft
    simp [hdistinct.idxOf_getElem position hleft]

/-- Items that are numbered by their positions among the distinct ones come in the order of their
numbers, without gaps. -/
theorem eraseDups_map_idxOf (items : List α) :
    (items.map items.eraseDups.idxOf).eraseDups = List.range items.eraseDups.length := by
  rw [eraseDups_map, map_idxOf_of_nodup (nodup_eraseDups items)]
  intro a ha b _ hab
  exact (List.idxOf_inj (List.mem_eraseDups.mpr ha)).mp hab

end FirstOccurrences

/-! ## Places for operands -/

/-- A place in an expression where one operand stands, or several. -/
inductive OperandPlace where
  | single (operand : WireValue)
  | several (operands : List WireValue)

namespace OperandPlace

/-- The placeholders at the place with a number, with the operands that they stand for. -/
def entries (number : Nat) : OperandPlace → List (String × WireValue)
  | single operand => [(":v" ++ toString number, operand)]
  | several operands =>
    (operands.zipIdx 1).map fun (operand, rank) =>
      (":v" ++ toString number ++ "_" ++ toString rank, operand)

end OperandPlace

/-- The place that a piece is. -/
def Piece.place? : Piece → Option OperandPlace
  | .operand value => some (.single value)
  | .operands _ values => some (.several values)
  | _ => none

/-! ## Names in the text -/

namespace Token

/-- The number of the name that a token stands for. -/
def nameNumber? : Token → Option Nat
  | .name number => some number
  | _ => none

/-- The token stands for an operand. -/
def isOperand : Token → Bool
  | .value _ | .member _ _ => true
  | _ => false

theorem nameNumber?_ofSteps (paths : List NamedPath) (steps : List MarkedStep) :
    (ofSteps paths steps).filterMap nameNumber? =
      (steps.filterMap MarkedStep.named?).map paths.idxOf := by
  induction steps with
  | nil => rfl
  | cons step rest ih =>
      cases step with
      | name path => exact congrArg (paths.idxOf path :: ·) ih
      | index position => exact ih

theorem nameNumber?_ofPath (paths : List NamedPath) (segments : List Segment) :
    (ofPath paths segments).filterMap nameNumber? =
      (Piece.path segments).namedPaths.map paths.idxOf := by
  unfold ofPath Piece.namedPaths
  split
  · rename_i path rest hsteps
    simpa [hsteps, nameNumber?, MarkedStep.named?] using nameNumber?_ofSteps paths rest
  · exact nameNumber?_ofSteps paths _

theorem nameNumber?_ofMembers (number : Nat) (separator : String) :
    ∀ (rank : Nat) (values : List WireValue),
      (ofMembers number separator rank values).filterMap nameNumber? = []
  | _, [] => rfl
  | _, [_] => rfl
  | rank, _ :: next :: rest => nameNumber?_ofMembers number separator (rank + 1) (next :: rest)

/-- The names among the tokens are the paths in the pieces, by their positions. -/
theorem nameNumber?_ofPieces (paths : List NamedPath) (pieces : List Piece) : ∀ number,
    (ofPieces paths number pieces).filterMap nameNumber? =
      (pieces.flatMap Piece.namedPaths).map paths.idxOf := by
  induction pieces with
  | nil => exact fun _ => rfl
  | cons piece rest ih =>
      intro number
      rw [List.flatMap_cons, List.map_append]
      cases piece with
      | text content => exact ih number
      | path segments =>
          rw [ofPieces, List.filterMap_append, nameNumber?_ofPath, ih number]
      | operand value => exact ih (number + 1)
      | operands separator values =>
          rw [ofPieces, List.filterMap_append, nameNumber?_ofMembers, ih (number + 1)]
          rfl

/-! ## Operands in the text -/

theorem isOperand_ofSteps (paths : List NamedPath) (steps : List MarkedStep) :
    (ofSteps paths steps).filter isOperand = [] := by
  induction steps with
  | nil => rfl
  | cons step rest ih => cases step <;> simpa [ofSteps, isOperand] using ih

theorem isOperand_ofPath (paths : List NamedPath) (segments : List Segment) :
    (ofPath paths segments).filter isOperand = [] := by
  unfold ofPath
  split
  · simpa [isOperand] using isOperand_ofSteps paths _
  · exact isOperand_ofSteps paths _

theorem isOperand_ofMembers (number : Nat) (separator : String) :
    ∀ (rank : Nat) (values : List WireValue),
      (ofMembers number separator rank values).filter isOperand =
        (memberValues number rank values).map Prod.fst
  | _, [] => rfl
  | _, [_] => rfl
  | rank, _ :: next :: rest =>
      congrArg (member number rank :: ·)
        (isOperand_ofMembers number separator (rank + 1) (next :: rest))

/-- The operands among the tokens are those of the table. -/
theorem filter_isOperand_ofPieces (paths : List NamedPath) (pieces : List Piece) : ∀ number,
    (ofPieces paths number pieces).filter isOperand =
      (numberedValues number pieces).map Prod.fst := by
  induction pieces with
  | nil => exact fun _ => rfl
  | cons piece rest ih =>
      intro number
      cases piece with
      | text content => exact ih number
      | path segments =>
          rw [ofPieces, List.filter_append, isOperand_ofPath, ih number]
          rfl
      | operand value => exact congrArg (Token.value number :: ·) (ih (number + 1))
      | operands separator values =>
          rw [ofPieces, List.filter_append, isOperand_ofMembers, ih (number + 1), numberedValues,
            List.map_append]

end Token

/-! ## The table of operands -/

theorem memberValues_fst (number : Nat) (values : List WireValue) : ∀ rank,
    (memberValues number rank values).map Prod.fst =
      (List.range' rank values.length).map (Token.member number) := by
  induction values with
  | nil => exact fun _ => rfl
  | cons value rest ih =>
      intro rank
      rw [memberValues, List.map_cons, ih (rank + 1), List.length_cons, List.range'_succ,
        List.map_cons]

theorem memberValues_render (number : Nat) (values : List WireValue) : ∀ rank,
    (memberValues number rank values).map (fun (token, value) => (token.render, value)) =
      (values.zipIdx rank).map fun (value, rank) => ((Token.member number rank).render, value) := by
  induction values with
  | nil => exact fun _ => rfl
  | cons value rest ih =>
      exact fun rank => congrArg (((Token.member number rank).render, value) :: ·) (ih (rank + 1))

/-- The table lists the places one after another. -/
theorem numberedValues_render (pieces : List Piece) : ∀ number,
    (numberedValues number pieces).map (fun (token, value) => (token.render, value)) =
      ((pieces.filterMap Piece.place?).zipIdx number).flatMap fun (place, number) =>
        place.entries number := by
  induction pieces with
  | nil => exact fun _ => rfl
  | cons piece rest ih =>
      intro number
      cases piece with
      | text content => exact ih number
      | path segments => exact ih number
      | operand value =>
          exact congrArg ((":v" ++ toString number, value) :: ·) (ih (number + 1))
      | operands separator values =>
          rw [numberedValues, List.map_append, memberValues_render, ih (number + 1)]
          rfl

/-! ### Each operand has a placeholder of its own -/

/-- Where items of one kind end is determined by the whole. -/
theorem append_cons_inj {α : Type} {kind : α → Prop} {first second rest other : List α}
    {mark mark' : α} (hfirst : ∀ item ∈ first, kind item) (hsecond : ∀ item ∈ second, kind item)
    (hmark : ¬ kind mark) (hmark' : ¬ kind mark')
    (heq : first ++ mark :: rest = second ++ mark' :: other) :
    first = second ∧ mark = mark' ∧ rest = other := by
  induction first generalizing second with
  | nil =>
      cases second with
      | nil => exact ⟨rfl, (List.cons.inj heq).1, (List.cons.inj heq).2⟩
      | cons head tail =>
          obtain rfl := (List.cons.inj heq).1
          exact absurd (hsecond _ (by simp)) hmark
  | cons head tail ih =>
      cases second with
      | nil =>
          obtain rfl := (List.cons.inj heq).1
          exact absurd (hfirst _ (by simp)) hmark'
      | cons head' tail' =>
          obtain ⟨rfl, htail⟩ := List.cons.inj heq
          obtain ⟨rfl, hrest⟩ := ih (fun item hitem => hfirst item (by simp [hitem]))
            (fun item hitem => hsecond item (by simp [hitem])) htail
          exact ⟨rfl, hrest⟩

namespace Token

theorem toString_inj {first second : Nat} (heq : toString first = toString second) :
    first = second := by
  have hdigits : Nat.toDigits 10 first = Nat.toDigits 10 second := by
    simpa using congrArg String.toList heq
  rw [← Nat.ofDigitChars_ten_toDigits (n := first), hdigits, Nat.ofDigitChars_ten_toDigits]

theorem isDigit_of_mem_digits (number : Nat) :
    ∀ c ∈ (toString number).toList, c.isDigit = true := by
  intro c hc
  have hdigits : c ∈ Nat.toDigits 10 number := by simpa using hc
  exact Nat.isDigit_of_mem_toDigits (by decide) (by decide) hdigits

theorem render_name_inj {first second : Nat}
    (heq : (name first).render = (name second).render) : first = second := by
  have hchars := congrArg String.toList heq
  rw [render, render, String.toList_append, String.toList_append] at hchars
  exact toString_inj (String.toList_inj.mp (List.append_cancel_left hchars))

/-- The texts of different operands are different: a number ends where the underscore stands. -/
theorem render_inj_of_isOperand {first second : Token} (hfirst : first.isOperand = true)
    (hsecond : second.isOperand = true) (heq : first.render = second.render) : first = second := by
  have hchars := congrArg String.toList heq
  have hunderscore : ∀ number, '_' ∉ (toString number).toList :=
    fun number hmem => absurd (isDigit_of_mem_digits number _ hmem) (by decide)
  cases first with
  | text _ => simp [isOperand] at hfirst
  | index _ => simp [isOperand] at hfirst
  | name _ => simp [isOperand] at hfirst
  | value number =>
      cases second with
      | text _ => simp [isOperand] at hsecond
      | index _ => simp [isOperand] at hsecond
      | name _ => simp [isOperand] at hsecond
      | value other =>
          rw [render, render, String.toList_append, String.toList_append] at hchars
          rw [toString_inj (String.toList_inj.mp (List.append_cancel_left hchars))]
      | member other rank =>
          simp only [render, String.toList_append, List.append_assoc] at hchars
          have hdigits := List.append_cancel_left hchars
          exact absurd (by rw [hdigits]; simp) (hunderscore number)
  | member number rank =>
      cases second with
      | text _ => simp [isOperand] at hsecond
      | index _ => simp [isOperand] at hsecond
      | name _ => simp [isOperand] at hsecond
      | value other =>
          simp only [render, String.toList_append, List.append_assoc] at hchars
          have hdigits := List.append_cancel_left hchars
          exact absurd (by rw [← hdigits]; simp) (hunderscore other)
      | member other rank' =>
          simp only [render, String.toList_append, List.append_assoc] at hchars
          obtain ⟨hnumber, -, hrank⟩ := append_cons_inj (isDigit_of_mem_digits number)
            (isDigit_of_mem_digits other) (by decide) (by decide) (List.append_cancel_left hchars)
          rw [toString_inj (String.toList_inj.mp hnumber),
            toString_inj (String.toList_inj.mp hrank)]

/-- Of the placeholders those of names begin with a hash. -/
theorem head_render {token : Token} (hplaceholder : token.isPlaceholder = true) :
    (token.render.toList.head? == some '#') = token.nameNumber?.isSome := by
  cases token with
  | text content => simp [isPlaceholder] at hplaceholder
  | index position => simp [isPlaceholder] at hplaceholder
  | name number => rw [render, String.toList_append]; rfl
  | value number => rw [render, String.toList_append]; rfl
  | member number rank => simp only [render, String.toList_append]; rfl

theorem map_name_filterMap (tokens : List Token) :
    (tokens.filterMap nameNumber?).map name =
      tokens.filter fun token => token.nameNumber?.isSome := by
  induction tokens with
  | nil => rfl
  | cons token rest ih =>
      cases token with
      | name number => exact congrArg (name number :: ·) ih
      | text content => exact ih
      | index position => exact ih
      | value number => exact ih
      | member number rank => exact ih

/-- The number of the place at which an operand stands. -/
def placeNumber : Token → Nat
  | .value number | .member number _ => number
  | _ => 0

end Token

theorem isOperand_of_mem_numberedValues {pieces : List Piece} {number : Nat} {token : Token}
    (htoken : token ∈ (numberedValues number pieces).map Prod.fst) : token.isOperand = true := by
  rw [← Token.filter_isOperand_ofPieces []] at htoken
  exact (List.mem_filter.mp htoken).2

theorem le_placeNumber {pieces : List Piece} : ∀ {number : Nat}, ∀ token ∈
    (numberedValues number pieces).map Prod.fst, number ≤ token.placeNumber := by
  induction pieces with
  | nil => simp [numberedValues]
  | cons piece rest ih =>
      intro number token htoken
      cases piece with
      | text content => exact ih token htoken
      | path segments => exact ih token htoken
      | operand value =>
          rcases List.mem_cons.mp htoken with rfl | htoken
          · exact le_refl _
          · exact Nat.le_of_succ_le (ih token htoken)
      | operands separator values =>
          rw [numberedValues, List.map_append, memberValues_fst, List.mem_append] at htoken
          rcases htoken with hmember | htoken
          · obtain ⟨rank, -, rfl⟩ := List.mem_map.mp hmember
            exact le_refl _
          · exact Nat.le_of_succ_le (ih token htoken)

/-- The table has each placeholder once: later places have greater numbers. -/
theorem nodup_numberedValues (pieces : List Piece) : ∀ number,
    ((numberedValues number pieces).map Prod.fst).Nodup := by
  induction pieces with
  | nil => exact fun _ => List.nodup_nil
  | cons piece rest ih =>
      intro number
      have hlater : ∀ token ∈ (numberedValues (number + 1) rest).map Prod.fst,
          token.placeNumber ≠ number :=
        fun token htoken heq => absurd (le_placeNumber token htoken) (by omega)
      cases piece with
      | text content => exact ih number
      | path segments => exact ih number
      | operand value =>
          exact List.nodup_cons.mpr ⟨fun hmem => hlater _ hmem rfl, ih (number + 1)⟩
      | operands separator values =>
          rw [numberedValues, List.map_append, memberValues_fst]
          -- operands at one place differ in their rank, those of other places in the number
          apply List.Nodup.append
          · exact (List.nodup_range' 1).map fun _ _ heq => (Token.member.inj heq).2
          · exact ih (number + 1)
          · intro token hmember htoken
            obtain ⟨rank, -, rfl⟩ := List.mem_map.mp hmember
            exact hlater _ htoken rfl

theorem nodup_valueKeys (pieces : List Piece) (number : Nat) :
    (((numberedValues number pieces).map Prod.fst).map Token.render).Nodup := by
  refine (nodup_numberedValues pieces number).map_on ?_
  intro first hfirst second hsecond heq
  exact Token.render_inj_of_isOperand (isOperand_of_mem_numberedValues hfirst)
    (isOperand_of_mem_numberedValues hsecond) heq

/-! ## The table of names -/

theorem numberedNames_fst (paths : List NamedPath) : ∀ number,
    (numberedNames number paths).map Prod.fst =
      (List.range' number paths.length).map Token.name := by
  induction paths with
  | nil => exact fun _ => rfl
  | cons path rest ih =>
      intro number
      rw [numberedNames, List.map_cons, ih (number + 1), List.length_cons, List.range'_succ,
        List.map_cons]

/-! ## Text and tables -/

namespace CompiledExpression

/-- The placeholders in the text from left to right. -/
def placeholders (compiled : CompiledExpression) : List String :=
  (Lexeme.ofChars compiled.expression.toList).filterMap Lexeme.placeholder?

/-- The placeholders of names in the text. -/
def nameOccurrences (compiled : CompiledExpression) : List String :=
  compiled.placeholders.filter fun text => text.toList.head? == some '#'

/-- The other placeholders in the text. -/
def operandOccurrences (compiled : CompiledExpression) : List String :=
  compiled.placeholders.filter fun text => text.toList.head? != some '#'

/-- The text and the tables have the same placeholders.  Those of names are numbered by their first
occurrences, and those of operands, which occur once, by their places and their ranks there. -/
structure Numbered (compiled : CompiledExpression) (places : List OperandPlace) : Prop where
  names : compiled.nameOccurrences.eraseDups =
    (List.range compiled.names.length).map fun number => "#a" ++ toString number
  nameKeys : compiled.names.map Prod.fst = compiled.nameOccurrences.eraseDups
  values : compiled.values = places.zipIdx.flatMap fun (place, number) => place.entries number
  operands : compiled.operandOccurrences = compiled.values.map Prod.fst
  operandsOnce : compiled.operandOccurrences.Nodup

variable {pieces : List Piece}

theorem placeholders_ofPieces (hspaced : Piece.Spaced pieces) :
    (ofPieces pieces).placeholders =
      ((Token.ofPieces (numberedPaths pieces) 0 pieces).filter Token.isPlaceholder).map
        Token.render := by
  rw [placeholders, ofChars_ofPieces hspaced]
  induction Token.ofPieces (numberedPaths pieces) 0 pieces with
  | nil => rfl
  | cons token rest ih =>
      rw [List.flatMap_cons, List.filterMap_append, ih, Token.lexemes]
      by_cases hplaceholder : token.isPlaceholder = true
      · simp [hplaceholder, Lexeme.placeholder?]
      · simp [hplaceholder, Lexeme.placeholder?, List.filterMap_map]

theorem nameOccurrences_ofPieces (hspaced : Piece.Spaced pieces) :
    (ofPieces pieces).nameOccurrences =
      ((pieces.flatMap Piece.namedPaths).map (numberedPaths pieces).idxOf).map fun number =>
        (Token.name number).render := by
  rw [nameOccurrences, placeholders_ofPieces hspaced, ← Token.nameNumber?_ofPieces _ _ 0,
    List.filter_map, List.filter_filter]
  generalize Token.ofPieces (numberedPaths pieces) 0 pieces = tokens
  have hnames : ∀ token : Token, (((fun text : String => text.toList.head? == some '#') ∘
      Token.render) token && token.isPlaceholder) = token.nameNumber?.isSome := by
    intro token
    by_cases hplaceholder : token.isPlaceholder = true
    · rw [hplaceholder, Bool.and_true, Function.comp_apply, Token.head_render hplaceholder]
    · cases token <;> simp_all [Token.isPlaceholder, Token.nameNumber?]
  simp only [hnames]
  rw [← Token.map_name_filterMap, List.map_map]
  rfl

theorem operandOccurrences_ofPieces (hspaced : Piece.Spaced pieces) :
    (ofPieces pieces).operandOccurrences =
      ((numberedValues 0 pieces).map Prod.fst).map Token.render := by
  rw [← Token.filter_isOperand_ofPieces (numberedPaths pieces), operandOccurrences,
    placeholders_ofPieces hspaced, List.filter_map, List.filter_filter]
  generalize Token.ofPieces (numberedPaths pieces) 0 pieces = tokens
  congr 1
  apply List.filter_congr
  intro token _
  by_cases hplaceholder : token.isPlaceholder = true
  · rw [hplaceholder, Bool.and_true, Function.comp_apply, bne, Token.head_render hplaceholder]
    cases token <;> simp_all [Token.isPlaceholder, Token.isOperand, Token.nameNumber?]
  · cases token <;> simp_all [Token.isPlaceholder, Token.isOperand]

/-- The placeholders of spaced pieces fit the tables. -/
theorem numbered_ofPieces (hspaced : Piece.Spaced pieces) :
    (ofPieces pieces).Numbered (pieces.filterMap Piece.place?) := by
  have hlength : (ofPieces pieces).names.length = (numberedPaths pieces).length := by
    have hfst := congrArg List.length (numberedNames_fst (numberedPaths pieces) 0)
    simpa [ofPieces] using hfst
  have hnames : (ofPieces pieces).nameOccurrences.eraseDups =
      (List.range (ofPieces pieces).names.length).map fun number => "#a" ++ toString number := by
    have hfirst : ((pieces.flatMap Piece.namedPaths).map (numberedPaths pieces).idxOf).eraseDups =
        List.range (numberedPaths pieces).length := eraseDups_map_idxOf _
    rw [nameOccurrences_ofPieces hspaced, eraseDups_map fun _ _ _ _ => Token.render_name_inj,
      hlength, hfirst]
    rfl
  refine ⟨hnames, ?_, numberedValues_render pieces 0, ?_, ?_⟩
  · rw [hnames, hlength, ofPieces, List.map_map, List.range_eq_range']
    have hfst := congrArg (List.map Token.render) (numberedNames_fst (numberedPaths pieces) 0)
    rwa [List.map_map, List.map_map] at hfst
  · rw [operandOccurrences_ofPieces hspaced, ofPieces, List.map_map, List.map_map]
    rfl
  · rw [operandOccurrences_ofPieces hspaced]
    exact nodup_valueKeys pieces 0

end CompiledExpression

end ItemMapper
