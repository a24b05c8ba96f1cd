import ItemMapper.Expression.Compiled
import Mathlib.Data.List.TakeWhile

/-!
# Placeholders in a text

The text of an expression is read here without knowing how it was made.  `Lexeme.ofChars` goes from
left to right: a mark, `#` or `:`, begins a placeholder, which takes all letters, digits and
underscores after it, and every other character stands for itself.

What is read this way depends on what stands beside the placeholders: `:v1` before a digit would be
another placeholder, and a mark in a fixed text would begin one.  `Piece.Spaced` says that pieces
are laid out so that neither happens: fixed texts hold no marks, and after a path or an operand
comes a text that no placeholder goes on with.  Then reading the text gives the tokens back
(`Token.ofChars_text`), however many digits their numbers have.
-/

namespace ItemMapper

/-- A part of a text. -/
inductive Lexeme where
  | char (character : Char)
  | placeholder (text : String)
deriving DecidableEq

namespace Lexeme

/-- The characters that a placeholder begins with. -/
def isMark (character : Char) : Bool :=
  character = '#' || character = ':'

/-- The characters that a placeholder goes on with. -/
def isWordChar (character : Char) : Bool :=
  character.isAlphanum || character = '_'

/-- The parts of a text from left to right.  A placeholder is as long as it can be. -/
def ofChars : List Char → List Lexeme
  | [] => []
  | first :: rest =>
    if isMark first then
      .placeholder (String.ofList (first :: rest.takeWhile isWordChar)) ::
        ofChars (rest.dropWhile isWordChar)
    else .char first :: ofChars rest
termination_by chars => chars.length
decreasing_by
  · exact Nat.lt_succ_of_le (List.dropWhile_sublist _).length_le
  · exact Nat.lt_succ_self _

/-- The text of a placeholder. -/
def placeholder? : Lexeme → Option String
  | .placeholder text => some text
  | .char _ => none

/-- No placeholder goes on into this text. -/
def Stops (chars : List Char) : Prop :=
  ∀ first ∈ chars.head?, isWordChar first = false

/-- Characters that are no marks stand for themselves. -/
theorem ofChars_append_plain {chars : List Char} (hplain : ∀ c ∈ chars, isMark c = false)
    (rest : List Char) : ofChars (chars ++ rest) = chars.map .char ++ ofChars rest := by
  induction chars with
  | nil => rfl
  | cons first others ih =>
      have hfirst := hplain first (by simp)
      rw [List.cons_append, ofChars, if_neg (by simp [hfirst]),
        ih fun c hc => hplain c (by simp [hc])]
      rfl

/-- A mark and a word that stops are a placeholder. -/
theorem ofChars_placeholder {mark : Char} {word rest : List Char} (hmark : isMark mark = true)
    (hword : ∀ c ∈ word, isWordChar c = true) (hstops : Stops rest) :
    ofChars (mark :: (word ++ rest)) =
      .placeholder (String.ofList (mark :: word)) :: ofChars rest := by
  have hnone : rest.takeWhile isWordChar = [] ∧ rest.dropWhile isWordChar = rest := by
    cases rest with
    | nil => exact ⟨rfl, rfl⟩
    | cons first others =>
        have hfirst : isWordChar first = false := hstops first (by simp)
        simp [hfirst]
  rw [ofChars, if_pos hmark, List.takeWhile_append_of_pos hword,
    List.dropWhile_append_of_pos hword, hnone.1, hnone.2, List.append_nil]

theorem isWordChar_of_mem_digits (number : Nat) :
    ∀ c ∈ (toString number).toList, isWordChar c = true := by
  intro c hc
  have hdigits : c ∈ Nat.toDigits 10 number := by simpa using hc
  have hdigit : c.isDigit = true := Nat.isDigit_of_mem_toDigits (by decide) (by decide) hdigits
  simp [isWordChar, Char.isAlphanum, hdigit]

theorem isMark_of_isWordChar {c : Char} (hword : isWordChar c = true) : isMark c = false := by
  rw [isMark, Bool.or_eq_false_iff, decide_eq_false_iff_not, decide_eq_false_iff_not]
  constructor <;> (rintro rfl; exact absurd hword (by decide))

end Lexeme

/-! ## Tokens -/

namespace Token

/-- The characters of some tokens. -/
def chars (tokens : List Token) : List Char :=
  tokens.flatMap fun token => token.render.toList

@[simp] theorem chars_nil : chars [] = [] := rfl

@[simp] theorem chars_cons (token : Token) (rest : List Token) :
    chars (token :: rest) = token.render.toList ++ chars rest := rfl

theorem toList_join_render (tokens : List Token) :
    (String.join (tokens.map render)).toList = chars tokens := by
  rw [String.toList_join, List.flatMap_map]
  rfl

/-- The token stands for a name or a value. -/
def isPlaceholder : Token → Bool
  | .text _ | .index _ => false
  | _ => true

/-- What the text of a token is read as. -/
def lexemes (token : Token) : List Lexeme :=
  if token.isPlaceholder then [.placeholder token.render] else token.render.toList.map .char

/-- A placeholder is a mark and a word. -/
theorem exists_mark_word {token : Token} (hplaceholder : token.isPlaceholder = true) :
    ∃ mark word, token.render.toList = mark :: word ∧ Lexeme.isMark mark = true ∧
      ∀ c ∈ word, Lexeme.isWordChar c = true := by
  have hletter : ∀ number : Nat, ∀ letter : Char, Lexeme.isWordChar letter = true →
      ∀ c ∈ letter :: (toString number).toList, Lexeme.isWordChar c = true := by
    intro number letter hletter c hc
    rcases List.mem_cons.mp hc with rfl | hc
    · exact hletter
    · exact Lexeme.isWordChar_of_mem_digits number c hc
  cases token with
  | text content => simp [isPlaceholder] at hplaceholder
  | index position => simp [isPlaceholder] at hplaceholder
  | name number =>
      refine ⟨'#', 'a' :: (toString number).toList, ?_, by decide, hletter number 'a' (by decide)⟩
      rw [render, String.toList_append]
      rfl
  | value number =>
      refine ⟨':', 'v' :: (toString number).toList, ?_, by decide, hletter number 'v' (by decide)⟩
      rw [render, String.toList_append]
      rfl
  | member number rank =>
      refine ⟨':', 'v' :: (toString number).toList ++ '_' :: (toString rank).toList, ?_,
        by decide, ?_⟩
      · simp only [render, String.toList_append]
        simp
      · intro c hc
        rcases List.mem_append.mp hc with hc | hc
        · exact hletter number 'v' (by decide) c hc
        · exact hletter rank '_' (by decide) c hc

/-- Between its brackets a position has only digits. -/
theorem isMark_of_mem_index {position : Nat} :
    ∀ c ∈ (index position).render.toList, Lexeme.isMark c = false := by
  intro c hc
  have hcases : c = '[' ∨ c ∈ (toString position).toList ∨ c = ']' := by
    simpa [render, String.toList_append] using hc
  rcases hcases with rfl | hdigit | rfl
  · decide
  · exact Lexeme.isMark_of_isWordChar (Lexeme.isWordChar_of_mem_digits position c hdigit)
  · decide

/-- Fixed texts hold no marks, and after each placeholder comes something that it does not go
on with. -/
def Spaced : List Token → Prop
  | [] => True
  | token :: rest =>
    (if token.isPlaceholder then Lexeme.Stops (chars rest)
      else ∀ c ∈ token.render.toList, Lexeme.isMark c = false) ∧ Spaced rest

/-- Tokens that are spaced are found again in their text. -/
theorem ofChars_chars {tokens : List Token} (hspaced : Spaced tokens) :
    Lexeme.ofChars (chars tokens) = tokens.flatMap lexemes := by
  induction tokens with
  | nil => simp [Lexeme.ofChars]
  | cons token rest ih =>
      obtain ⟨hfirst, hrest⟩ := hspaced
      rw [chars_cons, List.flatMap_cons, lexemes, ← ih hrest]
      by_cases hplaceholder : token.isPlaceholder = true
      · rw [if_pos hplaceholder] at hfirst ⊢
        obtain ⟨mark, word, hrender, hmark, hword⟩ := exists_mark_word hplaceholder
        have htext : String.ofList (mark :: word) = token.render := by
          rw [← hrender, String.ofList_toList]
        rw [hrender, List.cons_append, Lexeme.ofChars_placeholder hmark hword hfirst, htext]
        rfl
      · rw [if_neg hplaceholder] at hfirst ⊢
        exact Lexeme.ofChars_append_plain hfirst _

end Token

/-! ## Pieces -/

namespace Piece

/-- A text without marks. -/
def isPlain (content : String) : Bool :=
  content.toList.all fun c => !Lexeme.isMark c

/-- A text that begins with a character that no placeholder goes on with. -/
def breaks (content : String) : Bool :=
  content.toList.head?.any fun c => !Lexeme.isWordChar c

/-- Nothing follows, or a text that ends a placeholder before it. -/
def Ends : List Piece → Prop
  | [] => True
  | .text content :: _ => breaks content = true
  | _ => False

/-- Pieces whose fixed texts keep the placeholders apart. -/
def Spaced : List Piece → Prop
  | [] => True
  | .text content :: rest => isPlain content = true ∧ Spaced rest
  | .operands separator _ :: rest =>
    (isPlain separator = true ∧ breaks separator = true) ∧ Ends rest ∧ Spaced rest
  | _ :: rest => Ends rest ∧ Spaced rest

theorem Ends.append {first second : List Piece} (hfirst : Ends first) (hsecond : Ends second) :
    Ends (first ++ second) := by
  cases first with
  | nil => exact hsecond
  | cons piece rest => cases piece <;> exact hfirst

/-- Layouts can be put one after another where the second begins with a break. -/
theorem Spaced.append {first second : List Piece} (hfirst : Spaced first) (hsecond : Spaced second)
    (hends : Ends second) : Spaced (first ++ second) := by
  induction first with
  | nil => exact hsecond
  | cons piece rest ih =>
      cases piece with
      | text content => exact ⟨hfirst.1, ih hfirst.2⟩
      | path segments => exact ⟨hfirst.1.append hends, ih hfirst.2⟩
      | operand value => exact ⟨hfirst.1.append hends, ih hfirst.2⟩
      | operands separator values =>
          exact ⟨hfirst.1, hfirst.2.1.append hends, ih hfirst.2.2⟩

end Piece

namespace Token

theorem isMark_of_isPlain {content : String} (hplain : Piece.isPlain content = true) :
    ∀ c ∈ content.toList, Lexeme.isMark c = false := by
  simpa [Piece.isPlain] using hplain

theorem stops_of_breaks {content : String} (hbreaks : Piece.breaks content = true)
    (rest : List Char) : Lexeme.Stops (content.toList ++ rest) := by
  rw [Piece.breaks, Option.any_eq_true] at hbreaks
  obtain ⟨first, hfirst, hword⟩ := hbreaks
  obtain ⟨others, hothers⟩ := List.head?_eq_some_iff.mp hfirst
  intro c hc
  rw [hothers, List.cons_append, List.head?_cons, Option.mem_some_iff] at hc
  simpa [← hc] using hword

theorem stops_chars_ofSteps (paths : List NamedPath) (steps : List MarkedStep) {rest : List Token}
    (hrest : Lexeme.Stops (chars rest)) : Lexeme.Stops (chars (ofSteps paths steps ++ rest)) := by
  cases steps with
  | nil => exact hrest
  | cons step others =>
      cases step with
      | name path => exact stops_of_breaks (show Piece.breaks "." = true by decide) _
      | index position =>
          intro c hc
          have hbracket : c = '[' := by
            simpa [ofSteps, render, String.toList_append, eq_comm] using hc
          rw [hbracket]
          decide

theorem spaced_ofSteps (paths : List NamedPath) (steps : List MarkedStep) {rest : List Token}
    (hrest : Spaced rest) (hstops : Lexeme.Stops (chars rest)) :
    Spaced (ofSteps paths steps ++ rest) := by
  induction steps with
  | nil => exact hrest
  | cons step others ih =>
      cases step with
      | name path =>
          exact ⟨isMark_of_isPlain (show Piece.isPlain "." = true by decide),
            stops_chars_ofSteps paths others hstops, ih⟩
      | index position => exact ⟨isMark_of_mem_index, ih⟩

theorem spaced_ofPath (paths : List NamedPath) (segments : List Segment) {rest : List Token}
    (hrest : Spaced rest) (hstops : Lexeme.Stops (chars rest)) :
    Spaced (ofPath paths segments ++ rest) := by
  unfold ofPath
  split
  · exact ⟨stops_chars_ofSteps paths _ hstops, spaced_ofSteps paths _ hrest hstops⟩
  · exact spaced_ofSteps paths _ hrest hstops

theorem spaced_ofMembers (number : Nat) {separator : String}
    (hplain : Piece.isPlain separator = true) (hbreaks : Piece.breaks separator = true)
    {rest : List Token} (hrest : Spaced rest) (hstops : Lexeme.Stops (chars rest)) :
    ∀ (rank : Nat) (values : List WireValue),
      Spaced (ofMembers number separator rank values ++ rest)
  | _, [] => hrest
  | _, [_] => ⟨hstops, hrest⟩
  | rank, _ :: next :: others =>
      ⟨stops_of_breaks hbreaks _, isMark_of_isPlain hplain,
        spaced_ofMembers number hplain hbreaks hrest hstops (rank + 1) (next :: others)⟩

theorem stops_of_ends (paths : List NamedPath) (number : Nat) {pieces : List Piece}
    (hends : Piece.Ends pieces) : Lexeme.Stops (chars (ofPieces paths number pieces)) := by
  cases pieces with
  | nil => intro c hc; simp [ofPieces] at hc
  | cons piece rest =>
      cases piece with
      | text content => exact stops_of_breaks hends _
      | path segments => exact hends.elim
      | operand value => exact hends.elim
      | operands separator values => exact hends.elim

/-- The tokens of spaced pieces are spaced. -/
theorem spaced_ofPieces (paths : List NamedPath) {pieces : List Piece}
    (hspaced : Piece.Spaced pieces) : ∀ number, Spaced (ofPieces paths number pieces) := by
  induction pieces with
  | nil => exact fun _ => trivial
  | cons piece rest ih =>
      intro number
      cases piece with
      | text content => exact ⟨isMark_of_isPlain hspaced.1, ih hspaced.2 number⟩
      | path segments =>
          exact spaced_ofPath paths segments (ih hspaced.2 number)
            (stops_of_ends paths number hspaced.1)
      | operand value => exact ⟨stops_of_ends paths _ hspaced.1, ih hspaced.2 (number + 1)⟩
      | operands separator values =>
          exact spaced_ofMembers number hspaced.1.1 hspaced.1.2 (ih hspaced.2.2 (number + 1))
            (stops_of_ends paths _ hspaced.2.1) 1 values

end Token

/-- Reading the text of a compiled expression gives the tokens that it was laid out as. -/
theorem CompiledExpression.ofChars_ofPieces {pieces : List Piece} (hspaced : Piece.Spaced pieces) :
    Lexeme.ofChars (CompiledExpression.ofPieces pieces).expression.toList =
      (Token.ofPieces (numberedPaths pieces) 0 pieces).flatMap Token.lexemes := by
  rw [CompiledExpression.ofPieces, Token.toList_join_render]
  exact Token.ofChars_chars (Token.spaced_ofPieces _ hspaced 0)

end ItemMapper
