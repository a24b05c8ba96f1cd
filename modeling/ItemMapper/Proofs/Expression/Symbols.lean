import ItemMapper.Proofs.Expression.Numbering
import ItemMapper.Proofs.Fields

/-!
# What an expression says

An expression says what its text says with the placeholders looked up in its tables
(`CompiledExpression.symbols`).  Numbers are of no account any more: `symbols_ofPieces` states that
an expression says what its pieces say one after another, where a piece shows its names and
operands themselves.  Two expressions with the same text and the same tables therefore come from
pieces that say the same.
-/

namespace ItemMapper

/-- A part of what an expression says. -/
inductive Symbol where
  | char (character : Char)
  | name (label : String)
  | value (operand : WireValue)

namespace Symbol

/-- A text as it is. -/
def ofText (content : String) : List Symbol :=
  content.toList.map .char

/-- A path after its first step: a dot stands before a name and brackets around a position. -/
def ofSteps : List Segment → List Symbol
  | [] => []
  | .name label :: rest => .char '.' :: .name label :: ofSteps rest
  | .index position :: rest => ofText ("[" ++ toString position ++ "]") ++ ofSteps rest

def ofPath : List Segment → List Symbol
  | .name label :: rest => .name label :: ofSteps rest
  | steps => ofSteps steps

/-- Several operands with a text between each two of them. -/
def ofMembers (separator : String) : List WireValue → List Symbol
  | [] => []
  | [operand] => [.value operand]
  | operand :: rest => .value operand :: (ofText separator ++ ofMembers separator rest)

end Symbol

/-- What a piece says. -/
def Piece.symbols : Piece → List Symbol
  | .text content => Symbol.ofText content
  | .path segments => Symbol.ofPath segments
  | .operand value => [.value value]
  | .operands separator values => Symbol.ofMembers separator values

namespace CompiledExpression

/-- What a part of the text stands for. -/
def symbol? (compiled : CompiledExpression) : Lexeme → Option Symbol
  | .char character => some (.char character)
  | .placeholder text =>
    if text.toList.head? == some '#' then (Fields.get? compiled.names text).map .name
    else (Fields.get? compiled.values text).map .value

/-- The text with the placeholders looked up. -/
def symbols (compiled : CompiledExpression) : List Symbol :=
  (Lexeme.ofChars compiled.expression.toList).filterMap compiled.symbol?

/-- What a token stands for. -/
def meaning (compiled : CompiledExpression) (token : Token) : List Symbol :=
  token.lexemes.filterMap compiled.symbol?

/-- The tables know the name of each of the paths and the operand of each of the entries. -/
structure Knows (compiled : CompiledExpression) (paths : List NamedPath)
    (entries : List (Token × WireValue)) : Prop where
  name : ∀ path ∈ paths, compiled.meaning (.name (paths.idxOf path)) = [.name path.name]
  value : ∀ entry ∈ entries, compiled.meaning entry.1 = [.value entry.2]

theorem meaning_text (compiled : CompiledExpression) (content : String) :
    compiled.meaning (.text content) = Symbol.ofText content := by
  rw [meaning, Token.lexemes, if_neg (by simp [Token.isPlaceholder]), List.filterMap_map,
    Symbol.ofText, ← List.filterMap_eq_map]
  rfl

theorem meaning_index (compiled : CompiledExpression) (position : Nat) :
    compiled.meaning (.index position) = Symbol.ofText ("[" ++ toString position ++ "]") := by
  rw [meaning, Token.lexemes, if_neg (by simp [Token.isPlaceholder]), List.filterMap_map,
    Symbol.ofText, ← List.filterMap_eq_map]
  rfl

section Meaning

variable {compiled : CompiledExpression} {paths : List NamedPath}

theorem meaning_ofSteps
    (hname : ∀ path ∈ paths, compiled.meaning (.name (paths.idxOf path)) = [.name path.name])
    (segments : List Segment) : ∀ text : String,
      (∀ path ∈ (MarkedStep.ofSegments text segments).filterMap MarkedStep.named?, path ∈ paths) →
      (Token.ofSteps paths (MarkedStep.ofSegments text segments)).flatMap compiled.meaning =
        Symbol.ofSteps segments := by
  induction segments with
  | nil => exact fun _ _ => rfl
  | cons segment rest ih =>
      intro text hpaths
      cases segment with
      | name label =>
          have hfirst := hname _ (hpaths _ (List.mem_cons_self ..))
          have hrest := ih _ fun path hpath => hpaths path (List.mem_cons_of_mem _ hpath)
          rw [MarkedStep.ofSegments, Token.ofSteps, List.flatMap_cons, List.flatMap_cons, hrest,
            hfirst, meaning_text]
          rfl
      | index position =>
          have hrest := ih _ fun path hpath => hpaths path hpath
          rw [MarkedStep.ofSegments, Token.ofSteps, List.flatMap_cons, hrest, meaning_index]
          rfl

theorem meaning_ofPath
    (hname : ∀ path ∈ paths, compiled.meaning (.name (paths.idxOf path)) = [.name path.name])
    (segments : List Segment)
    (hpaths : ∀ path ∈ (Piece.path segments).namedPaths, path ∈ paths) :
    (Token.ofPath paths segments).flatMap compiled.meaning = Symbol.ofPath segments := by
  cases segments with
  | nil => rfl
  | cons segment rest =>
      cases segment with
      | name label =>
          have hfirst := hname _ (hpaths _ (List.mem_cons_self ..))
          have hrest := meaning_ofSteps hname rest _ fun path hpath =>
            hpaths path (List.mem_cons_of_mem _ hpath)
          rw [Token.ofPath, MarkedStep.ofSegments, List.flatMap_cons, hfirst, hrest]
          rfl
      | index position => exact meaning_ofSteps hname (.index position :: rest) "" hpaths

theorem meaning_ofMembers (number : Nat) (separator : String) :
    ∀ (rank : Nat) (values : List WireValue),
      (∀ entry ∈ memberValues number rank values, compiled.meaning entry.1 = [.value entry.2]) →
      (Token.ofMembers number separator rank values).flatMap compiled.meaning =
        Symbol.ofMembers separator values
  | _, [], _ => rfl
  | rank, [value], hvalues => by
      have hvalue := hvalues _ (List.mem_cons_self ..)
      rw [Token.ofMembers, List.flatMap_singleton, hvalue]
      rfl
  | rank, value :: next :: rest, hvalues => by
      have hvalue := hvalues _ (List.mem_cons_self ..)
      have hrest := meaning_ofMembers number separator (rank + 1) (next :: rest)
        fun entry hentry => hvalues entry (List.mem_cons_of_mem _ hentry)
      have hsplit : Token.ofMembers number separator rank (value :: next :: rest) =
          .member number rank :: .text separator ::
            Token.ofMembers number separator (rank + 1) (next :: rest) := rfl
      rw [hsplit, List.flatMap_cons, List.flatMap_cons, hrest, hvalue, meaning_text]
      rfl

/-- The tokens mean what the pieces say, as far as the tables know them. -/
theorem meaning_ofPieces (pieces : List Piece) : ∀ number : Nat,
    compiled.Knows paths (numberedValues number pieces) →
    (∀ path ∈ pieces.flatMap Piece.namedPaths, path ∈ paths) →
    (Token.ofPieces paths number pieces).flatMap compiled.meaning =
      pieces.flatMap Piece.symbols := by
  induction pieces with
  | nil => exact fun _ _ _ => rfl
  | cons piece rest ih =>
      intro number hknows hpaths
      rw [List.flatMap_cons]
      have hrestPaths : ∀ path ∈ rest.flatMap Piece.namedPaths, path ∈ paths :=
        fun path hpath => hpaths path (List.mem_append_right _ hpath)
      cases piece with
      | text content =>
          rw [Token.ofPieces, List.flatMap_cons, meaning_text, ih number hknows hrestPaths]
          rfl
      | path segments =>
          have hpath := meaning_ofPath hknows.name segments fun path hpath =>
            hpaths path (List.mem_append_left _ hpath)
          rw [Token.ofPieces, List.flatMap_append, hpath, ih number hknows hrestPaths]
          rfl
      | operand value =>
          have hvalue := hknows.value _ (List.mem_cons_self ..)
          have hrest : compiled.Knows paths (numberedValues (number + 1) rest) :=
            ⟨hknows.name, fun entry hentry => hknows.value entry (List.mem_cons_of_mem _ hentry)⟩
          rw [Token.ofPieces, List.flatMap_cons, hvalue, ih (number + 1) hrest hrestPaths]
          rfl
      | operands separator values =>
          have hmembers := meaning_ofMembers number separator 1 values fun entry hentry =>
            hknows.value entry (List.mem_append_left _ hentry)
          have hrest : compiled.Knows paths (numberedValues (number + 1) rest) :=
            ⟨hknows.name, fun entry hentry => hknows.value entry (List.mem_append_right _ hentry)⟩
          rw [Token.ofPieces, List.flatMap_append, hmembers, ih (number + 1) hrest hrestPaths]
          rfl

end Meaning

/-! ## The tables know what they number -/

theorem mem_numberedNames {paths : List NamedPath} {path : NamedPath} (hpath : path ∈ paths) :
    ∀ number, (.name (number + paths.idxOf path), path.name) ∈ numberedNames number paths := by
  induction paths with
  | nil => simp at hpath
  | cons first rest ih =>
      intro number
      by_cases heq : first = path
      · subst heq
        simp [numberedNames]
      · have hrest := ih ((List.mem_cons.mp hpath).resolve_left (Ne.symm heq)) (number + 1)
        have hnumber : number + (first :: rest).idxOf path = number + 1 + rest.idxOf path := by
          rw [List.idxOf_cons_ne _ heq]
          omega
        rw [numberedNames, hnumber]
        exact List.mem_cons_of_mem _ hrest

theorem meaning_placeholder {compiled : CompiledExpression} {token : Token}
    (hplaceholder : token.isPlaceholder = true) :
    compiled.meaning token =
      (if token.nameNumber?.isSome then (Fields.get? compiled.names token.render).map Symbol.name
        else (Fields.get? compiled.values token.render).map Symbol.value).toList := by
  rw [meaning, Token.lexemes, if_pos hplaceholder, ← Token.head_render hplaceholder]
  simp only [List.filterMap_cons, List.filterMap_nil, symbol?]
  split <;> simp_all

theorem knows_ofPieces (pieces : List Piece) :
    (ofPieces pieces).Knows (numberedPaths pieces) (numberedValues 0 pieces) := by
  have hvalueKeys : ((ofPieces pieces).values.map Prod.fst).Nodup := by
    rw [ofPieces, List.map_map]
    have hnodup := nodup_valueKeys pieces 0
    rwa [List.map_map] at hnodup
  have hnameKeys : ((ofPieces pieces).names.map Prod.fst).Nodup := by
    have hfst : (ofPieces pieces).names.map Prod.fst =
        ((numberedNames 0 (numberedPaths pieces)).map Prod.fst).map Token.render := by
      rw [ofPieces, List.map_map, List.map_map]
      rfl
    rw [hfst, numberedNames_fst, List.map_map]
    exact (List.nodup_range' 1).map fun _ _ => Token.render_name_inj
  constructor
  · intro path hpath
    have hmem := mem_numberedNames hpath 0
    rw [Nat.zero_add] at hmem
    have hget : Fields.get? (ofPieces pieces).names
        (Token.name ((numberedPaths pieces).idxOf path)).render = some path.name :=
      (Fields.get?_eq_some_iff hnameKeys).mpr (List.mem_map.mpr ⟨_, hmem, rfl⟩)
    rw [meaning_placeholder (by rfl), hget]
    rfl
  · intro entry hentry
    have hoperand := isOperand_of_mem_numberedValues (List.mem_map.mpr ⟨entry, hentry, rfl⟩)
    have hget : Fields.get? (ofPieces pieces).values entry.1.render = some entry.2 :=
      (Fields.get?_eq_some_iff hvalueKeys).mpr (List.mem_map.mpr ⟨entry, hentry, rfl⟩)
    obtain ⟨token, value⟩ := entry
    cases token with
    | text content => simp [Token.isOperand] at hoperand
    | index position => simp [Token.isOperand] at hoperand
    | name number => simp [Token.isOperand] at hoperand
    | value number => rw [meaning_placeholder (by rfl), hget]; rfl
    | member number rank => rw [meaning_placeholder (by rfl), hget]; rfl

/-- An expression says what its pieces say. -/
theorem symbols_ofPieces {pieces : List Piece} (hspaced : Piece.Spaced pieces) :
    (ofPieces pieces).symbols = pieces.flatMap Piece.symbols := by
  have htokens := meaning_ofPieces pieces 0 (knows_ofPieces pieces) fun path hpath =>
    List.mem_eraseDups.mpr hpath
  rw [symbols, ofChars_ofPieces hspaced, ← htokens, List.filterMap_flatMap]
  rfl

end CompiledExpression

end ItemMapper
