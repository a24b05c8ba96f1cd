import ItemMapper.Proofs.Expression.Symbols
import ItemMapper.Proofs.Place

/-!
# Shared placeholders

Paths that begin alike share the placeholders of their beginnings, and what is alike is told by the
text of a path, in which names and positions stand side by side: `a[0].b` is the text of a name in
the first item of a list, and also that of a name behind the name `a[0]`.

It does no harm.  Names hold no dots, so the name that a path ends in is what stands after the last
dot of its text (`NamedPath.getLast?_split`), and different names have different texts
(`Piece.name_eq_of_path_eq`).  Each path of an expression therefore stands in the text as itself,
whatever stands before it: the text is made of one text for each piece, and with the placeholders
looked up each of them says what its piece says (`CompiledExpression.exists_texts`).
-/

namespace ItemMapper

/-! ## Names and texts of paths -/

/-- No name on the path has a dot. -/
def Segment.Dotless (segments : List Segment) : Prop :=
  ∀ label, .name label ∈ segments → '.' ∉ label.toList

/-- The name at the end of a path stands after the last dot of the text of the path. -/
theorem NamedPath.getLast?_split {segments : List Segment} (hdotless : Segment.Dotless segments) :
    ∀ text : String, ∀ path ∈ (MarkedStep.ofSegments text segments).filterMap MarkedStep.named?,
      (Dotted.split path.path).getLast? = some path.name := by
  induction segments with
  | nil =>
      intro text path hpath
      simp [MarkedStep.ofSegments] at hpath
  | cons segment rest ih =>
      intro text path hpath
      have hrest : Segment.Dotless rest := fun label hlabel =>
        hdotless label (List.mem_cons_of_mem _ hlabel)
      cases segment with
      | index position => exact ih hrest _ path hpath
      | name label =>
          have hsplit := Dotted.split_of_plain (hdotless label (List.mem_cons_self ..))
          rcases List.mem_cons.mp hpath with rfl | hpath
          · dsimp only
            split
            · rw [hsplit, List.getLast?_singleton]
            · rw [Dotted.split_append, hsplit, List.getLast?_concat]
          · exact ih hrest _ path hpath

namespace Piece

/-- The steps of a path. -/
def path? : Piece → Option (List Segment)
  | .path segments => some segments
  | _ => none

theorem mem_paths_iff {pieces : List Piece} {segments : List Segment} :
    segments ∈ pieces.filterMap path? ↔ .path segments ∈ pieces := by
  rw [List.mem_filterMap]
  constructor
  · rintro ⟨piece, hpiece, hpath⟩
    cases piece with
    | path steps =>
        obtain rfl := Option.some.inj hpath
        exact hpiece
    | _ => cases hpath
  · exact fun hpath => ⟨_, hpath, rfl⟩

/-- Paths with the same text end in the same name. -/
theorem name_eq_of_path_eq {pieces : List Piece}
    (hdotless : ∀ segments ∈ pieces.filterMap path?, Segment.Dotless segments) :
    ∀ first ∈ pieces.flatMap namedPaths, ∀ second ∈ pieces.flatMap namedPaths,
      first.path = second.path → first.name = second.name := by
  have hlast : ∀ path ∈ pieces.flatMap namedPaths,
      (Dotted.split path.path).getLast? = some path.name := by
    intro path hpath
    obtain ⟨piece, hpiece, hpath⟩ := List.mem_flatMap.mp hpath
    cases piece with
    | path segments =>
        exact NamedPath.getLast?_split (hdotless segments (mem_paths_iff.mpr hpiece)) "" path hpath
    | text content => simp [namedPaths] at hpath
    | operand value => simp [namedPaths] at hpath
    | operands separator values => simp [namedPaths] at hpath
  intro first hfirst second hsecond hpath
  have hname := hlast first hfirst
  rw [hpath, hlast second hsecond] at hname
  exact (Option.some.inj hname).symm

theorem Spaced.head {piece : Piece} {rest : List Piece} (hspaced : Spaced (piece :: rest)) :
    Spaced [piece] := by
  cases piece with
  | text content => exact ⟨hspaced.1, trivial⟩
  | path segments => exact ⟨trivial, trivial⟩
  | operand value => exact ⟨trivial, trivial⟩
  | operands separator values => exact ⟨hspaced.1, trivial, trivial⟩

theorem Spaced.tail {piece : Piece} {rest : List Piece} (hspaced : Spaced (piece :: rest)) :
    Spaced rest := by
  cases piece with
  | operands separator values => exact hspaced.2.2
  | _ => exact hspaced.2

end Piece

/-! ## Texts of pieces -/

/-- The tokens of the first piece come first, and so do its operands.  The next piece goes on with
some number. -/
theorem Token.exists_ofPieces_cons (paths : List NamedPath) (number : Nat) (piece : Piece)
    (rest : List Piece) : ∃ next,
      ofPieces paths number (piece :: rest) =
        ofPieces paths number [piece] ++ ofPieces paths next rest ∧
      numberedValues number (piece :: rest) =
        numberedValues number [piece] ++ numberedValues next rest := by
  cases piece with
  | text content => exact ⟨number, rfl, rfl⟩
  | path segments => exact ⟨number, by simp [ofPieces], rfl⟩
  | operand value => exact ⟨number + 1, rfl, rfl⟩
  | operands separator values =>
      exact ⟨number + 1, by simp [ofPieces], by simp [numberedValues]⟩

namespace CompiledExpression

/-- A text with the placeholders looked up. -/
def reads (compiled : CompiledExpression) (text : String) : List Symbol :=
  (Lexeme.ofChars text.toList).filterMap compiled.symbol?

/-- The expression shows the pieces: it is made of one text for each of them, and with the
placeholders looked up this text, alone or among the others, says what the piece says.  Names are
told apart by the texts of their paths. -/
structure Shows (compiled : CompiledExpression) (pieces : List Piece) : Prop where
  texts : ∃ texts, compiled.expression = String.join texts ∧
    List.Forall₂ (fun piece text => compiled.reads text = piece.symbols) pieces texts
  together : compiled.reads compiled.expression = pieces.flatMap Piece.symbols
  shared : ∀ first ∈ pieces.flatMap Piece.namedPaths, ∀ second ∈ pieces.flatMap Piece.namedPaths,
    first.path = second.path → first.name = second.name

variable {compiled : CompiledExpression} {paths : List NamedPath} {pieces : List Piece}

theorem reads_of_spaced {tokens : List Token} (hspaced : Token.Spaced tokens) :
    compiled.reads (String.join (tokens.map Token.render)) = tokens.flatMap compiled.meaning := by
  rw [reads, Token.toList_join_render, Token.ofChars_chars hspaced, List.filterMap_flatMap]
  rfl

/-- Each piece has a text of its own, which says what the piece says as far as the tables know it. -/
theorem exists_texts (hspaced : Piece.Spaced pieces)
    (hpaths : ∀ path ∈ pieces.flatMap Piece.namedPaths, path ∈ paths) : ∀ number,
      compiled.Knows paths (numberedValues number pieces) →
      ∃ texts, String.join ((Token.ofPieces paths number pieces).map Token.render) =
          String.join texts ∧
        List.Forall₂ (fun piece text => compiled.reads text = piece.symbols) pieces texts := by
  induction pieces with
  | nil => exact fun _ _ => ⟨[], rfl, .nil⟩
  | cons piece rest ih =>
      intro number hknows
      obtain ⟨next, htokens, hvalues⟩ := Token.exists_ofPieces_cons paths number piece rest
      rw [hvalues] at hknows
      have hfirst : compiled.Knows paths (numberedValues number [piece]) :=
        ⟨hknows.name, fun entry hentry => hknows.value entry (List.mem_append_left _ hentry)⟩
      have hothers : compiled.Knows paths (numberedValues next rest) :=
        ⟨hknows.name, fun entry hentry => hknows.value entry (List.mem_append_right _ hentry)⟩
      obtain ⟨texts, hjoined, hall⟩ := ih hspaced.tail
        (fun path hpath => hpaths path (List.mem_append_right _ hpath)) next hothers
      refine ⟨String.join ((Token.ofPieces paths number [piece]).map Token.render) :: texts, ?_,
        .cons ?_ hall⟩
      · rw [htokens, List.map_append, String.join_append, hjoined, String.join_cons]
      · rw [reads_of_spaced (Token.spaced_ofPieces paths hspaced.head number),
          meaning_ofPieces [piece] number hfirst, List.flatMap_singleton]
        intro path hpath
        rw [List.flatMap_singleton] at hpath
        exact hpaths path (List.mem_append_left _ hpath)

/-- An expression shows the pieces that it is laid out as, if their paths have no dots in names. -/
theorem shows_ofPieces (hspaced : Piece.Spaced pieces)
    (hdotless : ∀ segments ∈ pieces.filterMap Piece.path?, Segment.Dotless segments) :
    (ofPieces pieces).Shows pieces where
  texts := exists_texts hspaced (fun _ hpath => List.mem_eraseDups.mpr hpath) 0
    (knows_ofPieces pieces)
  together := symbols_ofPieces hspaced
  shared := Piece.name_eq_of_path_eq hdotless

end CompiledExpression

end ItemMapper
