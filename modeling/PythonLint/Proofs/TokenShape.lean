import PythonLint.Proofs.PositionOrder
import PythonLint.Proofs.StatementOrder
import PythonLint.Proofs.TokenReader

/-!
# The shape of a token stream

A token stream is made from a copy of its source, by locations that are looked up in several ways: a
word stands where its lexeme does, a newline ends on the line that it ends, and the mark of a block
stands on the line of the code after it. All the same every token spells the text between its ends
in the source itself. The tokens come in groups, one for each logical line, which share the least
range of lines that covers them. The last group ends with the end of the source, or is lost to the
error that is found in it.

Main statements: `standsIn_of_cutFrom`, `logicalLines_groups`, `proper_of_mem_tokenize`,
`tokenize_streamShape`.
-/

namespace PythonLint

open Text

/-! ### Pieces in a source -/

/-- The piece spells the text between its ends, which stand on lines in order, counted from one. -/
structure Piece.StandsIn (text : List Char) (piece : Piece) : Prop where
  lexeme_eq : piece.lexeme = String.ofList (textBetween text piece.start piece.stop)
  one_le : 1 ≤ piece.start.line
  line_le : piece.start.line ≤ piece.stop.line

theorem textBetween_self (text : List Char) (here : Location) : textBetween text here here = [] :=
  sliceBytes_of_le text (Nat.le_refl _)

theorem line_le_locationFrom (text : List Char) (offset : Nat) (here : Location) (bytes : Nat) :
    here.line ≤ (locationFrom text offset here bytes).line := by
  fun_induction locationFrom text offset here bytes with
  | case1 => exact Nat.le_refl _
  | case2 => exact Nat.le_refl _
  | case3 => exact Nat.le_refl _
  | case4 _ _ here _ _ ih => exact Nat.le_trans (Nat.le_succ here.line) ih
  | case5 _ _ _ _ _ _ _ ih => exact ih

theorem one_le_locationAt (text : List Char) (offset : Nat) : 1 ≤ (locationAt text offset).line :=
  line_le_locationFrom text offset ⟨1, 0⟩ 0

/-- A piece without text that starts where it ends, such as the end of a block. -/
theorem standsIn_empty (text : List Char) (kind : TokenKind) (offset : Nat) :
    (⟨kind, "", locationAt text offset, locationAt text offset⟩ : Piece).StandsIn text := by
  refine ⟨?_, one_le_locationAt text offset, Nat.le_refl _⟩
  rw [textBetween_self]

/-- The characters at the start of a line stand between its first column and the column after
them. -/
theorem textBetween_line {text line : List Char} {n : Nat} (hline : (lines text)[n]? = some line)
    {part : List Char} (hpart : part <+: line) :
    textBetween text ⟨n + 1, 0⟩ ⟨n + 1, part.length⟩ = part := by
  obtain ⟨above, rest, rfl, habove, rfl, hfeed⟩ := exists_startsLine_of_getElem? hline
  obtain ⟨more, rfl⟩ := hpart
  have hfeed : '\n' ∉ part := fun hmem => hfeed (List.mem_append_left _ hmem)
  have hstart := habove.after_eq
  have hstop : Location.origin.after (above ++ part) = ⟨above.count '\n' + 1, part.length⟩ := by
    rw [Location.after_append, hstart, Location.after_of_not_mem _ hfeed, Nat.zero_add]
  have hassoc : above ++ (part ++ more) ++ rest = above ++ part ++ (more ++ rest) := by
    simp only [List.append_assoc]
  rw [hassoc, ← hstart, ← hstop]
  refine textBetween_of_offsets above part (more ++ rest) _ _ ?_ (offsetAt_after _ _)
  rw [List.append_assoc]
  exact offsetAt_after _ _

/-- An indentation spells the blanks at the start of the line that it stands on. -/
theorem standsIn_indentPiece (text : List Char) (code : Nat) :
    (indentPiece text (lines text) code).StandsIn text := by
  have hone := one_le_locationAt text code
  refine ⟨?_, hone, Nat.le_refl _⟩
  rw [indentPiece]
  simp only
  obtain ⟨n, hn⟩ := Nat.exists_eq_add_of_le' hone
  rw [hn, Nat.add_sub_cancel]
  cases hline : (lines text)[n]? with
  | none =>
    rw [Option.getD_none, List.takeWhile_nil, List.length_nil, textBetween_self]
  | some line =>
    rw [Option.getD_some, textBetween_line hline (List.takeWhile_prefix _)]

/-- Words and newlines spell what they were cut from. -/
theorem standsIn_word {before gap word : List Char} {lexeme : Lexeme}
    (hcode : ¬lexeme.tok.IsBlockMark) (hnewline : lexeme.tok = .newline → IsLineEnding word)
    (hstart : lexeme.start = byteLength (before ++ gap))
    (hstop : lexeme.stop = byteLength (before ++ gap ++ word)) (rest : List Char)
    (lines : List (List Char)) (code : Nat) :
    (pieceOf (before ++ gap ++ word ++ rest) lines lexeme code).StandsIn
      (before ++ gap ++ word ++ rest) := by
  obtain ⟨hlexeme, hfrom, hto⟩ := offsetAt_pieceOf hcode hnewline hstart hstop rest lines code
  refine ⟨?_, ?_, ?_⟩
  · rw [hlexeme, textBetween_of_offsets _ _ _ _ _ hfrom hto]
  · rw [pieceOf_of_not_isBlockMark _ _ hcode]
    exact one_le_locationAt _ _
  · have hfirst : locationAt (before ++ gap ++ word ++ rest) lexeme.start =
        Location.origin.after (before ++ gap) := by
      rw [hstart, List.append_assoc]
      exact locationAt_append _ _
    rw [pieceOf_of_not_isBlockMark _ _ hcode]
    simp only
    split
    · exact Nat.le_refl _
    · rw [hfirst, hstop, locationAt_append]
      exact Location.line_le_of_le (Location.after_le_append _ _ _)

/-- The pieces of lexemes that are cut from the rest of a source stand in the source. -/
theorem standsIn_of_cutFrom {text before rest : List Char} {lexemes : List Lexeme}
    (h : CutFrom before rest lexemes) (htext : text = before ++ rest) :
    ∀ piece ∈ piecesOf text (lines text) lexemes, piece.StandsIn text := by
  induction h with
  | done => exact List.forall_mem_nil _
  | @mark before gap rest lexeme lexemes hmark hstop hrest ih =>
    rw [piecesOf]
    refine List.forall_mem_cons.2 ⟨?_, ih (by rw [htext, List.append_assoc])⟩
    unfold pieceOf
    rcases hmark with hindent | hdedent
    · rw [hindent]
      exact standsIn_indentPiece text _
    · rw [hdedent]
      exact standsIn_empty text .dedent _
  | @word before gap word rest lexeme lexemes hcode hnewline hstart hstop hrest ih =>
    have hsplit : text = before ++ gap ++ word ++ rest := by
      rw [htext]
      simp only [List.append_assoc]
    rw [piecesOf]
    refine List.forall_mem_cons.2 ⟨?_, ih hsplit⟩
    have hstands := standsIn_word hcode hnewline hstart hstop rest (lines text)
      ((lexemes.head?.map Lexeme.start).getD lexeme.stop)
    rwa [← hsplit] at hstands

theorem standsIn_piecesOf (text : List Char) :
    ∀ piece ∈ piecesOf text (lines text) (scanModule (untabify text)).lexemes ++ [endPiece text],
      piece.StandsIn text := by
  intro piece hmem
  rcases List.mem_append.1 hmem with hmem | hmem
  · exact standsIn_of_cutFrom (scanModule_untabify_cutFrom text)
      (List.nil_append text).symm piece hmem
  · rw [List.mem_singleton.1 hmem]
    exact standsIn_empty text .endMarker _

theorem kindOf_ne_endMarker (tok : Tok) : kindOf tok ≠ .endMarker := by
  cases tok <;> exact fun h => by cases h

theorem kind_ne_endMarker_of_mem_piecesOf {text : List Char} {lines : List (List Char)}
    {lexemes : List Lexeme} {piece : Piece} (h : piece ∈ piecesOf text lines lexemes) :
    piece.kind ≠ .endMarker := by
  obtain ⟨lexeme, -, code, rfl⟩ := exists_pieceOf_of_mem h
  rw [kind_pieceOf]
  exact kindOf_ne_endMarker lexeme.tok

/-! ### Groups of pieces -/

/-- The group ends with a newline and has no other. -/
def EndsAtNewline (group : List Piece) : Prop :=
  ∃ init newline, group = init ++ [newline] ∧ newline.kind = .newline ∧ ∀ piece ∈ init,
    piece.kind ≠ .newline

theorem EndsAtNewline.cons {group : List Piece} (h : EndsAtNewline group) {piece : Piece}
    (hkind : piece.kind ≠ .newline) : EndsAtNewline (piece :: group) := by
  obtain ⟨init, newline, rfl, hnewline, hinit⟩ := h
  exact ⟨piece :: init, newline, rfl, hnewline, List.forall_mem_cons.2 ⟨hkind, hinit⟩⟩

theorem EndsAtNewline.ne_nil {group : List Piece} (h : EndsAtNewline group) : group ≠ [] := by
  obtain ⟨init, newline, rfl, -⟩ := h
  simp

/-- Each logical line ends at its newline, and there is no newline after the last one. -/
theorem logicalLines_groups (pieces : List Piece) :
    (∀ group ∈ (logicalLines pieces).1, EndsAtNewline group) ∧
      ∀ piece ∈ (logicalLines pieces).2, piece.kind ≠ .newline := by
  induction pieces with
  | nil => exact ⟨List.forall_mem_nil _, List.forall_mem_nil _⟩
  | cons piece pieces ih =>
    rw [logicalLines]
    generalize logicalLines pieces = split at ih
    obtain ⟨groups, tail⟩ := split
    obtain ⟨hgroups, htail⟩ := ih
    by_cases hkind : piece.kind = .newline
    · simp only [if_pos hkind]
      exact ⟨List.forall_mem_cons.2 ⟨⟨[], piece, rfl, hkind, List.forall_mem_nil _⟩, hgroups⟩,
        htail⟩
    · simp only [if_neg hkind]
      cases groups with
      | nil => exact ⟨List.forall_mem_nil _, List.forall_mem_cons.2 ⟨hkind, htail⟩⟩
      | cons group groups =>
        obtain ⟨hfirst, hothers⟩ := List.forall_mem_cons.1 hgroups
        exact ⟨List.forall_mem_cons.2 ⟨hfirst.cons hkind, hothers⟩, htail⟩

/-! ### Groups of tokens -/

/-- The range covers the lines on which a token starts and ends. -/
def LineRange.Covers (range : LineRange) (token : Token) : Prop :=
  token.start.line ∈ range ∧ token.stop.line ∈ range

/-- The range covers the tokens, and so does no range that is not at least as wide on both sides. -/
structure LineRange.IsLeastFor (range : LineRange) (group : List Token) : Prop where
  covers : ∀ token ∈ group, range.Covers token
  least : ∀ other : LineRange, (∀ token ∈ group, other.Covers token) →
    other.first ≤ range.first ∧ range.last ≤ other.last

/-- The tokens share the least range of lines that covers them. -/
def SharesRange (group : List Token) : Prop :=
  group ≠ [] ∧ ∃ range : LineRange, range.IsLeastFor group ∧ ∀ token ∈ group, token.range = range

theorem sharesRange_tokensOfLine {text : List Char} (lines : List (List Char)) {pieces : List Piece}
    (hne : pieces ≠ []) (hpieces : ∀ piece ∈ pieces, piece.StandsIn text) :
    SharesRange (tokensOfLine lines pieces) := by
  refine ⟨TokenReader.tokensOfLine_ne_nil hne, rangeOf pieces,
    ⟨fun token hmem => ?_, fun other hother => ?_⟩, fun token hmem => (mem_tokensOfLine hmem).2⟩
  · have hpiece := (mem_tokensOfLine hmem).1
    obtain ⟨hfirst, hlast⟩ := rangeOf_covers hpiece
    have hline := (hpieces _ hpiece).line_le
    exact ⟨⟨hfirst, Nat.le_trans hline hlast⟩, Nat.le_trans hfirst hline, hlast⟩
  · have htoken : ∀ piece ∈ pieces, other.first ≤ piece.start.line ∧
        piece.stop.line ≤ other.last := by
      intro piece hmem
      obtain ⟨hstart, hstop⟩ := hother _ (List.mem_map_of_mem hmem)
      exact ⟨hstart.1, hstop.2⟩
    exact ⟨le_rangeOf_first hne fun piece hmem => (htoken piece hmem).1,
      rangeOf_last_le hne fun piece hmem => (htoken piece hmem).2⟩

/-- The tokens of one logical line, which ends at its newline. -/
structure IsLogicalLine (group : List Token) : Prop where
  endsAtNewline : EndsAtNewline (group.map Token.toPiece)
  sharesRange : SharesRange group

/-! ### The tokens of a source -/

/-- The last token is the only end of the source, and stands there. -/
def EndsAtEnd (text : List Char) (tokens : List Token) : Prop :=
  ∃ init last, tokens = init ++ [last] ∧ last.kind = .endMarker ∧
    last.start = locationAt text (byteLength text) ∧ last.stop = locationAt text (byteLength text) ∧
    ∀ token ∈ init, token.kind ≠ .endMarker

/-- What the tokens of a source look like, when the scan has found the given pieces and fault. -/
structure StreamShape (text : List Char) (pieces : List Piece) (fault : Option Misplaced)
    (stream : TokenStream) :
    Prop where
  /-- The stream ends in an error exactly if the scan ends in a fault. -/
  error_eq : stream.error = fault.map (tokenError text)
  /-- Without an error the last token is the end of the source. -/
  endsAtEnd : stream.error = none → EndsAtEnd text stream.tokens
  noEnd : stream.error ≠ none → ∀ token ∈ stream.tokens, token.kind ≠ .endMarker
  spelled : ∀ token ∈ stream.tokens, token.lexeme =
    String.ofList (textBetween text token.start token.stop)
  /-- The tokens are those of logical lines, and of what follows the last newline. An error takes
  all of that with it, and no piece of a logical line before it. -/
  grouped : ∃ groups tail, (∀ group ∈ groups, IsLogicalLine group) ∧
    (∀ piece ∈ tail, piece.kind ≠ .newline) ∧ pieces = groups.flatten.map Token.toPiece ++ tail ∧
    (stream.error ≠ none → stream.tokens = groups.flatten) ∧
    (stream.error = none → ∃ last, stream.tokens = (groups ++ [last]).flatten ∧ SharesRange last ∧
      last.map Token.toPiece = tail ++ [endPiece text])

/-- The pieces of a source, all but its end. -/
def sourcePieces (text : List Char) : List Piece :=
  piecesOf text (lines text) (scanModule (untabify text)).lexemes

section Stream

variable {text : List Char}

theorem tokens_of_fault {fault : Misplaced} (h : (scanModule (untabify text)).fault = some fault) :
    (tokenize text).tokens =
      ((logicalLines (sourcePieces text)).1.map (tokensOfLine (lines text))).flatten ∧
      (tokenize text).error = some (tokenError text fault) := by
  simp only [tokenize, h]
  exact ⟨List.flatMap_def, trivial⟩

/-- Without one there is a last group, with the end of the source. -/
theorem tokens_of_no_fault (h : (scanModule (untabify text)).fault = none) :
    (tokenize text).tokens =
      ((logicalLines (sourcePieces text)).1.map (tokensOfLine (lines text)) ++
        [tokensOfLine (lines text) ((logicalLines (sourcePieces text)).2 ++
          [endPiece text])]).flatten ∧
      (tokenize text).error = none := by
  simp only [tokenize, h]
  refine ⟨?_, trivial⟩
  rw [List.flatMap_def, List.map_append, List.map_singleton, sourcePieces]

theorem exists_fault_of_error (h : (tokenize text).error ≠ none) :
    ∃ fault, (scanModule (untabify text)).fault = some fault := by
  cases hfault : (scanModule (untabify text)).fault with
  | none => exact absurd (tokens_of_no_fault hfault).2 h
  | some fault => exact ⟨fault, rfl⟩

theorem fault_of_no_error (h : (tokenize text).error = none) :
    (scanModule (untabify text)).fault = none := by
  cases hfault : (scanModule (untabify text)).fault with
  | none => rfl
  | some fault =>
    rw [(tokens_of_fault hfault).2] at h
    cases h

/-- The tokens before an error are pieces of the source, from the first one on. -/
theorem toPiece_isPrefix_of_error (h : (tokenize text).error ≠ none) :
    (tokenize text).tokens.map Token.toPiece <+: sourcePieces text := by
  obtain ⟨fault, hfault⟩ := exists_fault_of_error h
  rw [(tokens_of_fault hfault).1, ← List.flatMap_def, toPiece_flatMap_tokensOfLine]
  exact ⟨_, flatten_logicalLines _⟩

theorem toPiece_tokenize_isPrefix (text : List Char) :
    (tokenize text).tokens.map Token.toPiece <+: sourcePieces text ++ [endPiece text] := by
  by_cases h : (tokenize text).error = none
  · rw [toPiece_tokenize h]
    exact List.prefix_refl _
  · exact (toPiece_isPrefix_of_error h).trans (List.prefix_append _ _)

theorem standsIn_of_mem_tokenize {token : Token} (h : token ∈ (tokenize text).tokens) :
    token.toPiece.StandsIn text :=
  standsIn_piecesOf text _ ((toPiece_tokenize_isPrefix text).subset (List.mem_map_of_mem h))

theorem endsAtEnd_tokenize (h : (tokenize text).error = none) :
    EndsAtEnd text (tokenize text).tokens := by
  obtain ⟨init, ends, htokens, hinit, hends⟩ := List.map_eq_append_iff.1 (toPiece_tokenize h)
  obtain ⟨last, rfl, hlast⟩ := List.map_eq_singleton_iff.1 hends
  refine ⟨init, last, htokens, ?_, ?_, ?_, fun token hmem => ?_⟩
  · rw [hlast, endPiece]
  · rw [hlast, endPiece]
  · rw [hlast, endPiece]
  · have hpiece := List.mem_map_of_mem (f := Token.toPiece) hmem
    rw [hinit] at hpiece
    exact kind_ne_endMarker_of_mem_piecesOf hpiece

theorem isLogicalLine_tokensOfLine {group : List Piece}
    (hmem : group ∈ (logicalLines (sourcePieces text)).1) :
    IsLogicalLine (tokensOfLine (lines text) group) := by
  have hends := (logicalLines_groups _).1 group hmem
  have hpieces : ∀ piece ∈ group, piece.StandsIn text := by
    intro piece hpiece
    apply standsIn_piecesOf text piece
    apply List.mem_append_left
    rw [← sourcePieces, ← flatten_logicalLines (sourcePieces text)]
    exact List.mem_append_left _ (List.mem_flatten.2 ⟨group, hmem, hpiece⟩)
  exact ⟨by rwa [toPiece_tokensOfLine], sharesRange_tokensOfLine (lines text) hends.ne_nil hpieces⟩

theorem sharesRange_last (text : List Char) :
    SharesRange
      (tokensOfLine (lines text) ((logicalLines (sourcePieces text)).2 ++ [endPiece text])) := by
  have hpieces : ∀ piece ∈ (logicalLines (sourcePieces text)).2 ++ [endPiece text],
      piece.StandsIn text := by
    intro piece hmem
    apply standsIn_piecesOf text piece
    rw [← sourcePieces, ← flatten_logicalLines (sourcePieces text), List.append_assoc]
    exact List.mem_append_right _ hmem
  exact sharesRange_tokensOfLine (lines text) (by simp) hpieces

theorem streamShape (text : List Char) :
    StreamShape text (sourcePieces text) (scanModule (untabify text)).fault (tokenize text) where
  error_eq := by
    cases hfault : (scanModule (untabify text)).fault with
    | none => exact (tokens_of_no_fault hfault).2
    | some fault => exact (tokens_of_fault hfault).2
  endsAtEnd := endsAtEnd_tokenize
  noEnd herror _ hmem :=
    kind_ne_endMarker_of_mem_piecesOf
      ((toPiece_isPrefix_of_error herror).subset (List.mem_map_of_mem hmem))
  spelled _ hmem := (standsIn_of_mem_tokenize hmem).lexeme_eq
  grouped := by
    refine ⟨(logicalLines (sourcePieces text)).1.map (tokensOfLine (lines text)),
      (logicalLines (sourcePieces text)).2, List.forall_mem_map.2 fun group =>
      isLogicalLine_tokensOfLine, (logicalLines_groups _).2, ?_, fun herror => ?_, fun herror => ?_⟩
    · rw [← List.flatMap_def, toPiece_flatMap_tokensOfLine, flatten_logicalLines]
    · obtain ⟨fault, hfault⟩ := exists_fault_of_error herror
      exact (tokens_of_fault hfault).1
    · exact ⟨_, (tokens_of_no_fault (fault_of_no_error herror)).1, sharesRange_last text,
        toPiece_tokensOfLine _ _⟩

/-- Every token belongs to a group of tokens with one range. -/
theorem exists_group_of_mem_tokenize {token : Token} (h : token ∈ (tokenize text).tokens) :
    ∃ group, token ∈ group ∧ SharesRange group ∧
      ∀ other ∈ group, other ∈ (tokenize text).tokens := by
  obtain ⟨groups, tail, hgroups, -, -, herror, hno⟩ := (streamShape text).grouped
  have hflat : ∃ all : List (List Token), (tokenize text).tokens = all.flatten ∧
      ∀ group ∈ all, SharesRange group := by
    by_cases hnone : (tokenize text).error = none
    · obtain ⟨last, htokens, hlast, -⟩ := hno hnone
      refine ⟨_, htokens,
        List.forall_mem_append.2 ⟨fun group hmem => (hgroups group hmem).sharesRange, ?_⟩⟩
      exact List.forall_mem_singleton.2 hlast
    · exact ⟨groups, herror hnone, fun group hmem => (hgroups group hmem).sharesRange⟩
  obtain ⟨all, htokens, hall⟩ := hflat
  rw [htokens] at h ⊢
  obtain ⟨group, hmem, htoken⟩ := List.mem_flatten.1 h
  exact ⟨group, htoken, hall group hmem,
    fun other hother => List.mem_flatten.2 ⟨group, hmem, hother⟩⟩

/-- The ranges of tokens are proper, whether or not the source has an error. -/
theorem proper_of_mem_tokenize {token : Token} (h : token ∈ (tokenize text).tokens) :
    token.range.Proper := by
  obtain ⟨group, hmem, ⟨-, range, hleast, hrange⟩, htokens⟩ := exists_group_of_mem_tokenize h
  have hcovers := hleast.covers token hmem
  -- A range from the first line on covers the group too, so the least one does not start above it.
  have hone := (hleast.least ⟨1, range.last⟩ fun other hother => ?_).1
  · rw [hrange token hmem]
    exact ⟨hone, Nat.le_trans hcovers.1.1 hcovers.1.2⟩
  · have hstands := standsIn_of_mem_tokenize (htokens other hother)
    have hother := hleast.covers other hother
    exact ⟨⟨hstands.one_le, hother.1.2⟩, Nat.le_trans hstands.one_le hstands.line_le, hother.2.2⟩

end Stream

/-- Reading a source call by call gives its tokens, then its error if it has one, and nothing ever
after. The tokens are those of logical lines, each of which shares the least range that covers it,
every token spells the text between its ends, and the last one is the end of the source unless an
error takes its place. -/
theorem tokenize_streamShape (text : List Char) :
    (∀ n, (TokenReader.ofText text).call n = (tokenize text).results[n]?) ∧
      StreamShape text (sourcePieces text) (scanModule (untabify text)).fault (tokenize text) :=
  ⟨TokenReader.call_ofText text, streamShape text⟩

end PythonLint
