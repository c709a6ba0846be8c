import PythonLint.Proofs.PassSeparation
import PythonLint.Proofs.TokenShape

/-!
# Tabs and spaces before a statement

A margin is judged by the text of a logical line, which starts with all blanks of its first lines.
That this is the margin of the first physical line alone has a reason: a logical line of more than
one physical line has something other than a blank on its first one. The mark of a block may stand
above the first word, but only at a backslash that joins lines, and a word never starts with a
blank, in any script.

Main statements: `IsPiece.not_isBlank`, `Run.startsInk`, `Statement.Valid.first_line_cases`,
`mixedMargins_once`.
-/

namespace PythonLint

open Text

variable {c : Char} {line rest text : List Char} {token : Token}

/-! ### Blanks -/

namespace Text

def blankCodes : List Nat :=
  [0x9, 0xA, 0xB, 0xC, 0xD, 0x20, 0x85, 0xA0, 0x1680, 0x2000, 0x2001, 0x2002, 0x2003, 0x2004,
    0x2005, 0x2006, 0x2007, 0x2008, 0x2009, 0x200A, 0x2028, 0x2029, 0x202F, 0x205F, 0x3000]

theorem toNat_mem_blankCodes (h : isBlank c = true) : c.toNat ∈ blankCodes := by
  simp only [isBlank, Bool.or_eq_true, Bool.and_eq_true, decide_eq_true_eq, beq_iff_eq] at h
  simp only [blankCodes, List.mem_cons, List.not_mem_nil, or_false]
  omega

theorem not_isBlank_of {p : Char → Bool} (hp : ∀ n ∈ blankCodes, p (Char.ofNat n) = false)
    (hc : p c = true) : isBlank c = false := by
  by_contra hblank
  have hnot := hp c.toNat (toNat_mem_blankCodes (by simpa using hblank))
  rw [Char.ofNat_toNat, hc] at hnot
  cases hnot

/-- Blanks are cut off at the end, not before another character. -/
theorem trimEnd_append_cons (a : List Char) (hc : isBlank c = false) (b : List Char) :
    trimEnd (a ++ c :: b) = a ++ c :: trimEnd b := by
  have hdrop : (b.reverse ++ c :: a.reverse).dropWhile isBlank =
      b.reverse.dropWhile isBlank ++ c :: a.reverse := by
    rw [List.dropWhile_append]
    split
    · next hempty =>
      rw [List.isEmpty_iff.1 hempty, List.nil_append, List.dropWhile_cons_of_neg (by simp [hc])]
    · rfl
  rw [trimEnd, dropEndWhile, List.reverse_append, List.reverse_cons, List.append_assoc,
    List.singleton_append, hdrop]
  simp [trimEnd, dropEndWhile]

/-- What follows a character other than a blank does not belong to the margin. -/
theorem margin_append_cons (a : List Char) (hc : isBlank c = false) (b : List Char) :
    margin (a ++ c :: b) = margin a := by
  rw [margin, List.takeWhile_append]
  split
  · next hall =>
    rw [List.takeWhile_cons_of_neg (by simp [hc]), List.append_nil, margin]
    exact ((List.takeWhile_prefix _).eq_of_length hall).symm
  · rfl

/-- A line that is not blank has the same margin whatever follows it. -/
theorem margin_trimEnd_append (hmem : c ∈ line) (hc : isBlank c = false) (more : List Char) :
    margin (trimEnd (line ++ more)) = margin line := by
  obtain ⟨a, b, rfl⟩ := List.append_of_mem hmem
  rw [List.append_assoc, List.cons_append, trimEnd_append_cons a hc, margin_append_cons a hc,
    margin_append_cons a hc]

end Text

/-! ### Words -/

def startsLiteral (c : Char) : Bool :=
  isQuote c || ['r', 'f', 'u', 'b'].contains c.toLower

theorem startsLiteral_of_literalStart? (h : literalStart? (c :: rest) ≠ none) :
    startsLiteral c = true := by
  by_contra hstart
  rw [startsLiteral, Bool.or_eq_true, not_or, List.contains_iff_mem] at hstart
  obtain ⟨hquote, hletter⟩ := hstart
  refine h (literalStart?_eq_none (by simpa using hquote) ?_ ?_ rest)
  · unfold letterKind?
    split <;> simp_all
  · intro d
    unfold lettersKind?
    split <;> simp_all

/-- A word, a number, a literal or a symbol does not start with a blank. -/
theorem IsPiece.not_isBlank {depth : Nat} {tok : Tok} {size : Nat}
    (h : IsPiece depth c rest (some tok) size) (htok : endsLine tok = false) :
    isBlank c = false := by
  cases h with
  | literal hletters =>
    have hstart : literalStart? (c :: rest) ≠ none := by
      rw [hletters]
      exact Option.some_ne_none _
    exact not_isBlank_of (p := startsLiteral) (by decide) (startsLiteral_of_literalStart? hstart)
  | word _ hc => exact not_isBlank_of (p := isIdentifierStart) (by decide +kernel) hc
  | emoji _ _ hc => exact not_isBlank_of (p := isEmoji) (by decide +kernel) hc
  | number _ _ _ hc =>
    refine not_isBlank_of (p := fun c => isDigitIn 10 c || c = '.') (by decide) ?_
    rw [Bool.or_eq_true, Bool.and_eq_true] at hc
    rw [Bool.or_eq_true]
    exact hc.imp_right And.left
  | newline => cases htok
  | symbol _ _ hscan =>
    obtain ⟨hmem, hspelled⟩ := mem_symbols_of_scanSymbol? hscan
    have hsymbols : (symbols.all fun symbol => symbol.toList.all fun c => !isBlank c) =
      true := by decide
    have hfirst :=
      List.all_eq_true.1 (List.all_eq_true.1 hsymbols _ hmem) c (head_mem_symbol hmem hspelled)
    simpa using hfirst

/-- A word stands in the text, and its first character is not a blank. -/
def StartsInk (text : List Char) (lexeme : Lexeme) : Prop :=
  endsLine lexeme.tok = false →
    ∃ a c b, text = a ++ c :: b ∧ lexeme.start = byteLength a ∧ isBlank c = false

theorem startsInk_of_endsLine (text : List Char) {lexeme : Lexeme}
    (h : endsLine lexeme.tok = true) : StartsInk text lexeme := by
  intro hword
  rw [h] at hword
  cases hword

/-- No run of the scanner yields a word that starts with a blank. -/
theorem Run.startsInk {before : List Char} {scanner : Scanner} {lexemes : List Lexeme}
    (h : Run before scanner text lexemes) :
    ∀ lexeme ∈ lexemes, StartsInk (before ++ text) lexeme := by
  have hfinish : ∀ {scanner : Scanner} {offset : Nat} (text : List Char),
      ∀ lexeme ∈ (finishScan offset scanner).lexemes, StartsInk text lexeme := by
    intro scanner offset text lexeme hmem
    rcases mem_finishScan hmem with rfl | rfl <;> exact startsInk_of_endsLine text rfl
  induction h with
  | finish => exact hfinish _
  | blank => exact hfinish _
  | @margin before scanner margin code level change levels lexemes _ _ _ _ _ ih =>
    rw [← List.append_assoc]
    refine List.forall_mem_append.2 ⟨fun lexeme hmem => ?_, ih⟩
    exact startsInk_of_endsLine _
      (endsLine_of_isBlockMark (changeLexemes_marks _ _ _ lexeme hmem).1)
  | @piece before scanner c word rest tok lexemes _ hpiece _ ih =>
    have hassoc : before ++ (c :: word ++ rest) = before ++ c :: word ++ rest := by
      simp only [List.append_assoc]
    rw [hassoc]
    refine List.forall_mem_append.2 ⟨fun lexeme hmem => ?_, ih⟩
    obtain ⟨yielded, htok, rfl⟩ := List.mem_map.1 hmem
    rw [Option.mem_toList] at htok
    obtain rfl : tok = some yielded := htok
    exact fun hword => ⟨before, c, word ++ rest, hassoc.symm, rfl,
      (isPiece_of_scanPiece hpiece).not_isBlank hword⟩

theorem startsInk_of_sameLexeme {a b : List Lexeme} (h : List.Forall₂ SameLexeme a b)
    (hb : ∀ lexeme ∈ b, StartsInk text lexeme) : ∀ lexeme ∈ a, StartsInk text lexeme := by
  induction h with
  | nil => exact List.forall_mem_nil _
  | @cons raw resolved _ _ hsame _ ih =>
    obtain ⟨hfirst, hrest⟩ := List.forall_mem_cons.1 hb
    refine List.forall_mem_cons.2 ⟨fun hword => ?_, ih hrest⟩
    rw [hsame.1]
    refine hfirst ?_
    rcases hsame.2.2 with htok | htok
    · rwa [← htok]
    · exact htok.2

theorem startsInk_scanModule (h : (scanModule text).fault = none) :
    ∀ lexeme ∈ (scanModule text).lexemes, StartsInk text lexeme := by
  obtain ⟨mark, rest, rfl, -, hscan⟩ := scanAt_eq_scanFrom text
  refine startsInk_of_sameLexeme (resolveSoftKeywords_sameLexeme true _) ?_
  rw [hscan]
  apply Run.startsInk
  apply run_of_fault_eq_none
  rw [← hscan]
  exact h

/-! ### Locations -/

/-- Something other than a blank stands at the location. -/
def InkAt (text : List Char) (here : Location) : Prop :=
  ∃ a c b, text = a ++ c :: b ∧ Location.origin.after a = here ∧ isBlank c = false

theorem inkAt_of_copy {a b : List Char} (h : List.Forall₂ SameOrTab text (a ++ c :: b))
    (hc : isBlank c = false) : InkAt text (Location.origin.after a) := by
  obtain ⟨a', rest, rfl, ha, hrest⟩ := exists_append_of_forall₂ h
  cases hrest with
  | @cons d _ b' _ hd _ =>
    refine ⟨a', d, b', rfl, Location.after_of_sameOrTab ha _, ?_⟩
    rcases hd with rfl | ⟨-, rfl⟩
    · exact hc
    · cases hc

theorem mem_dropReturn (hmem : c ∈ line) (hc : c ≠ '\r') : c ∈ dropReturn line := by
  unfold dropReturn
  split
  · next hlast =>
    obtain ⟨init, rfl⟩ := List.getLast?_eq_some_iff.1 hlast
    rw [List.dropLast_concat]
    exact (List.mem_append.1 hmem).resolve_right fun hreturn => hc (List.mem_singleton.1 hreturn)
  · exact hmem

theorem InkAt.exists_line {here : Location} (h : InkAt text here) :
    ∃ line, (lines text)[here.line - 1]? = some line ∧ ∃ c ∈ line, isBlank c = false := by
  obtain ⟨a, c, b, rfl, rfl, hc⟩ := h
  obtain ⟨above, start, rfl, habove, hstart⟩ := exists_startsLine a
  have hfeed : c ≠ '\n' := by
    rintro rfl
    cases hc
  have hreturn : c ≠ '\r' := by
    rintro rfl
    cases hc
  rw [getElem?_lines habove hstart]
  -- The line goes on to the next line feed, or to the end of the text.
  have hline : ∀ more : List Char, '\n' ∉ more → '\n' ∉ start ++ c :: more := by
    intro more hmore hmem
    rcases List.mem_append.1 hmem with hmem | hmem
    · exact hstart hmem
    · rcases List.mem_cons.1 hmem with rfl | hmem
      · exact hfeed rfl
      · exact hmore hmem
  by_cases hmem : '\n' ∈ b
  · obtain ⟨more, rest, rfl, hmore⟩ := List.eq_append_cons_of_mem hmem
    have hassoc : start ++ c :: (more ++ '\n' :: rest) =
      start ++ c :: more ++ '\n' :: rest := by simp
    rw [hassoc, lines_lineFeed (hline more hmore)]
    exact ⟨_, rfl, c, mem_dropReturn (by simp) hreturn, hc⟩
  · rw [lines_of_not_mem (hline b hmem) (by simp)]
    exact ⟨_, rfl, c, by simp, hc⟩

/-- A word becomes a piece that starts where it does. -/
theorem exists_lexeme_of_mem_piecesOf {lines : List (List Char)} {lexemes : List Lexeme}
    {piece : Piece} (h : piece ∈ piecesOf text lines lexemes)
    (hkind : piece.kind ≠ .newline ∧ piece.kind ≠ .indent ∧ piece.kind ≠ .dedent) :
    ∃ lexeme ∈ lexemes, endsLine lexeme.tok = false ∧
      piece.start = locationAt text lexeme.start := by
  obtain ⟨lexeme, hmem, code, rfl⟩ := exists_pieceOf_of_mem h
  refine ⟨lexeme, hmem, ?_⟩
  unfold pieceOf at hkind ⊢
  cases htok : lexeme.tok with
  | indent =>
    rw [htok] at hkind
    exact absurd rfl hkind.2.1
  | dedent =>
    rw [htok] at hkind
    exact absurd rfl hkind.2.2
  | newline =>
    rw [htok] at hkind
    exact absurd rfl hkind.1
  | _ => exact ⟨rfl, rfl⟩

section Source

variable {text : List Char} (hnone : (tokenize text).error = none)

include hnone

/-- The words of a source start with something other than a blank. -/
theorem inkAt_of_word (hmem : token ∈ (tokenize text).tokens)
    (hkind : token.kind ≠ .newline ∧ token.kind ≠ .indent ∧ token.kind ≠ .dedent ∧
      token.kind ≠ .endMarker) :
    InkAt text token.start := by
  have hpiece : token.toPiece ∈ sourcePieces text := by
    rcases List.mem_append.1
      ((toPiece_tokenize_isPrefix text).subset (List.mem_map_of_mem hmem)) with hpiece | hend
    · exact hpiece
    · have hlast := List.mem_singleton.1 hend
      exact absurd (congrArg Piece.kind hlast) hkind.2.2.2
  obtain ⟨lexeme, hlexeme, hword, hstart⟩ :=
    exists_lexeme_of_mem_piecesOf hpiece ⟨hkind.1, hkind.2.1, hkind.2.2.1⟩
  obtain ⟨a, c, b, hcopy, hoffset, hc⟩ :=
    startsInk_scanModule (fault_of_no_error hnone) lexeme hlexeme hword
  have hsame := untabify_sameOrTab text
  rw [hcopy] at hsame
  rw [show token.start = locationAt text lexeme.start from hstart, hoffset, locationAt_copy hsame]
  exact inkAt_of_copy hsame hc

end Source

/-! ### The first line of a statement -/

namespace Statement

variable {statement : Statement}

/-- A statement starts on the line of its code, or on that of its margin. -/
theorem Valid.range_first (hvalid : statement.Valid) (lines : List (List Char)) :
    (rangeOf (statement.pieces lines)).first = statement.margin.line ∨
      (rangeOf (statement.pieces lines)).first = statement.start.line := by
  obtain ⟨hmargin, hstart, -⟩ := hvalid.range_eq lines
  by_cases hdedent : dedentAt statement.margin ∈ statement.pieces lines
  · exact .inl (Nat.le_antisymm (rangeOf_covers hdedent).1 hmargin)
  · refine .inr (Nat.le_antisymm hstart (le_rangeOf_first (by simp [pieces]) fun piece hmem => ?_))
    -- All other pieces start on the line of the code or below it.
    rcases mem_pieces hmem with hmark | hword | rfl
    · rcases mem_marks hmark with ⟨rfl, -⟩ | rfl | rfl
      · exact Nat.le_refl _
      · exact absurd hmem hdedent
      · exact Nat.le_refl _
    · exact Location.line_le_of_le (hvalid.within piece hword).1
    · rw [hvalid.newline_start]
      exact Location.line_le_of_le hvalid.start_le

/-- The lines of a statement are one line, or something other than a blank stands on the first of
them. -/
theorem Valid.first_line_cases (hvalid : statement.Valid)
    (hmargin : statement.margin = statement.start ∨ InkAt text statement.margin)
    (hwords : ∀ word ∈ statement.words, InkAt text word.start) (lines : List (List Char)) :
    (rangeOf (statement.pieces lines)).first = (rangeOf (statement.pieces lines)).last ∨
      ∃ here, InkAt text here ∧ here.line = (rangeOf (statement.pieces lines)).first := by
  obtain ⟨-, -, hlast⟩ := hvalid.range_eq lines
  have hcode : (rangeOf (statement.pieces lines)).first = statement.start.line →
      (rangeOf (statement.pieces lines)).first = (rangeOf (statement.pieces lines)).last ∨
        ∃ here, InkAt text here ∧ here.line = (rangeOf (statement.pieces lines)).first := by
    intro hfirst
    obtain ⟨piece, hhead, hstart⟩ := Option.map_eq_some_iff.1 hvalid.first
    cases hsome : statement.words with
    | nil =>
      -- The newline stands where the code starts.
      rw [hsome, List.nil_append, List.head?_cons, Option.some.injEq] at hhead
      left
      rw [hfirst, hlast, ← hstart, ← hhead, hvalid.newline_start]
    | cons word words =>
      rw [hsome, List.cons_append, List.head?_cons, Option.some.injEq] at hhead
      right
      refine ⟨word.start, hwords word (by rw [hsome]; exact List.mem_cons_self), ?_⟩
      rw [hfirst, ← hstart, hhead]
  rcases hvalid.range_first lines with hfirst | hfirst
  · rcases hmargin with hsame | hink
    · exact hcode (by rw [hfirst, hsame])
    · exact .inr ⟨_, hink, hfirst.symm⟩
  · exact hcode hfirst

end Statement

/-- The margin of a statement ends where its code starts, or at a backslash. -/
theorem Stacked.margin_ink {levels : List Level} {before : List Char} {statements : List Statement}
    {tail : List Piece} (h : Stacked text levels before rest statements tail)
    (htext : List.Forall₂ SameOrTab text (before ++ rest)) :
    ∀ statement ∈ statements, statement.margin = statement.start ∨ InkAt text statement.margin := by
  induction h with
  | done => exact List.forall_mem_nil _
  | @line levels inner before margin gap body ending rest level statement later tail hmargin henter
      hgap hjoined hcode
      hending hatEnd hvalid hmarginAt hstartAt hstopAt hlexeme hline _ ih =>
    have hassoc : before ++ (margin ++ gap ++ body ++ ending ++ rest) =
        before ++ margin ++ gap ++ body ++ ending ++ rest := by
      simp only [List.append_assoc]
    rw [hassoc] at htext
    refine List.forall_mem_cons.2 ⟨?_, ih htext⟩
    rcases hjoined with rfl | hhead
    · left
      rw [hmarginAt, hstartAt, List.append_nil]
    · -- The code is on a line below, and the line of the margin ends with the backslash.
      right
      obtain ⟨joined, rfl⟩ : ∃ joined, gap = '\\' :: joined := by
        cases gap with
        | nil => cases hhead
        | cons c joined => exact ⟨joined, by rw [Option.some.inj hhead]⟩
      rw [hmarginAt]
      refine inkAt_of_copy (b := joined ++ body ++ ending ++ rest) (c := '\\') ?_ rfl
      simpa only [List.append_assoc, List.cons_append] using htext

/-- A statement of more than one physical line has something other than a blank on the first. -/
theorem first_line_of_newline (hnone : (tokenize text).error = none)
    (hmem : token ∈ (tokenize text).tokens) (hkind : token.kind = .newline) :
    ∃ line, (lines text)[token.range.first - 1]? = some line ∧
      (token.range.first = token.range.last ∨ ∃ c ∈ line, isBlank c = false) := by
  obtain ⟨mark, rest, statements, tail, hsplit, -, hstacked, htokens⟩ := stacked_of_tokenize hnone
  have hsequence := (inSequence_of_stacked hstacked).1
  have hsame := untabify_sameOrTab text
  rw [hsplit] at hsame
  obtain ⟨statement, hstatement, -, hrange⟩ :=
    hsequence.exists_statement_of_newline (htokens ▸ hmem) hkind
  have hvalid := hsequence.valid statement hstatement
  have hwords : ∀ word ∈ statement.words, InkAt text word.start := by
    intro word hword
    have hpieces : word ∈ (tokenize text).tokens.map Token.toPiece := by
      rw [htokens, toPiece_flatMap_tokensOfLine]
      refine List.mem_flatten.2 ⟨statement.pieces (lines text), ?_, ?_⟩
      · exact List.mem_append_left _ (List.mem_map_of_mem hstatement)
      · exact List.mem_append_left _ (List.mem_append_right _ hword)
    obtain ⟨other, hother, rfl⟩ := List.mem_map.1 hpieces
    exact inkAt_of_word hnone hother (hvalid.isCode _ hword)
  have hproper := proper_of_mem_tokenize hmem
  rcases hvalid.first_line_cases (hstacked.margin_ink hsame statement hstatement) hwords
    (lines text) with
    hone | ⟨here, hink, hhere⟩
  · rw [← hrange] at hone
    have hbound : token.range.first - 1 < (lines text).length := by
      have hlast := (hvalid.range_eq (lines text)).2.2
      have hstop := (hsequence.inSource statement hstatement).2
      rw [← hrange] at hlast
      have := hproper.1
      omega
    exact ⟨_, List.getElem?_eq_getElem hbound, .inl hone⟩
  · obtain ⟨line, hline, hink⟩ := hink.exists_line
    rw [hhere, ← hrange] at hline
    exact ⟨line, hline, .inr hink⟩

/-! ### Margins -/

theorem logicalText_eq {lines : List (List Char)} {range : LineRange} (hproper : range.Proper)
    (hline : lines[range.first - 1]? = some line) :
    ∃ more, logicalText lines range = String.ofList (trimEnd (line ++ more)) ∧
      (range.first = range.last → more = []) := by
  obtain ⟨hbound, hget⟩ := List.getElem?_eq_some_iff.1 hline
  obtain ⟨hfirst, hle⟩ := hproper
  have htaken : (lines.take range.last).drop (range.first - 1) =
      line :: (lines.drop range.first).take (range.last - range.first) := by
    have hnext : range.first - 1 + 1 = range.first := by omega
    have hcount : range.last - (range.first - 1) = range.last - range.first + 1 := by omega
    rw [List.drop_take, List.drop_eq_getElem_cons hbound, hget, hcount, hnext, List.take_succ_cons]
  rw [logicalText, htaken]
  cases hothers : (lines.drop range.first).take (range.last - range.first) with
  | nil => exact ⟨[], by rw [unlines, List.append_nil], fun _ => rfl⟩
  | cons second others =>
    refine ⟨'\n' :: unlines (second :: others), rfl, fun hsame => ?_⟩
    rw [hsame, Nat.sub_self, List.take_zero] at hothers
    cases hothers

/-- The physical line has both tabs and spaces among the blanks before its code, the blanks at its
end being cut off. -/
def mixesMargin (text : List Char) (line : Nat) : Bool :=
  (lines text)[line - 1]?.any fun line =>
    (margin (trimEnd line)).contains ' ' && (margin (trimEnd line)).contains '\t'

theorem hasMixedMargin_eq (hnone : (tokenize text).error = none)
    (hmem : token ∈ (tokenize text).tokens) (hkind : token.kind = .newline) :
    hasMixedMargin token = mixesMargin text token.range.first := by
  obtain ⟨line, hline, hcases⟩ := first_line_of_newline hnone hmem hkind
  obtain ⟨more, htext, hmore⟩ := logicalText_eq (proper_of_mem_tokenize hmem) hline
  have hmargin : margin (trimEnd (line ++ more)) = margin (trimEnd line) := by
    rcases hcases with hone | ⟨c, hc, hink⟩
    · rw [hmore hone, List.append_nil]
    · have hline := margin_trimEnd_append hc hink []
      rw [List.append_nil] at hline
      rw [margin_trimEnd_append hc hink, hline]
  rw [hasMixedMargin, mixesMargin, hline, LineMap.logicalLine_of_mem_tokenize hmem, htext,
    String.toList_ofList, hmargin]
  rfl

/-! ### Warnings -/

/-- The warnings about margins among those of the pass, which do not depend on the blocks that are
open. -/
theorem filter_tokenWarningsFrom_mixed (reporter : Reporter) (blocks : List Int)
    (tokens : List Token) :
    (tokenWarningsFrom reporter blocks tokens).filter (·.kind = .mixedTabsAndSpaces) =
      (tokens.filter fun token => token.kind = .newline && hasMixedMargin token).map
        (mixedMargin reporter) := by
  induction tokens generalizing blocks with
  | nil => rfl
  | cons token tokens ih =>
    have hfirst : (tokenWarnings reporter blocks token).filter (·.kind = .mixedTabsAndSpaces) =
        ([token].filter fun token => token.kind = .newline && hasMixedMargin token).map
          (mixedMargin reporter) := by
      cases hkind : token.kind with
      | indent =>
        simp only [tokenWarnings, hkind]
        split <;> simp [hkind, wrongIndentation, Reporter.between]
      | newline =>
        simp only [tokenWarnings, hkind]
        split
        · next hmixed => simp [hkind, hmixed, mixedMargin, Reporter.between]
        · next hmixed => simp [hkind, hmixed]
      | _ => simp [tokenWarnings, hkind]
    rw [tokenWarningsFrom, List.filter_append, ih, hfirst, ← List.map_append, ← List.filter_append,
      List.singleton_append]

/-- A source without errors gets one warning about tabs and spaces for each newline whose statement
starts on a physical line that has both in its margin, between the ends of the newline, and no
other. -/
theorem mixedMargins_once [Text.CharNames] (version : Version) (source : Source)
    (hnone : (tokenize source.text).error = none) :
    ∃ warnings, runPass version source (tokenize source.text) .token = .ok warnings ∧
      warnings.filter (·.kind = .mixedTabsAndSpaces) =
        ((tokenize source.text).tokens.filter fun token =>
          token.kind = .newline && mixesMargin source.text token.range.first).map fun token =>
            (Reporter.ofTokens source.name source.text (tokenize source.text).tokens).between
              .mixedTabsAndSpaces
              ("Tabs and spaces are mixed. This is disallowed on Python 3 and inconsistent. " ++
                "Use either tabs or spaces exclusively, preferably spaces.")
              token.start token.stop := by
  refine ⟨_, runPass_token hnone, ?_⟩
  rw [checkTokens, filter_tokenWarningsFrom_mixed]
  refine congrArg _ (List.filter_congr fun token hmem => ?_)
  by_cases hkind : token.kind = .newline
  · rw [hasMixedMargin_eq hnone hmem hkind]
  · simp [hkind]

/-- A statement whose first line has a tab and a space, and one that only has both on a later line,
below the backslash at which two blocks end. -/
theorem mixedMargins_once_joined :
    let source :=
      Source.ofText "module" "if x:\n\tif y:\n\t z = (1,\n\t  2)\n# c\n\\\n \tw = 3\n".toList
    (tokenize source.text).error = none ∧ mixesMargin source.text 3 = true ∧
      mixesMargin source.text 7 = true ∧
      ∃ warnings, runPass .python3 source (tokenize source.text) .token = .ok warnings ∧
        (warnings.filter (·.kind = .mixedTabsAndSpaces)).map
          (fun warning => (warning.start, warning.stop)) =
          [(⟨4, 5⟩, ⟨4, 6⟩)] := by
  intro source
  have hnone : (tokenize source.text).error = none := by decide +kernel
  obtain ⟨warnings, hrun, hmixed⟩ := mixedMargins_once .python3 source hnone
  refine ⟨hnone, by decide +kernel, by decide +kernel, warnings, hrun, ?_⟩
  rw [hmixed, List.map_map]
  decide +kernel

end PythonLint
