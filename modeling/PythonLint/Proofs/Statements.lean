import PythonLint.Proofs.Layout
import PythonLint.Proofs.Lines
import PythonLint.Proofs.TreeText

/-!
# The tokens of statements

The tokens of a source come statement by statement: the marks of blocks that its line opens or
closes, its words and its newline. `Statement` names them together with the locations where the
margin ends, where the code starts and where the newline stands, and `Stacked` puts the statements
of a source one after the other.

The lexemes come from a copy of the source that has spaces for some tabs. A place in the copy has
the same location as that place in the source, so that all locations are counted along the copy.

Main statements: `stacked_of_laidOut`, `stacked_of_tokenize`.
-/

namespace PythonLint

open Text

/-! ### Locations along a text -/

namespace Location

theorem after_of_sameOrTab {a b : List Char} (h : List.Forall₂ SameOrTab a b) (here : Location) :
    here.after a = here.after b := by
  induction h generalizing here with
  | nil => rfl
  | cons hc _ ih =>
    rw [after_cons, after_cons, ih]
    rcases hc with rfl | ⟨rfl, rfl⟩
    · rfl
    · rfl

theorem one_le_line_after (a : List Char) : 1 ≤ (origin.after a).line := by
  rw [after_line]
  exact Nat.le_add_right 1 _

end Location

section Copy

variable {text a b : List Char}

theorem locationAt_copy (h : List.Forall₂ SameOrTab text (a ++ b)) :
    locationAt text (byteLength a) = Location.origin.after a := by
  obtain ⟨a', b', rfl, ha, -⟩ := exists_append_of_forall₂ h
  rw [← byteLength_eq_of_sameOrTab ha, locationAt_append, Location.after_of_sameOrTab ha]

/-- A part without spaces is the same in a text and its copy. -/
theorem sliceBytes_copy {word : List Char} (h : List.Forall₂ SameOrTab text (a ++ word ++ b))
    (hword : ' ' ∉ word) : sliceBytes text (byteLength a) (byteLength (a ++ word)) = word := by
  obtain ⟨head, b', rfl, hhead, -⟩ := exists_append_of_forall₂ h
  obtain ⟨a', word', rfl, ha, hsame⟩ := exists_append_of_forall₂ hhead
  rw [← byteLength_eq_of_sameOrTab ha, ← byteLength_eq_of_sameOrTab hhead, sliceBytes_append,
    eq_of_sameOrTab hsame hword]

end Copy

theorem line_le_length_lines {text a b : List Char} {c : Char}
    (h : List.Forall₂ SameOrTab text (a ++ c :: b)) :
    (Location.origin.after a).line ≤ (lines text).length := by
  obtain ⟨a', rest, rfl, ha, hrest⟩ := exists_append_of_forall₂ h
  cases hrest with
  | @cons d _ b' _ _ _ =>
    have hcount := count_lt_length_lines a' d b'
    rw [← Location.after_of_sameOrTab ha, Location.after_line]
    change 1 + _ ≤ _
    omega

/-! ### Statements -/

/-- The pieces of a line with code. -/
structure Statement where
  margin : Location
  start : Location
  stop : Location
  change : LineChange
  words : List Piece
  newline : Piece

def indentAt (lines : List (List Char)) (line : Nat) : Piece :=
  let blanks := ((lines[line - 1]?).getD []).takeWhile isSpacing
  ⟨.indent, String.ofList blanks, ⟨line, 0⟩, ⟨line, blanks.length⟩⟩

/-- The end of a block. -/
def dedentAt (here : Location) : Piece :=
  ⟨.dedent, "", here, here⟩

namespace Statement

/-- The marks of blocks before the words. The last end of a block stands where the first word
does. -/
def marks (lines : List (List Char)) (statement : Statement) : List Piece :=
  match statement.change with
  | .same => []
  | .opens => [indentAt lines statement.start.line]
  | .closes 0 => []
  | .closes (n + 1) => List.replicate n (dedentAt statement.margin) ++ [dedentAt statement.start]

def pieces (lines : List (List Char)) (statement : Statement) : List Piece :=
  statement.marks lines ++ statement.words ++ [statement.newline]

/-- The pieces stand in order between the locations of the statement, the first word or else the
newline where the code starts. -/
structure Valid (statement : Statement) : Prop where
  margin_le : statement.margin ≤ statement.start
  start_le : statement.start ≤ statement.stop
  isCode : ∀ word ∈ statement.words,
    word.kind ≠ .newline ∧ word.kind ≠ .indent ∧ word.kind ≠ .dedent ∧ word.kind ≠ .endMarker
  within : ∀ word ∈ statement.words,
    statement.start ≤ word.start ∧ word.start ≤ statement.stop ∧ word.stop ≤ statement.stop
  ordered : statement.words.Pairwise fun a b => a.start ≤ b.start
  first : ((statement.words ++ [statement.newline]).head?).map Piece.start = some statement.start
  newline_kind : statement.newline.kind = .newline
  newline_start : statement.newline.start = statement.stop
  newline_line : statement.newline.stop.line = statement.stop.line

end Statement

/-- The statements of a source, where `rest` starts a line inside the open levels, and the ends of
blocks after them. -/
inductive Stacked (text : List Char) :
    (levels : List Level) → (before rest : List Char) → List Statement → List Piece → Prop
  | done (levels : List Level) (before rest : List Char) :
      Stacked text levels before rest []
        (levels.map fun _ => dedentAt (Location.origin.after (before ++ rest)))
  | line {levels inner : List Level} {before margin gap body ending rest : List Char}
      {level : Level} {statement : Statement} {later : List Statement} {tail : List Piece}
      (hmargin : Measures margin level)
      (henter : enterLine level levels = .ok (statement.change, inner)) (hgap : JoinsLines gap)
      (hjoined : gap = [] ∨ gap.head? = some '\\') (hcode : gap ++ body ++ ending ≠ [])
      (hending : IsLineEnding ending) (hatEnd : ending = [] → rest = []) (hvalid : statement.Valid)
      (hmarginAt : statement.margin = Location.origin.after (before ++ margin))
      (hstartAt : statement.start = Location.origin.after (before ++ margin ++ gap))
      (hstopAt : statement.stop = Location.origin.after (before ++ margin ++ gap ++ body))
      (hlexeme : statement.newline.lexeme = String.ofList ending)
      (hline : statement.stop.line ≤ (lines text).length)
      (hlater : Stacked text inner (before ++ margin ++ gap ++ body ++ ending) rest later tail) :
      Stacked text levels before (margin ++ gap ++ body ++ ending ++ rest) (statement :: later) tail

/-! ### Pieces of a line -/

/-- The pieces of lexemes when more follow, the first of them at `code`. -/
def piecesUntil (text : List Char) (lines : List (List Char)) (code : Nat) :
    List Lexeme → List Piece
  | [] => []
  | lexeme :: rest =>
    pieceOf text lines lexeme ((rest.head?.map Lexeme.start).getD code) ::
      piecesUntil text lines code rest

theorem piecesOf_append (text : List Char) (lines : List (List Char)) (a : List Lexeme)
    (next : Lexeme) (b : List Lexeme) :
    piecesOf text lines (a ++ next :: b) =
      piecesUntil text lines next.start a ++ piecesOf text lines (next :: b) := by
  induction a with
  | nil => rfl
  | cons lexeme a ih =>
    rw [List.cons_append, piecesOf, piecesUntil, ih, List.cons_append]
    cases a with
    | nil => rfl
    | cons second a => rfl

theorem piecesUntil_append (text : List Char) (lines : List (List Char)) (code : Nat)
    (a b : List Lexeme) :
    piecesUntil text lines code (a ++ b) =
      piecesUntil text lines ((b.head?.map Lexeme.start).getD code) a ++
        piecesUntil text lines code b := by
  induction a with
  | nil => rfl
  | cons lexeme a ih =>
    rw [List.cons_append, piecesUntil, piecesUntil, ih, List.cons_append]
    cases a with
    | nil => rfl
    | cons second a => rfl

/-- A word as a piece, which does not depend on what follows it. -/
def wordPiece (text : List Char) (lexeme : Lexeme) : Piece :=
  ⟨kindOf lexeme.tok, String.ofList (sliceBytes text lexeme.start lexeme.stop),
    locationAt text lexeme.start, locationAt text lexeme.stop⟩

theorem piecesUntil_words (text : List Char) (lines : List (List Char)) (code : Nat)
    {words : List Lexeme} (h : ∀ word ∈ words, endsLine word.tok = false) :
    piecesUntil text lines code words = words.map (wordPiece text) := by
  induction words with
  | nil => rfl
  | cons word words ih =>
    obtain ⟨hword, hwords⟩ := List.forall_mem_cons.1 h
    rw [piecesUntil, List.map_cons, ih hwords,
      pieceOf_of_not_isBlockMark _ _ (Tok.not_isBlockMark_of_endsLine hword),
      if_neg (Tok.ne_newline_of_endsLine hword)]
    rfl

theorem kindOf_of_endsLine {tok : Tok} (h : endsLine tok = false) :
    kindOf tok ≠ .newline ∧ kindOf tok ≠ .indent ∧ kindOf tok ≠ .dedent ∧
    kindOf tok ≠ .endMarker := by
  cases tok with
  | newline => cases h
  | indent => cases h
  | dedent => cases h
  | _ => simp [kindOf]

/-- The words of a line stand in order inside its body. -/
theorem words_within {text before body : List Char} {words : List Lexeme}
    (hcut : CutFrom before body words) (hwords : ∀ word ∈ words, endsLine word.tok = false)
    (rest : List Char) (htext : List.Forall₂ SameOrTab text (before ++ body ++ rest)) :
    (∀ word ∈ words.map (wordPiece text), Location.origin.after before ≤ word.start ∧
      word.start ≤ Location.origin.after (before ++ body) ∧
      word.stop ≤ Location.origin.after (before ++ body)) ∧
    (words.map (wordPiece text)).Pairwise fun a b => a.start ≤ b.start := by
  induction hcut with
  | done => exact ⟨List.forall_mem_nil _, .nil⟩
  | mark gap hmark =>
    have hends := hwords _ List.mem_cons_self
    rw [endsLine_of_isBlockMark hmark] at hends
    cases hends
  | @word before gap word tail lexeme lexemes hcode hnewline hstart hstop _ ih =>
    obtain ⟨hlexeme, hlexemes⟩ := List.forall_mem_cons.1 hwords
    have hassoc : before ++ (gap ++ word ++ tail) = before ++ gap ++ word ++ tail := by
      simp only [List.append_assoc]
    rw [hassoc] at htext ⊢
    obtain ⟨hrest, hordered⟩ := ih hlexemes htext
    have hfrom : (wordPiece text lexeme).start = Location.origin.after (before ++ gap) := by
      rw [wordPiece, hstart]
      refine locationAt_copy (b := word ++ tail ++ rest) ?_
      simpa only [List.append_assoc] using htext
    have hto : (wordPiece text lexeme).stop = Location.origin.after (before ++ gap ++ word) := by
      rw [wordPiece, hstop]
      refine locationAt_copy (b := tail ++ rest) ?_
      simpa only [List.append_assoc] using htext
    have hgap := Location.after_le_append .origin before gap
    have hword := Location.after_le_append .origin (before ++ gap) word
    have htail := Location.after_le_append .origin (before ++ gap ++ word) tail
    rw [List.map_cons]
    refine ⟨List.forall_mem_cons.2 ⟨?_, fun other hmem => ?_⟩,
      List.pairwise_cons.2 ⟨fun other hmem => ?_, hordered⟩⟩
    · rw [hfrom, hto]
      exact ⟨hgap, Location.le_trans hword htail, htail⟩
    · obtain ⟨hfirst, hwithin⟩ := hrest other hmem
      exact ⟨Location.le_trans (Location.le_trans hgap hword) hfirst, hwithin⟩
    · rw [hfrom]
      exact Location.le_trans hword (hrest other hmem).1

/-- The marks of a line, the ends of blocks being placed at the lexeme after them. -/
theorem piecesUntil_changeLexemes {text : List Char} (lines : List (List Char))
    (statement : Statement) {offset code : Nat} (level : Level)
    (hmargin : statement.margin = locationAt text offset)
    (hstart : statement.start = locationAt text code) :
    piecesUntil text lines code (changeLexemes level offset statement.change) =
      statement.marks lines := by
  unfold Statement.marks
  split
  · next hchange =>
    rw [hchange]
    rfl
  · next hchange =>
    rw [hchange, hstart]
    rfl
  · next hchange =>
    rw [hchange]
    rfl
  · next n hchange =>
    rw [hchange, hmargin, hstart]
    simp only [changeLexemes]
    clear hchange hmargin hstart
    induction n with
    | zero => rfl
    | succ n ih =>
      rw [List.replicate_succ, piecesUntil, ih]
      rfl

theorem piecesOf_dedents (text : List Char) (lines : List (List Char)) (offset : Nat)
    (levels : List Level) :
    piecesOf text lines (levels.map fun _ => ⟨.dedent, offset, offset⟩) =
      levels.map fun _ => dedentAt (locationAt text offset) := by
  induction levels with
  | nil => rfl
  | cons level levels ih =>
    rw [List.map_cons, List.map_cons, piecesOf, ih]
    cases levels with
    | nil => rfl
    | cons second levels => rfl

theorem logicalLines_newline {line : List Piece} (hline : ∀ piece ∈ line, piece.kind ≠ .newline)
    {newline : Piece} (hnewline : newline.kind = .newline) (rest : List Piece) :
    logicalLines (line ++ newline :: rest) =
      ((line ++ [newline]) :: (logicalLines rest).1, (logicalLines rest).2) := by
  induction line with
  | nil =>
    rw [List.nil_append, logicalLines]
    simp only [hnewline, if_true]
    rfl
  | cons piece line ih =>
    obtain ⟨hpiece, hline⟩ := List.forall_mem_cons.1 hline
    rw [List.cons_append, logicalLines, ih hline]
    simp only [if_neg hpiece, List.cons_append]

theorem logicalLines_tail {tail : List Piece} (h : ∀ piece ∈ tail, piece.kind ≠ .newline) :
    logicalLines tail = ([], tail) := by
  induction tail with
  | nil => rfl
  | cons piece tail ih =>
    obtain ⟨hpiece, htail⟩ := List.forall_mem_cons.1 h
    rw [logicalLines, ih htail]
    simp only [if_neg hpiece]

namespace Statement

variable {statement : Statement} {lines : List (List Char)}

/-- A mark starts a block on the line of the code, or ends one at the end of the margin or where the
code starts. -/
theorem mem_marks {mark : Piece} (h : mark ∈ statement.marks lines) :
    mark = indentAt lines statement.start.line ∧ statement.marks lines = [mark] ∨
      mark = dedentAt statement.margin ∨ mark = dedentAt statement.start := by
  unfold marks at h ⊢
  split at h
  · cases h
  · rw [List.mem_singleton] at h
    exact .inl ⟨h, by rw [h]⟩
  · cases h
  · rcases List.mem_append.1 h with h | h
    · exact .inr (.inl (List.eq_of_mem_replicate h))
    · exact .inr (.inr (List.mem_singleton.1 h))

theorem kind_of_mem_marks {mark : Piece} (h : mark ∈ statement.marks lines) :
    mark.kind = .indent ∨ mark.kind = .dedent := by
  rcases mem_marks h with ⟨rfl, -⟩ | rfl | rfl
  · exact .inl rfl
  · exact .inr rfl
  · exact .inr rfl

end Statement

/-! ### From lexemes to statements -/

theorem pieceOf_newlineAt {text before ending rest : List Char} (lines : List (List Char))
    (hending : IsLineEnding ending) (htext : List.Forall₂ SameOrTab text (before ++ ending ++ rest))
    (code : Nat) :
    pieceOf text lines (newlineAt before ending) code =
      ⟨.newline, String.ofList ending, Location.origin.after before,
        ⟨(Location.origin.after before).line,
          (Location.origin.after before).column + ending.length⟩⟩ := by
  have hspace : ' ' ∉ ending := by
    rcases hending with rfl | rfl | rfl | rfl <;> decide
  have hcode : ¬(newlineAt before ending).tok.IsBlockMark := by
    rintro (h | h) <;> cases h
  have hslice := sliceBytes_copy htext hspace
  have hstart : locationAt text (byteLength before) = Location.origin.after before := by
    refine locationAt_copy (b := ending ++ rest) ?_
    rwa [List.append_assoc] at htext
  rw [pieceOf_of_not_isBlockMark _ _ hcode]
  simp only [newlineAt, hslice, hstart, if_true]
  rfl

/-- The statement of a line whose parts are given. -/
def statementOf (text before margin gap body ending : List Char) (change : LineChange)
    (words : List Lexeme) : Statement :=
  let stop := Location.origin.after (before ++ margin ++ gap ++ body)
  { margin := Location.origin.after (before ++ margin)
    start := Location.origin.after (before ++ margin ++ gap)
    stop := stop
    change := change
    words := words.map (wordPiece text)
    newline := ⟨.newline, String.ofList ending, stop, ⟨stop.line, stop.column + ending.length⟩⟩ }

section Line

variable {text before margin gap body ending rest : List Char} {words : List Lexeme}
  (htext : List.Forall₂ SameOrTab text (before ++ margin ++ gap ++ body ++ ending ++ rest))
  (hline : LineCode (before ++ margin ++ gap) body ending rest words)

include htext hline

theorem valid_statementOf
    (hfirst : (words.head?.map Lexeme.start).getD (byteLength (before ++ margin ++ gap ++ body)) =
      byteLength (before ++ margin ++ gap)) (change : LineChange) :
    (statementOf text before margin gap body ending change words).Valid := by
  have hrest : List.Forall₂ SameOrTab text
      (before ++ margin ++ gap ++ body ++ (ending ++ rest)) := by
    rwa [← List.append_assoc]
  have hstart : locationAt text (byteLength (before ++ margin ++ gap)) =
      Location.origin.after (before ++ margin ++ gap) := by
    refine locationAt_copy (b := body ++ (ending ++ rest)) ?_
    rwa [← List.append_assoc]
  obtain ⟨hwithin, hordered⟩ := words_within hline.cut hline.inLine (ending ++ rest) hrest
  refine ⟨Location.after_le_append _ _ _, Location.after_le_append _ _ _, ?_, hwithin, hordered, ?_,
    rfl, rfl, rfl⟩
  · intro word hmem
    obtain ⟨lexeme, hlexeme, rfl⟩ := List.mem_map.1 hmem
    exact kindOf_of_endsLine (hline.inLine lexeme hlexeme)
  · cases words with
    | nil =>
      -- Without words the newline stands where the code starts.
      have hstop := locationAt_copy hrest
      have hbytes : byteLength (before ++ margin ++ gap ++ body) =
        byteLength (before ++ margin ++ gap) := hfirst
      rw [hbytes, hstart] at hstop
      exact congrArg some hstop.symm
    | cons word words =>
      have hword : word.start = byteLength (before ++ margin ++ gap) := hfirst
      have hlocation : (wordPiece text word).start =
          Location.origin.after (before ++ margin ++ gap) := by
        rw [← hstart, wordPiece, hword]
      exact congrArg some hlocation

/-- The newline stands on a line of the source. -/
theorem stop_line_le :
    (Location.origin.after (before ++ margin ++ gap ++ body)).line ≤ (lines text).length := by
  by_cases hending : ending = []
  · -- The source ends here, with a character of that line.
    obtain ⟨rfl, init, c, hlast, hc⟩ := hline.atEnd hending
    rw [hending, List.append_nil, List.append_nil, hlast] at htext
    have hne : c ≠ '\n' := by
      rintro rfl
      cases hc
    rw [hlast, Location.after_append, Location.after_cons, Location.after_nil,
      Location.next_of_ne _ hne]
    exact line_le_length_lines htext
  · obtain ⟨c, tail, rfl⟩ := List.exists_cons_of_ne_nil hending
    refine line_le_length_lines (c := c) (b := tail ++ rest) ?_
    rwa [List.append_assoc] at htext

theorem piecesOf_line
    (hfirst : (words.head?.map Lexeme.start).getD (byteLength (before ++ margin ++ gap ++ body)) =
      byteLength (before ++ margin ++ gap))
    (lines : List (List Char)) (level : Level) (change : LineChange) (later : List Lexeme) :
    piecesOf text lines (changeLexemes level (byteLength (before ++ margin)) change ++ words ++
        newlineAt (before ++ margin ++ gap ++ body) ending :: later) =
      (statementOf text before margin gap body ending change words).marks lines ++
        (statementOf text before margin gap body ending change words).words ++
        (statementOf text before margin gap body ending change words).newline ::
          piecesOf text lines later := by
  have hmarginAt : Location.origin.after (before ++ margin) =
      locationAt text (byteLength (before ++ margin)) := by
    refine (locationAt_copy (b := gap ++ body ++ ending ++ rest) ?_).symm
    simpa only [List.append_assoc] using htext
  have hstartAt : Location.origin.after (before ++ margin ++ gap) =
      locationAt text (byteLength (before ++ margin ++ gap)) := by
    refine (locationAt_copy (b := body ++ ending ++ rest) ?_).symm
    simpa only [List.append_assoc] using htext
  have hmarks : piecesUntil text lines (byteLength (before ++ margin ++ gap))
      (changeLexemes level (byteLength (before ++ margin)) change) =
        (statementOf text before margin gap body ending change words).marks lines :=
    piecesUntil_changeLexemes lines (statementOf text before margin gap body ending change words)
      level hmarginAt
      hstartAt
  have hcode : (words.head?.map Lexeme.start).getD
    (newlineAt (before ++ margin ++ gap ++ body) ending).start =
      byteLength (before ++ margin ++ gap) := hfirst
  rw [piecesOf_append, piecesUntil_append, piecesUntil_words _ _ _ hline.inLine, piecesOf,
    pieceOf_newlineAt lines hline.isLineEnding htext, hcode, hmarks]
  rfl

end Line

/-- Lexemes that come line by line become statements, and the ends of the blocks that are open at
the end. -/
theorem stacked_of_laidOut {text : List Char} {levels : List Level} {before rest : List Char}
    {lexemes : List Lexeme} (hlaid : LaidOut levels before rest lexemes)
    (htext : List.Forall₂ SameOrTab text (before ++ rest)) :
    ∃ statements tail, Stacked text levels before rest statements tail ∧
      logicalLines (piecesOf text (lines text) lexemes) =
        (statements.map (Statement.pieces (lines text)), tail) := by
  induction hlaid with
  | done levels before rest =>
    refine ⟨[], _, .done levels before rest, ?_⟩
    have hend : locationAt text (byteLength (before ++ rest)) =
        Location.origin.after (before ++ rest) := by
      refine locationAt_copy (b := []) ?_
      rwa [List.append_nil]
    rw [piecesOf_dedents, hend]
    refine logicalLines_tail fun piece hmem => ?_
    obtain ⟨_, -, rfl⟩ := List.mem_map.1 hmem
    exact fun h => by cases h
  | @line levels inner before margin gap body ending rest level change words later hmargin henter
      hgap hjoined
      hcode hline hfirst _ ih =>
    have hassoc : before ++ (margin ++ gap ++ body ++ ending ++ rest) =
        before ++ margin ++ gap ++ body ++ ending ++ rest := by
      simp only [List.append_assoc]
    rw [hassoc] at htext
    obtain ⟨statements, tail, hstacked, hlines⟩ := ih htext
    have hvalid := valid_statementOf htext hline hfirst change
    refine ⟨statementOf text before margin gap body ending change words :: statements, tail,
      .line hmargin henter hgap hjoined hcode hline.isLineEnding (fun hnil => (hline.atEnd hnil).1)
      hvalid rfl rfl rfl
        rfl (stop_line_le htext hline) hstacked, ?_⟩
    have hpieces : ∀ piece ∈ (statementOf text before margin gap body ending change words).marks
      (lines text) ++
        (statementOf text before margin gap body ending change words).words,
          piece.kind ≠ .newline := by
      intro piece hmem
      rcases List.mem_append.1 hmem with hmem | hmem
      · rcases Statement.kind_of_mem_marks hmem with h | h <;> rw [h] <;> exact fun h => by cases h
      · exact (hvalid.isCode piece hmem).1
    rw [piecesOf_line htext hline hfirst, logicalLines_newline hpieces hvalid.newline_kind, hlines]
    rfl

/-- The tokens of a source without errors are its statements, the ends of the blocks that are open
at the end, and the end of the source. -/
theorem stacked_of_tokenize {text : List Char} (h : (tokenize text).error = none) :
    ∃ mark rest statements tail, untabify text = mark ++ rest ∧
      (mark = [] ∨ mark = [byteOrderMark]) ∧ Stacked text [] mark rest statements tail ∧
      (tokenize text).tokens =
        (statements.map (Statement.pieces (lines text)) ++ [tail ++ [endPiece text]]).flatMap
          (tokensOfLine (lines text)) := by
  have hfault : (scanModule (untabify text)).fault = none := by
    cases hscan : (scanModule (untabify text)).fault with
    | none => rfl
    | some fault =>
      simp only [tokenize, hscan] at h
      cases h
  obtain ⟨mark, rest, hsplit, hmark, hlaid⟩ := laidOut_of_scanModule hfault
  have hcopy := untabify_sameOrTab text
  rw [hsplit] at hcopy
  obtain ⟨statements, tail, hstacked, hlines⟩ := stacked_of_laidOut hlaid hcopy
  refine ⟨mark, rest, statements, tail, hsplit, hmark, hstacked, ?_⟩
  simp only [tokenize, hfault, hlines]

end PythonLint
