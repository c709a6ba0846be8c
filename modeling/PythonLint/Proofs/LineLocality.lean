import PythonLint.Proofs.Lookahead
import PythonLint.Proofs.TokenShape

/-!
# The tokens of a line do not depend on what follows

A source is read from left to right, but not blindly: a piece is read with a look at the characters
after it, and a soft keyword with a look at the lexemes after it. Neither goes past the end of a
line that ends a statement. So the tokens up to the newline of a statement stay the same when the
text after it is exchanged for another, which may have faults of its own.

The scanner may stop at a fault later on. `RunTo tail before scanner text lexemes last` therefore
describes a run that need not reach the end: the scanner reads `text`, which `tail` follows, and
goes on in the state `last`.

Main statements: `RunTo.scanFrom_eq`, `RunTo.congr`, `comesTo_of_scanFrom`, `codeWords_line`.
-/

namespace PythonLint

open Text

variable {e : Char} {newline : Lexeme} {source u : List Char} {back front : List Lexeme}

/-! ### Parts of runs -/

/-- The scanner reads `text` and yields the lexemes, when `before` is behind it and `tail` follows.
It is in the state `last` then. -/
inductive RunTo (tail : List Char) :
    (before : List Char) → Scanner → (text : List Char) → List Lexeme → (last : Scanner) → Prop
  | done {before : List Char} {scanner : Scanner} : RunTo tail before scanner [] [] scanner
  | margin {before : List Char} {scanner last : Scanner} {margin code : List Char} {level : Level}
      {change : LineChange} {levels : List Level} {lexemes : List Lexeme}
      (hstart : scanner.lineStart = true) (hcode : code ++ tail ≠ [])
      (hmargin : readMargin false .zero 0 (margin ++ (code ++ tail)) = .ok (level, margin.length))
      (henter : enterLine level scanner.levels = .ok (change, levels))
      (hrest : RunTo tail (before ++ margin) { scanner with lineStart := false, levels } code
        lexemes last) :
      RunTo tail before scanner (margin ++ code)
        (changeLexemes level (byteLength (before ++ margin)) change ++ lexemes) last
  | piece {before : List Char} {scanner last : Scanner} {c : Char} {word rest : List Char}
      {tok : Option Tok} {lexemes : List Lexeme} (hstart : scanner.lineStart = false)
      (hpiece : scanPiece scanner.depth c (word ++ (rest ++ tail)) = .ok (tok, word.length + 1))
      (hrest : RunTo tail (before ++ c :: word) (scanner.after tok) rest lexemes last) :
      RunTo tail before scanner (c :: word ++ rest)
        ((tok.toList.map fun tok => ⟨tok, byteLength before, byteLength (before ++ c :: word)⟩) ++
          lexemes) last

theorem Scan.prepend_prepend (a b : List Lexeme) (scan : Scan) :
    (scan.prepend b).prepend a = scan.prepend (a ++ b) := by
  rw [Scan.prepend, Scan.prepend, Scan.prepend, List.append_assoc]

namespace RunTo

variable {before text tail : List Char} {scanner last : Scanner} {lexemes : List Lexeme}

/-- A scan goes on where a part of it ends. -/
theorem scanFrom_eq (h : RunTo tail before scanner text lexemes last) :
    scanFrom (byteLength before) scanner 0 (text ++ tail) =
      (scanFrom (byteLength (before ++ text)) last 0 tail).prepend lexemes := by
  induction h with
  | done =>
    rw [List.append_nil]
    rfl
  | @margin before scanner last margin code level change levels lexemes hstart hcode hmargin
      henter _ ih =>
    have hsize : margin.length < (margin ++ (code ++ tail)).length := by
      have := List.length_pos_iff.2 hcode
      rw [List.length_append]
      omega
    rw [List.append_assoc, scanFrom_margin hstart hmargin hsize henter, List.take_left,
      List.drop_left, ← byteLength_append, ih, Scan.prepend_prepend, List.append_assoc]
  | @piece before scanner last c word rest tok lexemes hstart hpiece _ ih =>
    have htake : (c :: (word ++ (rest ++ tail))).take (word.length + 1) = c :: word := by
      rw [List.take_succ_cons, List.take_left]
    have hdrop : (c :: (word ++ (rest ++ tail))).drop (word.length + 1) = rest ++ tail := by
      rw [List.drop_succ_cons, List.drop_left]
    rw [List.append_assoc, List.cons_append, scanFrom_piece hstart hpiece, htake, hdrop,
      ← byteLength_append, ih, Scan.prepend_prepend, List.append_assoc, List.cons_append]

/-- What is read up to a line end does not depend on the text after it. -/
theorem congr (he : isLineEnd e = true) (h : RunTo (e :: u) before scanner text lexemes last)
    (v : List Char) : RunTo (e :: v) before scanner text lexemes last := by
  induction h with
  | done => exact .done
  | @margin before scanner last margin code level change levels lexemes hstart hcode hmargin
      henter _ ih =>
    -- A margin is read with a look at one more character, which may be the line end itself.
    have hhead : (code ++ e :: u).head? = (code ++ e :: v).head? := by
      cases code <;> rfl
    rw [← Nat.zero_add margin.length] at hmargin
    have hmargin := readMargin_congr hcode hmargin hhead
    rw [Nat.zero_add] at hmargin
    exact .margin hstart (by simp) hmargin henter ih
  | @piece before scanner last c word rest tok lexemes hstart hpiece _ ih =>
    rw [← List.append_assoc] at hpiece
    have hsize : word.length + 1 ≤ (word ++ rest).length + 1 := by
      rw [List.length_append]
      omega
    have hpiece := scanPiece_stop (isStop_of_isLineEnd he) hpiece hsize v
    rw [List.append_assoc] at hpiece
    exact .piece hstart hpiece ih

end RunTo

theorem exists_append_of_not_mem {α : Type} {l r a b : List α} {x : α} (h : l ++ r = a ++ x :: b)
    (hx : x ∉ l) : ∃ more, a = l ++ more ∧ r = more ++ x :: b := by
  rcases List.append_eq_append_iff.1 h with ⟨more, ha, hr⟩ | ⟨more, hl, hb⟩
  · exact ⟨more, ha, hr⟩
  · cases more with
    | nil => exact ⟨[], by rw [hl, List.append_nil, List.append_nil], hb.symm⟩
    | cons y more =>
      cases hb
      exact absurd (hl ▸ List.mem_append_right a List.mem_cons_self) hx

theorem exists_eq_append_of_not_mem {α : Type} {l r a b : List α} {x : α} (h : l ++ r = a ++ x :: b)
    (hx : x ∉ r) : ∃ more, l = a ++ x :: more := by
  by_cases hl : x ∈ l
  · rcases List.append_eq_append_iff.1 h with ⟨more, -, hr⟩ | ⟨more, hl, hb⟩
    · exact absurd (hr ▸ List.mem_append_right more List.mem_cons_self) hx
    · cases more with
      | nil =>
        cases hb
        exact absurd List.mem_cons_self hx
      | cons y more =>
        cases hb
        exact ⟨more, hl⟩
  · obtain ⟨more, -, hr⟩ := exists_append_of_not_mem h hl
    exact absurd (hr ▸ List.mem_append_right more List.mem_cons_self) hx

/-- The scanner yields the lexemes `a` and then comes to the lexeme as a piece of a line. -/
def ComesTo (lexeme : Lexeme) (before : List Char) (scanner : Scanner) (text : List Char)
    (a : List Lexeme) : Prop :=
  ∃ read c word rest last, text = read ++ (c :: word ++ rest) ∧
    RunTo (c :: word ++ rest) before scanner read a last ∧
    last.lineStart = false ∧ scanPiece last.depth c (word ++ rest) =
      .ok (some lexeme.tok, word.length + 1) ∧
    lexeme.start = byteLength (before ++ read) ∧
      lexeme.stop = byteLength (before ++ read ++ c :: word)

namespace ComesTo

variable {lexeme : Lexeme} {before : List Char} {scanner : Scanner} {a : List Lexeme}

theorem after_piece (hstart : scanner.lineStart = false) {c : Char} {word tail : List Char}
    {tok : Option Tok}
    (hpiece : scanPiece scanner.depth c (word ++ tail) = .ok (tok, word.length + 1))
    (h : ComesTo lexeme (before ++ c :: word) (scanner.after tok) tail a) :
    ComesTo lexeme before scanner (c :: (word ++ tail))
      ((tok.toList.map fun tok => ⟨tok, byteLength before, byteLength (before ++ c :: word)⟩) ++
        a) := by
  obtain ⟨read, d, other, rest, last, rfl, hrun, hinside, hlast, hfrom, hto⟩ := h
  rw [List.append_assoc before] at hfrom hto
  exact ⟨c :: word ++ read, d, other, rest, last, by simp, .piece hstart hpiece hrun, hinside,
    hlast, hfrom, hto⟩

theorem after_margin (hstart : scanner.lineStart = true) {margin code : List Char}
    (hcode : code ≠ []) {level : Level}
    (hmargin : readMargin false .zero 0 (margin ++ code) = .ok (level, margin.length))
    {change : LineChange} {levels : List Level}
    (henter : enterLine level scanner.levels = .ok (change, levels))
    (h : ComesTo lexeme (before ++ margin) { scanner with lineStart := false, levels } code a) :
    ComesTo lexeme before scanner (margin ++ code)
      (changeLexemes level (byteLength (before ++ margin)) change ++ a) := by
  obtain ⟨read, d, other, rest, last, rfl, hrun, hinside, hlast, hfrom, hto⟩ := h
  rw [List.append_assoc before] at hfrom hto
  exact ⟨margin ++ read, d, other, rest, last, by simp, .margin hstart hcode hmargin henter hrun,
    hinside, hlast, hfrom, hto⟩

end ComesTo

/-- A lexeme other than the mark of a block is a piece that the scanner comes to, or the newline at
the end of a source. -/
theorem comesTo_of_scanFrom {before text : List Char} {scanner : Scanner} {a b : List Lexeme}
    {lexeme : Lexeme} (h : (scanFrom (byteLength before) scanner 0 text).lexemes = a ++ lexeme :: b)
    (hcode : ¬lexeme.tok.IsBlockMark) :
    ComesTo lexeme before scanner text a ∨ lexeme.tok = .newline ∧ lexeme.start = lexeme.stop := by
  -- The measure is that of `run_of_fault_eq_none`: a piece makes the text shorter, an empty margin
  -- comes before a piece.
  induction hmeasure : 2 * text.length + (if scanner.lineStart then 1 else 0)
    using Nat.strong_induction_on generalizing before scanner text a with
  | _ measure ih =>
    subst hmeasure
    have hmem : lexeme ∈ (scanFrom (byteLength before) scanner 0 text).lexemes :=
      h ▸ List.mem_append_right a List.mem_cons_self
    have hends : ∀ offset, lexeme ∈ (finishScan offset scanner).lexemes →
        lexeme.tok = .newline ∧ lexeme.start = lexeme.stop := by
      intro offset hfinish
      rcases mem_finishScan hfinish with rfl | rfl
      · exact ⟨rfl, rfl⟩
      · exact absurd (.inr rfl) hcode
    cases text with
    | nil => exact .inr (hends _ hmem)
    | cons c rest =>
      cases hstart : scanner.lineStart with
      | false =>
        obtain ⟨word, tail, tok, rfl, hpiece, hscan⟩ :=
          exists_piece hstart (Scan.not_fails_of_mem hmem)
        have hshorter : 2 * tail.length + (if (scanner.after tok).lineStart then 1 else 0) <
            2 * (c :: (word ++ tail)).length + (if scanner.lineStart then 1 else 0) := by
          rw [List.length_cons, List.length_append]
          split <;> omega
        rw [hscan] at h
        -- The lexeme is this piece, or it is found after it.
        cases tok with
        | none => exact (ih _ hshorter h rfl).imp_left (ComesTo.after_piece hstart hpiece)
        | some tok =>
          cases a with
          | nil =>
            obtain rfl := (List.cons.inj h).1
            exact .inl ⟨[], c, word, tail, scanner, rfl, .done, hstart,
              hpiece, by rw [List.append_nil], by rw [List.append_nil]⟩
          | cons first a =>
            obtain ⟨rfl, hrest⟩ := List.cons.inj h
            exact (ih _ hshorter hrest rfl).imp_left (ComesTo.after_piece hstart hpiece)
      | true =>
        rcases blank_or_margin hstart (List.cons_ne_nil c rest)
          (Scan.not_fails_of_mem hmem) with ⟨level, -, -, hscan⟩ |
          ⟨margin, code, level, change, levels, htext, hne, hmargin, henter, hscan⟩
        · rw [hscan] at hmem
          exact .inr (hends _ hmem)
        · rw [hscan] at h
          obtain ⟨more, rfl, hmore⟩ := exists_append_of_not_mem h fun hmark =>
            hcode (changeLexemes_marks _ _ _ lexeme hmark).1
          rw [htext]
          refine (ih _ ?_ hmore rfl).imp_left (ComesTo.after_margin hstart hne hmargin henter)
          rw [htext, List.length_append, hstart, if_pos rfl, if_neg Bool.false_ne_true]
          omega

/-! ### Lexemes of a source -/

/-- Whether a source starts with a byte order mark does not depend on what follows its first
character. -/
theorem exists_mark (a : List Char) {c : Char} (hc : c ≠ byteOrderMark) :
    ∃ mark read, a = mark ++ read ∧
      ∀ u, scanAt 0 (a ++ c :: u) = scanFrom (byteLength mark) .initial 0 (read ++ c :: u) := by
  cases a with
  | nil =>
    exact ⟨[], [], rfl, fun u => by rw [scanAt, List.nil_append, if_neg (by simpa using hc)]; rfl⟩
  | cons d a =>
    by_cases hd : d = byteOrderMark
    · subst hd
      exact ⟨[byteOrderMark], a, rfl, fun u => rfl⟩
    · exact ⟨[], d :: a, rfl, fun u => by rw [scanAt, if_neg (by simpa using hd)]; rfl⟩

theorem not_isBlockMark_newline : ¬Tok.newline.IsBlockMark := by
  rintro (h | h) <;> cases h

/-- The lexemes up to a line end that is a newline do not depend on the text after it. -/
theorem scanAt_line {a : List Char} (he : isLineEnd e = true)
    (h : (scanAt 0 (a ++ e :: u)).lexemes = front ++ newline :: back)
    (htok : newline.tok = .newline) (hstart : newline.start = byteLength a)
    (hne : newline.start ≠ newline.stop) (v : List Char) :
    ∃ newline' back', (scanAt 0 (a ++ e :: v)).lexemes = front ++ newline' :: back' ∧
      newline'.tok = .newline := by
  have hmark : e ≠ byteOrderMark := by
    rcases isLineEnd_iff.1 he with rfl | rfl <;> decide
  obtain ⟨mark, read, rfl, hscan⟩ := exists_mark a hmark
  rw [hscan] at h ⊢
  have hcode : ¬newline.tok.IsBlockMark := htok ▸ not_isBlockMark_newline
  rcases comesTo_of_scanFrom h hcode with ⟨read', c, word, rest, last, htext, hrun, hinside, hpiece,
    hfrom, -⟩ | ⟨-, hsame⟩
  · -- The piece that the scanner comes to has the place of `e`, so it is the one that starts
    -- with `e`.
    have hlength : byteLength read = byteLength read' := by
      rw [hfrom, byteLength_append, byteLength_append] at hstart
      omega
    obtain ⟨rfl, hcons⟩ := append_inj_of_byteLength htext hlength
    obtain ⟨rfl, rfl⟩ := List.cons.inj hcons
    have hdepth : last.depth = 0 := by
      rcases ((isPiece_of_scanPiece hpiece).of_isLineEnd he).2 with ⟨hdepth, -⟩ | ⟨-, hnone⟩
      · exact hdepth
      · cases hnone
    have hnewline : scanPiece last.depth e v = .ok (some .newline, lineEndSize (e :: v)) := by
      rw [hdepth]
      exact scanPiece_lineEnd he v
    rw [(hrun.congr he v).scanFrom_eq, scanFrom_piece hinside hnewline]
    exact ⟨_, _, rfl, rfl⟩
  · exact absurd hsame hne

section SoftKeywords

variable {newline newline' : Lexeme} (h : newline.tok = .newline) (h' : newline'.tok = .newline)

include h h'

theorem introducesBlock_line (depth : Nat) (first insideLambda : Bool)
    (front back back' : List Lexeme) :
    introducesBlock depth first insideLambda (front ++ newline :: back) =
      introducesBlock depth first insideLambda (front ++ newline' :: back') := by
  induction front generalizing depth first insideLambda with
  | nil => rw [List.nil_append, List.nil_append, introducesBlock, introducesBlock, h, h']
  | cons lexeme front ih =>
    rw [List.cons_append, List.cons_append, introducesBlock, introducesBlock]
    simp only [ih]

theorem definesAlias_line (depth : Int) (front back back' : List Lexeme) :
    definesAlias depth (front ++ newline :: back) =
      definesAlias depth (front ++ newline' :: back') := by
  induction front generalizing depth with
  | nil => rw [List.nil_append, List.nil_append, definesAlias, definesAlias, h, h']
  | cons lexeme front ih =>
    rw [List.cons_append, List.cons_append, definesAlias, definesAlias]
    simp only [ih]

/-- Whether a word is a keyword is decided on its line. -/
theorem resolveSoftKeyword_line (lineStart : Bool) (tok : Tok) (front back back' : List Lexeme) :
    resolveSoftKeyword lineStart tok (front ++ newline :: back) =
      resolveSoftKeyword lineStart tok (front ++ newline' :: back') := by
  have halias : introducesAlias (front ++ newline :: back) =
      introducesAlias (front ++ newline' :: back') := by
    cases front with
    | nil => rw [List.nil_append, List.nil_append, introducesAlias, introducesAlias, h, h']; rfl
    | cons lexeme front =>
      rw [List.cons_append, List.cons_append, introducesAlias, introducesAlias,
        definesAlias_line h h']
  have hstatement : ∀ word, introducesStatement word (front ++ newline :: back) =
      introducesStatement word (front ++ newline' :: back') := by
    intro word
    rw [introducesStatement, introducesStatement, halias, introducesBlock_line h h']
  unfold resolveSoftKeyword
  simp only [hstatement]

end SoftKeywords

/-- The resolved lexemes up to a newline come from those up to that newline, whatever follows it. -/
theorem exists_resolved {lineStart : Bool} {raw : List Lexeme}
    (h : resolveSoftKeywords lineStart raw = front ++ newline :: back)
    (htok : newline.tok = .newline) :
    ∃ front₀ back₀, raw = front₀ ++ newline :: back₀ ∧ ∀ newline' back', newline'.tok = .newline →
      resolveSoftKeywords lineStart (front₀ ++ newline' :: back') =
        front ++ newline' :: resolveSoftKeywords true back' := by
  induction raw generalizing lineStart front with
  | nil => cases front <;> cases h
  | cons lexeme raw ih =>
    rw [resolveSoftKeywords] at h
    cases front with
    | nil =>
      obtain ⟨rfl, -⟩ := List.cons.inj h
      -- What is a newline afterwards was one before: a soft keyword becomes a name or stays as it
      -- is.
      have hsame : resolveSoftKeyword lineStart lexeme.tok raw = lexeme.tok := by
        rcases endsLine_resolveSoftKeyword lineStart lexeme.tok raw with hsame | ⟨-, hends⟩
        · exact hsame
        · rw [show resolveSoftKeyword lineStart lexeme.tok raw = .newline from htok] at hends
          cases hends
      refine ⟨[], raw, by rw [hsame]; rfl, fun newline' back' hnewline => ?_⟩
      rw [List.nil_append, resolveSoftKeywords, hnewline]
      obtain ⟨tok, start, stop⟩ := newline'
      cases hnewline
      rfl
    | cons first front =>
      obtain ⟨rfl, hrest⟩ := List.cons.inj h
      obtain ⟨front₀, back₀, rfl, hline⟩ := ih hrest
      refine ⟨lexeme :: front₀, back₀, rfl, fun newline' back' hnewline => ?_⟩
      rw [List.cons_append, resolveSoftKeywords,
        resolveSoftKeyword_line hnewline htok _ _ _ _ back₀, hline newline' back' hnewline,
        List.cons_append]

theorem scanModule_line {a : List Char} (he : isLineEnd e = true)
    (h : (scanModule (a ++ e :: u)).lexemes = front ++ newline :: back)
    (htok : newline.tok = .newline) (hstart : newline.start = byteLength a)
    (hne : newline.start ≠ newline.stop) (v : List Char) :
    ∃ newline' back', (scanModule (a ++ e :: v)).lexemes = front ++ newline' :: back' ∧
      newline'.tok = .newline := by
  obtain ⟨front₀, back₀, hraw, hresolve⟩ := exists_resolved h htok
  obtain ⟨newline', back', hscan, hnewline⟩ := scanAt_line he hraw htok hstart hne v
  refine ⟨newline', resolveSoftKeywords true back', ?_, hnewline⟩
  rw [scanModule, Scan.resolved, hscan, hresolve newline' back' hnewline]

/-! ### Words -/

/-- A token without its place. -/
structure Word where
  kind : TokenKind
  lexeme : String
deriving DecidableEq, Repr

/-- The word that a piece stands for, unless it marks a block. -/
def Piece.word? (piece : Piece) : Option Word :=
  if piece.kind.isBlockMark then none else some ⟨piece.kind, piece.lexeme⟩

/-- The words of tokens, the marks of blocks left out. -/
def codeWords (tokens : List Token) : List Word :=
  tokens.filterMap fun token => token.toPiece.word?

/-- The word that a lexeme of a text stands for, unless it marks a block. -/
def Lexeme.word? (text : List Char) (lexeme : Lexeme) : Option Word :=
  if (kindOf lexeme.tok).isBlockMark then none
  else some ⟨kindOf lexeme.tok, String.ofList (sliceBytes text lexeme.start lexeme.stop)⟩

theorem word?_pieceOf (text : List Char) (lines : List (List Char)) (lexeme : Lexeme) (code : Nat) :
    (pieceOf text lines lexeme code).word? = lexeme.word? text := by
  by_cases hmark : lexeme.tok.IsBlockMark
  · rw [Lexeme.word?]
    unfold pieceOf
    rcases hmark with hmark | hmark <;> rw [hmark] <;> rfl
  · rw [pieceOf_of_not_isBlockMark text lines hmark]
    rfl

/-- The pieces before one of the pieces of lexemes have the words of the lexemes before that one. -/
theorem exists_lexeme_of_piecesOf {text : List Char} {lines : List (List Char)}
    {lexemes : List Lexeme} {front back : List Piece} {piece : Piece}
    (h : piecesOf text lines lexemes = front ++ piece :: back) :
    ∃ before lexeme after code, lexemes = before ++ lexeme :: after ∧
      piece = pieceOf text lines lexeme code ∧
      front.filterMap Piece.word? = before.filterMap (Lexeme.word? text) := by
  induction lexemes generalizing front with
  | nil => cases front <;> cases h
  | cons lexeme lexemes ih =>
    rw [piecesOf] at h
    cases front with
    | nil =>
      obtain ⟨rfl, -⟩ := List.cons.inj h
      exact ⟨[], lexeme, lexemes, _, rfl, rfl, rfl⟩
    | cons first front =>
      obtain ⟨rfl, hrest⟩ := List.cons.inj h
      obtain ⟨before, other, after, code, rfl, hpiece, hwords⟩ := ih hrest
      refine ⟨lexeme :: before, other, after, code, rfl, hpiece, ?_⟩
      rw [List.filterMap_cons, List.filterMap_cons, word?_pieceOf, hwords]

theorem exists_piece_of_lexemes (text : List Char) (lines : List (List Char)) (before : List Lexeme)
    (lexeme : Lexeme) (after : List Lexeme) :
    ∃ front code back, piecesOf text lines (before ++ lexeme :: after) =
      front ++ pieceOf text lines lexeme code :: back ∧
      front.filterMap Piece.word? = before.filterMap (Lexeme.word? text) := by
  induction before with
  | nil => exact ⟨[], _, _, rfl, rfl⟩
  | cons first before ih =>
    obtain ⟨front, code, back, hpieces, hwords⟩ := ih
    rw [List.cons_append, piecesOf, hpieces]
    refine ⟨_ :: front, code, back, rfl, ?_⟩
    rw [List.filterMap_cons, List.filterMap_cons, word?_pieceOf, hwords]

namespace CutFrom

variable {before rest : List Char}

theorem exists_word {lexemes : List Lexeme} (h : CutFrom before rest lexemes) {lexeme : Lexeme}
    (hmem : lexeme ∈ lexemes) (hcode : ¬lexeme.tok.IsBlockMark) :
    ∃ a word b, before ++ rest = a ++ word ++ b ∧ byteLength before ≤ byteLength a ∧
      lexeme.start = byteLength a ∧
      lexeme.stop = byteLength (a ++ word) ∧ (lexeme.tok = .newline → IsLineEnding word) := by
  induction h with
  | done => cases hmem
  | @mark before gap rest first lexemes hmark hstop _ ih =>
    have hother : lexeme ∈ lexemes := by
      rcases List.mem_cons.1 hmem with rfl | hmem
      · exact absurd hmark hcode
      · exact hmem
    obtain ⟨a, word, b, htext, hle, hword⟩ := ih hother
    rw [byteLength_append] at hle
    exact ⟨a, word, b, by rw [← htext, List.append_assoc], by omega, hword⟩
  | @word before gap word rest first lexemes _ hnewline hstart hstop _ ih =>
    rcases List.mem_cons.1 hmem with rfl | hmem
    · refine ⟨before ++ gap, word, rest, by simp only [List.append_assoc], ?_, hstart,
        hstop, hnewline⟩
      rw [byteLength_append]
      exact Nat.le_add_right _ _
    · obtain ⟨a, other, b, htext, hle, hword⟩ := ih hmem
      rw [byteLength_append, byteLength_append] at hle
      exact ⟨a, other, b, by rw [← htext]; simp only [List.append_assoc], by omega, hword⟩

theorem stop_le_start {next : Lexeme} (h : CutFrom before rest (front ++ next :: back))
    (hnext : ¬next.tok.IsBlockMark) :
    ∀ lexeme ∈ front, ¬lexeme.tok.IsBlockMark → lexeme.stop ≤ next.start := by
  induction front generalizing before rest with
  | nil => exact List.forall_mem_nil _
  | cons first front ih =>
    cases h with
    | mark gap hmark hstop hrest =>
      exact List.forall_mem_cons.2 ⟨fun hcode => absurd hmark hcode, ih hrest⟩
    | word gap word hcode hnewline hstart hstop hrest =>
      refine List.forall_mem_cons.2 ⟨fun _ => ?_, ih hrest⟩
      obtain ⟨a, -, -, -, hle, hfrom, -⟩ :=
        hrest.exists_word (List.mem_append_right front List.mem_cons_self) hnext
      rw [hstop, hfrom]
      exact hle

/-- The words before a place in a text do not depend on what follows it. -/
theorem filterMap_word? {next : Lexeme} {a : List Char}
    (h : CutFrom [] (a ++ u) (front ++ next :: back)) (hnext : ¬next.tok.IsBlockMark)
    (hstart : next.start = byteLength a) (v : List Char) :
    front.filterMap (Lexeme.word? (a ++ u)) = front.filterMap (Lexeme.word? (a ++ v)) := by
  refine List.filterMap_congr fun lexeme hmem => ?_
  by_cases hmark : lexeme.tok.IsBlockMark
  · rw [Lexeme.word?, Lexeme.word?]
    rcases hmark with hmark | hmark <;> rw [hmark] <;> rfl
  · obtain ⟨p, word, q, htext, -, hfrom, hto, -⟩ :=
      h.exists_word (List.mem_append_left _ hmem) hmark
    have hle := h.stop_le_start hnext lexeme hmem hmark
    rw [hto, hstart] at hle
    rw [List.nil_append] at htext
    obtain ⟨more, rfl, -⟩ := exists_append_of_byteLength_le htext.symm hle
    rw [Lexeme.word?, Lexeme.word?, hfrom, hto, List.append_assoc (p ++ word), sliceBytes_append,
      List.append_assoc (p ++ word), sliceBytes_append]

end CutFrom

/-! ### Tokens of a source -/

/-- The copy of a source with spaces for tabs is the same up to a line end, whatever follows it. -/
theorem untabify_lineEnd (a : List Char) (he : isLineEnd e = true) :
    ∃ leading, ∀ u, untabify (a ++ e :: u) = untabify a ++ e :: untabifyFrom leading u := by
  refine ⟨leadsOn (a.foldl leadsOn true) e, fun u => ?_⟩
  rw [untabify_eq_untabifyFrom, untabify_eq_untabifyFrom, untabifyFrom_append, untabifyFrom]
  rcases isLineEnd_iff.1 he with rfl | rfl <;> cases a.foldl leadsOn true <;> rfl

/-- No fault takes the tokens of a logical line that is complete. -/
theorem isPrefix_toPiece_tokenize {front back : List Piece} {newline : Piece}
    (h : sourcePieces source = front ++ newline :: back) (hkind : newline.kind = .newline) :
    front ++ [newline] <+: (tokenize source).tokens.map Token.toPiece := by
  have htail : newline ∉ (logicalLines (sourcePieces source)).2 := fun hmem =>
    (logicalLines_groups (sourcePieces source)).2 newline hmem hkind
  obtain ⟨more, hgroups⟩ :=
    exists_eq_append_of_not_mem ((flatten_logicalLines (sourcePieces source)).trans h) htail
  have hline : front ++ [newline] <+: (logicalLines (sourcePieces source)).1.flatten :=
    ⟨more, by rw [hgroups, List.append_assoc, List.singleton_append]⟩
  refine hline.trans ?_
  cases hfault : (scanModule (untabify source)).fault with
  | some fault =>
    exact ⟨[], by rw [List.append_nil, (tokens_of_fault hfault).1, ← List.flatMap_def,
      toPiece_flatMap_tokensOfLine]⟩
  | none =>
    rw [(tokens_of_no_fault hfault).1, List.flatten_append, List.map_append, ← List.flatMap_def,
      toPiece_flatMap_tokensOfLine]
    exact List.prefix_append _ _

theorem codeWords_eq (tokens : List Token) :
    codeWords tokens = (tokens.map Token.toPiece).filterMap Piece.word? := by
  rw [List.filterMap_map]
  rfl

theorem codeWords_of_lexemes (h : (scanModule (untabify source)).lexemes = front ++ newline :: back)
    (htok : newline.tok = .newline) :
    ∃ ending more, codeWords (tokenize source).tokens =
      front.filterMap (Lexeme.word? source) ++ ⟨.newline, ending⟩ :: more := by
  obtain ⟨before, code, after, hpieces, hwords⟩ :=
    exists_piece_of_lexemes source (lines source) front newline back
  have hword : (pieceOf source (lines source) newline code).word? =
      some ⟨.newline, String.ofList (sliceBytes source newline.start newline.stop)⟩ := by
    rw [word?_pieceOf, Lexeme.word?, htok]
    rfl
  have hkind : (pieceOf source (lines source) newline code).kind = .newline := by
    rw [kind_pieceOf, htok]
    rfl
  have hsource : sourcePieces source =
      before ++ pieceOf source (lines source) newline code :: after := by
    rw [sourcePieces, h, hpieces]
  obtain ⟨more, htokens⟩ := isPrefix_toPiece_tokenize hsource hkind
  refine ⟨String.ofList (sliceBytes source newline.start newline.stop),
    more.filterMap Piece.word?, ?_⟩
  rw [codeWords_eq, ← htokens, List.filterMap_append, List.filterMap_append, hwords,
    List.append_assoc, List.filterMap_cons_some hword]
  rfl

theorem eq_newline_of_kindOf {tok : Tok} (h : kindOf tok = .newline) : tok = .newline := by
  cases tok with
  | newline => rfl
  | _ => cases h

/-- What is known of a newline that is not the end of the source: it is a line end, which starts
after the text `a`, and `lexemes` are the lexemes of the tokens before it. -/
structure IsLineEndAt (source : List Char) (front : List Token) (newline : Token)
    (a : List Char) (e : Char)
    (ending rest : List Char) (lexemes : List Lexeme) (lexeme : Lexeme) : Prop where
  source_eq : source = a ++ e :: (ending ++ rest)
  isLineEnd : isLineEnd e = true
  textBetween_eq : textBetween source Location.origin newline.stop = a ++ e :: ending
  scanned : ∃ others, (scanModule (untabify source)).lexemes = lexemes ++ lexeme :: others
  tok_eq : lexeme.tok = .newline
  start_eq : lexeme.start = byteLength a
  start_ne_stop : lexeme.start ≠ lexeme.stop
  words_eq : codeWords front = lexemes.filterMap (Lexeme.word? source)

theorem exists_isLineEndAt {front back : List Token} {newline : Token}
    (htokens : (tokenize source).tokens = front ++ newline :: back)
    (hkind : newline.kind = .newline) (hline : newline.lexeme ≠ "") :
    ∃ a e ending rest lexemes lexeme,
      IsLineEndAt source front newline a e ending rest lexemes lexeme := by
  have hend : newline.toPiece ∉ [endPiece source] := by
    intro hmem
    rw [List.mem_singleton.1 hmem, endPiece] at hkind
    cases hkind
  -- The tokens may stop short of the pieces, but the pieces before this one are the same in number
  -- and words.
  obtain ⟨more, hpieces⟩ := toPiece_tokenize_isPrefix source
  rw [htokens, List.map_append, List.map_cons, List.append_assoc, List.cons_append] at hpieces
  obtain ⟨others, hsource⟩ := exists_eq_append_of_not_mem hpieces.symm hend
  obtain ⟨lexemes, lexeme, after, code, hlexemes, hpiece, hwords⟩ :=
    exists_lexeme_of_piecesOf hsource
  have htok : lexeme.tok = .newline := by
    rw [show newline.kind = _ from congrArg Piece.kind hpiece, kind_pieceOf] at hkind
    exact eq_newline_of_kindOf hkind
  have hcode : ¬lexeme.tok.IsBlockMark := htok ▸ not_isBlockMark_newline
  have hcut := scanModule_untabify_cutFrom source
  rw [hlexemes] at hcut
  obtain ⟨a, word, rest, htext, -, hstart, hstop, hending⟩ :=
    hcut.exists_word (List.mem_append_right _ List.mem_cons_self) hcode
  rw [List.nil_append] at htext
  subst htext
  obtain ⟨hlexeme, -, hto⟩ :=
    @offsetAt_pieceOf lexeme a [] word hcode hending (by rwa [List.append_nil])
    (by rwa [List.append_nil]) rest (lines (a ++ word ++ rest)) code
  rw [List.append_nil, ← hpiece] at hlexeme hto
  cases word with
  | nil => exact absurd hlexeme hline
  | cons e ending =>
    refine ⟨a, e, ending, rest, lexemes, lexeme, ?_, ?_, ?_, ⟨after, hlexemes⟩, htok,
      hstart, ?_, ?_⟩
    · rw [List.append_assoc, List.cons_append]
    · rcases hending htok with h | h | h | h <;> cases h <;> rfl
    · refine textBetween_of_offsets [] (a ++ e :: ending) rest _ _ ?_ hto
      exact offsetAt_after [] _
    · rw [hstart, hstop, byteLength_append, byteLength_cons]
      have := e.utf8Size_pos
      omega
    · rw [codeWords_eq, hwords]

/-- The words up to a line end that is a newline do not depend on the text after it. -/
theorem codeWords_line {front back : List Token} {newline : Token}
    (htokens : (tokenize source).tokens = front ++ newline :: back)
    (hkind : newline.kind = .newline) (hline : newline.lexeme ≠ "") (after : List Char) :
    ∃ ending more,
      codeWords (tokenize (textBetween source Location.origin newline.stop ++ after)).tokens =
      codeWords front ++ ⟨.newline, ending⟩ :: more := by
  obtain ⟨a, e, ending, rest, lexemes, lexeme, h⟩ := exists_isLineEndAt htokens hkind hline
  obtain ⟨others, hlexemes⟩ := h.scanned
  -- Lexemes are scanned in the copy without tabs. Their places are those in the source, where the
  -- words are read.
  obtain ⟨leading, hcopy⟩ := untabify_lineEnd a h.isLineEnd
  have hstart : lexeme.start = byteLength (untabify a) :=
    h.start_eq.trans (byteLength_eq_of_sameOrTab (untabify_sameOrTab a))
  have hcut := scanModule_untabify_cutFrom source
  rw [hlexemes, h.source_eq] at hcut
  rw [h.source_eq, hcopy] at hlexemes
  obtain ⟨lexeme', others', hscan, htok⟩ :=
    scanModule_line h.isLineEnd hlexemes h.tok_eq hstart h.start_ne_stop
    (untabifyFrom leading (ending ++ after))
  rw [← hcopy] at hscan
  rw [h.words_eq, h.textBetween_eq, List.append_assoc, List.cons_append, h.source_eq,
    hcut.filterMap_word? (h.tok_eq ▸ not_isBlockMark_newline) h.start_eq (e :: (ending ++ after))]
  exact codeWords_of_lexemes hscan htok

end PythonLint
