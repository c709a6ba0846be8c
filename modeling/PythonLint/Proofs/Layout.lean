import PythonLint.Proofs.ScanRun

/-!
# The layout of a source

The lexemes of a source come line by line. `LaidOut levels before rest lexemes` says so of the part
`rest` of a source, which starts a line inside the open levels `levels`. A line with code has a
margin, which is measured and may open or close blocks; words, none of which ends a line; and a
newline at its end. After the last line only the ends of the open blocks are left.

A line may be joined to the next one before its first word. What is passed then is named apart from
the margin, since the first word stands on another physical line than the margin that was measured.

Main statements: `readMargin_measures`, `lays_of_run`, `laidOut_of_scanModule`.
-/

namespace PythonLint

open Text

variable {c : Char} {level : Level} {before ending rest text : List Char} {levels : List Level}
  {lexemes : List Lexeme} {scanner : Scanner}

/-! ### Margins -/

/-- The text ends with a line feed or a carriage return. -/
def EndsLine (text : List Char) : Prop :=
  ∃ init c, text = init ++ [c] ∧ isLineEnd c = true

theorem EndsLine.append {b : List Char} (h : EndsLine b) (a : List Char) : EndsLine (a ++ b) := by
  obtain ⟨init, c, rfl, hc⟩ := h
  exact ⟨a ++ init, c, by rw [List.append_assoc], hc⟩

/-- The level is that of the last blanks of what has been read: tabs, then spaces. On their line,
only blanks up to a form feed stand before them. -/
def Measures (read : List Char) (level : Level) : Prop :=
  ∃ above blanks,
    read = above ++ blanks ++ (List.replicate level.tabs '\t' ++ List.replicate level.spaces ' ') ∧
    (above = [] ∨ EndsLine above) ∧ (∀ c ∈ blanks, isSpacing c = true) ∧
    (blanks = [] ∨ blanks.getLast? = some '\x0c')

theorem measures_nil : Measures [] .zero :=
  ⟨[], [], rfl, .inl rfl, List.forall_mem_nil _, .inl rfl⟩

theorem isLineEnd_eq_false_of_isSpacing (h : isSpacing c = true) : isLineEnd c = false := by
  simp only [isSpacing, Bool.or_eq_true, decide_eq_true_eq] at h
  rcases h with (rfl | rfl) | rfl <;> rfl

theorem isSpacing_of_mem_level
    (hc : c ∈ List.replicate level.tabs '\t' ++ List.replicate level.spaces ' ') :
    isSpacing c = true := by
  rcases List.mem_append.1 hc with hc | hc
  · rw [List.eq_of_mem_replicate hc]
    rfl
  · rw [List.eq_of_mem_replicate hc]
    rfl

theorem MarginStep.measures {comment comment' : Bool} {level' : Level} {read : List Char}
    (hstep : MarginStep comment level c comment' level') (h : comment = false → Measures read level)
    (hcode : comment' = false) : Measures (read ++ [c]) level' := by
  cases hstep with
  | lineEnd hc =>
    exact ⟨read ++ [c], [], by simp [Level.zero], .inr ⟨read, c, rfl, hc⟩,
      List.forall_mem_nil _, .inl rfl⟩
  | formFeed =>
    obtain ⟨above, blanks, rfl, habove, hblanks, -⟩ := h rfl
    refine ⟨above,
      blanks ++ (List.replicate level.tabs '\t' ++ List.replicate level.spaces ' ') ++
      ['\x0c'], by simp [Level.zero], habove, ?_, .inr List.getLast?_concat⟩
    simp only [List.forall_mem_append, List.forall_mem_singleton]
    refine ⟨⟨hblanks, List.forall_mem_append.1 fun c hc => isSpacing_of_mem_level hc⟩, rfl⟩
  | inComment => cases hcode
  | comment => cases hcode
  | space =>
    obtain ⟨above, blanks, rfl, hline⟩ := h rfl
    refine ⟨above, blanks, ?_, hline⟩
    simp [List.replicate_succ']
  | tab hspaces =>
    obtain ⟨above, blanks, rfl, hline⟩ := h rfl
    refine ⟨above, blanks, ?_, hline⟩
    simp [hspaces, List.replicate_succ']

/-- A margin ends before code, and its level is that of its last blanks. -/
theorem readMargin_measures {comment : Bool} {start : Level} {read margin : List Char}
    {before : Nat} (hread : comment = false → Measures read start)
    (h : readMargin comment start before (margin ++ c :: rest) =
      .ok (level, before + margin.length)) :
    Measures (read ++ margin) level ∧ isLineEnd c = false ∧ isSpacing c = false ∧ c ≠ '#' := by
  induction margin generalizing comment start read before with
  | nil =>
    rcases readMargin_cons h with ⟨hcomment, hline, hspace, hcode, hstop⟩ | ⟨comment',
      level', -, hrest⟩
    · cases hstop
      rw [List.append_nil]
      exact ⟨hread hcomment, hline, hspace, hcode⟩
    · have hsize := (readMargin_size hrest).1
      rw [List.length_nil] at hsize
      omega
  | cons d margin ih =>
    have hlength : before + (d :: margin).length = before + 1 + margin.length := by
      rw [List.length_cons]
      omega
    rw [hlength] at h
    rcases readMargin_cons h with ⟨-, -, -, -, hstop⟩ | ⟨comment', level', hstep, hrest⟩
    · have hsize := congrArg Prod.snd hstop
      simp only at hsize
      omega
    · have h := ih (hstep.measures hread) hrest
      rwa [List.append_assoc, List.singleton_append] at h

/-! ### Lines -/

/-- Every line feed of the text follows a backslash that has only blanks before it on its line. -/
def JoinsLines (text : List Char) : Prop :=
  ∀ a b, text = a ++ '\n' :: b → ∃ above blanks word, a = above ++ blanks ++ word ∧
    (above = [] ∨ EndsLine above) ∧ (∀ c ∈ blanks, isSpacing c = true) ∧
      (word = ['\\'] ∨ word = ['\\', '\r'])

theorem joinsLines_of_not_mem (h : '\n' ∉ text) : JoinsLines text := by
  rintro a b rfl
  exact absurd (List.mem_append_right a List.mem_cons_self) h

/-- Before lines that are joined may stand blanks, or another line that is joined to them. -/
theorem JoinsLines.append {a b : List Char} (ha : JoinsLines a) (hb : JoinsLines b)
    (hstart : (∀ c ∈ a, isSpacing c = true) ∨ EndsLine a) : JoinsLines (a ++ b) := by
  intro u v huv
  rcases List.append_eq_append_iff.1 huv with ⟨w, rfl, hw⟩ | ⟨w, rfl, hw⟩
  · obtain ⟨above, blanks, word, rfl, habove | habove, hblanks, hword⟩ := hb w v hw
    · subst habove
      rcases hstart with hstart | hstart
      · exact ⟨[], a ++ blanks, word, by simp, .inl rfl,
          List.forall_mem_append.2 ⟨hstart, hblanks⟩, hword⟩
      · exact ⟨a, blanks, word, by simp, .inr hstart, hblanks, hword⟩
    · exact ⟨a ++ above, blanks, word, by simp, .inr (habove.append a), hblanks, hword⟩
  · cases w with
    | nil =>
      -- The line feed is the first character of `b`, where nothing precedes it.
      obtain ⟨above, blanks, word, h, -, -, hword⟩ := hb [] v (by simpa using hw.symm)
      rcases hword with rfl | rfl <;> simp at h
    | cons c w =>
      obtain ⟨rfl, rfl⟩ := List.cons.inj hw
      exact ha u w rfl

theorem IsLineEnding.endsLine (h : IsLineEnding ending) (hne : ending ≠ []) : EndsLine ending := by
  rcases h with rfl | rfl | rfl | rfl
  · exact absurd rfl hne
  · exact ⟨[], _, rfl, rfl⟩
  · exact ⟨[], _, rfl, rfl⟩
  · exact ⟨['\r'], _, rfl, rfl⟩

theorem joinsLines_backslash (h : IsLineEnding ending) : JoinsLines ('\\' :: ending) := by
  have hjoined : ∀ {word : List Char}, word = ['\\'] ∨ word = ['\\', '\r'] →
      ∃ above blanks word', word = above ++ blanks ++ word' ∧ (above = [] ∨ EndsLine above) ∧
        (∀ c ∈ blanks, isSpacing c = true) ∧ (word' = ['\\'] ∨ word' = ['\\', '\r']) :=
    fun {word} hword => ⟨[], [], word, rfl, .inl rfl, List.forall_mem_nil _, hword⟩
  rcases h with rfl | rfl | rfl | rfl
  · exact joinsLines_of_not_mem (by decide)
  · intro a b hab
    rcases a with _ | ⟨x, _ | ⟨y, a⟩⟩
    · simp at hab
    · obtain ⟨rfl, -⟩ := List.cons.inj hab
      exact hjoined (.inl rfl)
    · simp at hab
  · exact joinsLines_of_not_mem (by decide)
  · intro a b hab
    rcases a with _ | ⟨x, _ | ⟨y, _ | ⟨z, a⟩⟩⟩
    · simp at hab
    · simp at hab
    · simp only [List.cons_append, List.nil_append, List.cons.injEq] at hab
      obtain ⟨rfl, rfl, -⟩ := hab
      exact hjoined (.inr rfl)
    · simp at hab

/-- The words and the end of a line whose code follows `before`. -/
structure LineCode (before body ending rest : List Char) (words : List Lexeme) : Prop where
  cut : CutFrom before body words
  inLine : ∀ word ∈ words, endsLine word.tok = false
  isLineEnding : IsLineEnding ending
  /-- Without a line end the source ends, and not at a line end of its own. -/
  atEnd : ending = [] → rest = [] ∧ ∃ init c, before ++ body = init ++ [c] ∧ isLineEnd c = false

def newlineAt (before ending : List Char) : Lexeme :=
  ⟨.newline, byteLength before, byteLength (before ++ ending)⟩

/-- The lexemes are those of a source line by line, where `rest` starts a line inside the open
levels. -/
inductive LaidOut : (levels : List Level) → (before rest : List Char) → List Lexeme → Prop
  | done (levels : List Level) (before rest : List Char) :
      LaidOut levels before rest
        (levels.map fun _ => ⟨.dedent, byteLength (before ++ rest), byteLength (before ++ rest)⟩)
  /-- A line with code, the first word of which follows `gap`. -/
  | line {levels inner : List Level} {before margin gap body ending rest : List Char}
      {level : Level}
      {change : LineChange} {words later : List Lexeme}
      (hmargin : Measures margin level)
      (henter : enterLine level levels = .ok (change, inner))
      (hgap : JoinsLines gap) (hjoined : gap = [] ∨ gap.head? = some '\\')
      (hcode : gap ++ body ++ ending ≠ [])
      (hline : LineCode (before ++ margin ++ gap) body ending rest words)
      (hfirst : (words.head?.map Lexeme.start).getD (byteLength (before ++ margin ++ gap ++ body)) =
        byteLength (before ++ margin ++ gap))
      (hlater : LaidOut inner (before ++ margin ++ gap ++ body ++ ending) rest later) :
      LaidOut levels before (margin ++ gap ++ body ++ ending ++ rest)
        (changeLexemes level (byteLength (before ++ margin)) change ++ words ++
          newlineAt (before ++ margin ++ gap ++ body) ending :: later)

/-- Inside a line, the text goes on to the end of the line, with more lines after it. -/
def RestOfLine (levels : List Level) (before text : List Char) (lexemes : List Lexeme) : Prop :=
  ∃ body ending rest words later, text = body ++ ending ++ rest ∧
    LineCode before body ending rest words ∧
    LaidOut levels (before ++ body ++ ending) rest later ∧
    lexemes = words ++ newlineAt (before ++ body) ending :: later

/-- Before the first word of a line, the text goes on to that word, past `gap`. -/
def StartOfLine (levels : List Level) (before text : List Char) (lexemes : List Lexeme) : Prop :=
  ∃ gap body ending rest words later, text = gap ++ body ++ ending ++ rest ∧ JoinsLines gap ∧
    LineCode (before ++ gap) body ending rest words ∧
    (words.head?.map Lexeme.start).getD (byteLength (before ++ gap ++ body)) =
      byteLength (before ++ gap) ∧
    LaidOut levels (before ++ gap ++ body ++ ending) rest later ∧
    lexemes = words ++ newlineAt (before ++ gap ++ body) ending :: later ∧
    (gap = [] ∨ ∃ c, text.head? = some c ∧ (isSpacing c = true ∨ c = '#' ∨ c = '\\'))

/-- When the source ends outside brackets, it does not end with a line end. -/
def Settles (before : List Char) (scanner : Scanner) (text : List Char) : Prop :=
  text = [] → scanner.depth = 0 → ∃ init c, before = init ++ [c] ∧ isLineEnd c = false

/-! ### From runs to lines -/

theorem lineStart_after_of_ne {tok : Option Tok} (htok : tok ≠ some .newline)
    (hstart : scanner.lineStart = false) : (scanner.after tok).lineStart = false := by
  unfold Scanner.after
  split
  · exact absurd rfl htok
  · split
    · exact hstart
    · split
      · exact hstart
      · exact hstart
  · exact hstart

theorem levels_after (scanner : Scanner) (tok : Option Tok) :
    (scanner.after tok).levels = scanner.levels := by
  unfold Scanner.after
  split
  · rfl
  · split
    · rfl
    · split
      · rfl
      · rfl
  · rfl

section Piece

variable {before : List Char} {scanner : Scanner} {c : Char} {word rest : List Char}
    {tok : Option Tok}

theorem take_piece (c : Char) (word rest : List Char) :
    (c :: (word ++ rest)).take (word.length + 1) = c :: word := by
  rw [List.take_succ_cons, List.take_left]

theorem settles_after (before : List Char)
    (hpiece : scanPiece scanner.depth c (word ++ rest) = .ok (tok, word.length + 1))
    (htok : tok ≠ some .newline) : Settles (before ++ c :: word) (scanner.after tok) rest := by
  rintro rfl hdepth
  have hkind := isPiece_of_scanPiece hpiece
  -- A line end that is not a newline stands inside brackets, which are still open at the end.
  have hline : isLineEnd c = false := by
    by_contra hline
    rcases (hkind.of_isLineEnd (by simpa using hline)).2 with ⟨-, h⟩ | ⟨hopen, rfl⟩
    · exact htok h
    · exact hopen hdepth
  obtain ⟨init, last, hlast⟩ : ∃ init last, c :: word = init ++ [last] :=
    ⟨_, _, (List.dropLast_append_getLast (List.cons_ne_nil c word)).symm⟩
  refine ⟨before ++ init, last, by rw [hlast, List.append_assoc], ?_⟩
  refine hkind.not_isLineEnd_getLast hline (fun _ => ?_) ?_
  · rw [List.append_nil]
    exact List.drop_length
  · rw [take_piece, hlast, List.getLast?_concat]

theorem endsLine_of_mem_toList
    (hpiece : scanPiece scanner.depth c (word ++ rest) = .ok (tok, word.length + 1))
    (htok : tok ≠ some .newline) : ∀ t ∈ tok.toList, endsLine t = false := by
  intro t ht
  obtain rfl : tok = some t := by simpa using ht
  rcases scanPiece_tok hpiece with h | ⟨rfl, -⟩
  · exact h
  · exact absurd rfl htok

theorem LineCode.piece {body tail : List Char} {words : List Lexeme}
    (htok : ∀ t ∈ tok.toList, endsLine t = false)
    (h : LineCode (before ++ c :: word) body ending tail words) :
    LineCode before (c :: word ++ body) ending tail
      ((tok.toList.map fun tok => ⟨tok, byteLength before, byteLength (before ++ c :: word)⟩) ++
        words) := by
  have hassoc : before ++ c :: word ++ body = before ++ (c :: word ++ body) :=
    List.append_assoc _ _ _
  refine ⟨?_, ?_, h.isLineEnding, ?_⟩
  · cases tok with
    | none => exact h.cut.widen
    | some tok =>
      have hword := htok tok (by simp)
      refine CutFrom.word [] (c :: word) (Tok.not_isBlockMark_of_endsLine hword)
        (fun hnewline => absurd hnewline (Tok.ne_newline_of_endsLine hword)) ?_ ?_ ?_
      · rw [List.append_nil]
      · rw [List.append_nil]
      · rw [List.append_nil]
        exact h.cut
  · intro lexeme hmem
    rcases List.mem_append.1 hmem with hmem | hmem
    · obtain ⟨t, ht, rfl⟩ := List.mem_map.1 hmem
      exact htok t ht
    · exact h.inLine lexeme hmem
  · rw [← hassoc]
    exact h.atEnd

theorem RestOfLine.piece (htok : ∀ t ∈ tok.toList, endsLine t = false)
    (h : RestOfLine levels (before ++ c :: word) rest lexemes) :
    RestOfLine levels before (c :: word ++ rest)
      ((tok.toList.map fun tok => ⟨tok, byteLength before, byteLength (before ++ c :: word)⟩) ++
        lexemes) := by
  obtain ⟨body, ending, tail, words, later, rfl, hline, hlater, rfl⟩ := h
  have hassoc : before ++ c :: word ++ body = before ++ (c :: word ++ body) :=
    List.append_assoc _ _ _
  rw [hassoc] at hlater ⊢
  refine ⟨c :: word ++ body, ending, tail, _, later, ?_, hline.piece htok, hlater, ?_⟩
  · simp only [List.append_assoc]
  · rw [List.append_assoc]

theorem restOfLine_newline
    (hpiece : scanPiece scanner.depth c (word ++ rest) = .ok (some .newline, word.length + 1))
    (h : LaidOut levels (before ++ c :: word) rest lexemes) :
    RestOfLine levels before (c :: word ++ rest)
      (⟨.newline, byteLength before, byteLength (before ++ c :: word)⟩ :: lexemes) := by
  have hending : IsLineEnding (c :: word) := by
    rcases scanPiece_tok hpiece with hline | ⟨-, hending⟩
    · cases hline
    · rwa [take_piece] at hending
  refine ⟨[], c :: word, rest, [], lexemes, rfl, ⟨.done _ _, ?_, hending, ?_⟩, ?_, ?_⟩
  · intro word hmem
    cases hmem
  · intro hnil
    cases hnil
  · rwa [List.append_nil]
  · rw [List.append_nil, List.nil_append, newlineAt]

/-- A line that has started goes on from any of its places. -/
theorem RestOfLine.startOfLine (h : RestOfLine levels before text lexemes)
    (hfirst : lexemes.head?.map Lexeme.start = some (byteLength before)) :
    StartOfLine levels before text lexemes := by
  obtain ⟨body, ending, rest, words, later, rfl, hline, hlater, rfl⟩ := h
  refine ⟨[], body, ending, rest, words, later, rfl, joinsLines_of_not_mem (by simp), ?_, ?_, ?_,
    ?_, .inl rfl⟩
  · rwa [List.append_nil]
  · rw [List.append_nil]
    cases words with
    | nil => simpa [newlineAt] using hfirst
    | cons word words => simpa using hfirst
  · rwa [List.append_nil]
  · rw [List.append_nil]

/-- A piece that is the longest start of characters of one kind. -/
theorem forall_of_length_takeWhile {p : Char → Bool}
    (hsize : word.length + 1 = ((c :: (word ++ rest)).takeWhile p).length) :
    (∀ d ∈ c :: word, p d = true) ∧ ∀ d, rest.head? = some d → p d = false := by
  have hprefix := List.takeWhile_prefix (l := c :: (word ++ rest)) p
  have hall : c :: word = (c :: (word ++ rest)).takeWhile p := by
    rw [List.prefix_iff_eq_take.1 hprefix, ← hsize, take_piece]
  have hdrop : (c :: (word ++ rest)).dropWhile p = rest := by
    have h := List.takeWhile_append_dropWhile (p := p) (l := c :: (word ++ rest))
    rw [← hall, ← List.cons_append] at h
    exact List.append_cancel_left h
  refine ⟨fun d hd => List.mem_takeWhile_imp (hall ▸ hd), fun d hd => ?_⟩
  have h := List.head?_dropWhile_not p (c :: (word ++ rest))
  rwa [hdrop, hd] at h

/-- A piece outside brackets that yields nothing: blanks, a line joined to the next one, or a
comment, after which the line ends. -/
theorem joinsLines_of_piece (hpiece : scanPiece 0 c (word ++ rest) = .ok (none, word.length + 1)) :
    (isSpacing c = true ∨ c = '#' ∨ c = '\\') ∧ ∀ {gap : List Char}, JoinsLines gap →
      (gap = [] ∨ ∃ d, rest.head? = some d ∧ isLineEnd d = false) →
      JoinsLines (c :: word ++ gap) := by
  generalize hsize : word.length + 1 = size at hpiece
  cases isPiece_of_scanPiece hpiece with
  | comment _ hc =>
    obtain ⟨hall, hend⟩ := forall_of_length_takeWhile hsize
    refine ⟨.inr (.inl hc), fun hgap hnext => ?_⟩
    rcases hnext with rfl | ⟨d, hd, hline⟩
    · rw [List.append_nil]
      exact joinsLines_of_not_mem fun hmem => by cases hall _ hmem
    · simpa [hline] using hend d hd
  | lineBreak _ _ hdepth => exact absurd rfl hdepth
  | spacing _ hc =>
    obtain ⟨hall, -⟩ := forall_of_length_takeWhile hsize
    refine ⟨.inl hc,
      fun hgap _ => JoinsLines.append (joinsLines_of_not_mem fun hmem => ?_) hgap (.inl hall)⟩
    cases hall _ hmem
  | joined _ hc hscan =>
    refine ⟨.inr (.inr hc), fun hgap _ => ?_⟩
    obtain ⟨hlength, hpos, -⟩ := scanContinuation_eq_ok hscan
    obtain ⟨d, tail, hrest, hd⟩ := lineEndSize_pos_iff.1 hpos
    have hending := isLineEnding_take hd tail
    have hsize' : word.length = lineEndSize (word ++ rest) := by omega
    have hword : word = (d :: tail).take (lineEndSize (d :: tail)) := by
      rw [← hrest, ← hsize', List.take_left]
    rw [← hword] at hending
    rw [hc]
    refine (joinsLines_backslash hending).append hgap (.inr ((hending.endsLine ?_).append ['\\']))
    rw [Ne, ← List.length_eq_zero_iff]
    omega

/-- Before the first word a line goes on with a piece that yields nothing. -/
theorem StartOfLine.gap (hpiece : scanPiece 0 c (word ++ rest) = .ok (none, word.length + 1))
    (h : StartOfLine levels (before ++ c :: word) rest lexemes) :
    StartOfLine levels before (c :: word ++ rest) lexemes := by
  obtain ⟨gap, body, ending, tail, words, later, hrest, hgap, hline, hfirst, hlater, rfl, hnext⟩ :=
    h
  obtain ⟨hc, hjoins⟩ := joinsLines_of_piece hpiece
  have hnext : gap = [] ∨ ∃ d, rest.head? = some d ∧ isLineEnd d = false := by
    refine hnext.imp_right fun ⟨d, hd, hkind⟩ => ⟨d, hd, ?_⟩
    rcases hkind with hkind | rfl | rfl
    · exact isLineEnd_eq_false_of_isSpacing hkind
    · rfl
    · rfl
  subst hrest
  have hassoc : before ++ c :: word ++ gap = before ++ (c :: word ++ gap) := List.append_assoc _ _ _
  rw [hassoc] at hline hfirst hlater ⊢
  refine ⟨c :: word ++ gap, body, ending, tail, words, later, ?_, hjoins hgap hnext, hline, hfirst,
    hlater, rfl, .inr ⟨c, rfl, hc⟩⟩
  simp only [List.append_assoc]

theorem depth_of_newline
    (hpiece : scanPiece scanner.depth c (word ++ rest) = .ok (some .newline, word.length + 1)) :
    scanner.depth = 0 := by
  have hends : endsLine .newline = true := rfl
  generalize hsize : word.length + 1 = size at hpiece
  generalize htok : Tok.newline = t at hpiece hends
  cases isPiece_of_scanPiece hpiece with
  | literal _ hscan =>
    rw [endsLine_scanLiteral hscan] at hends
    cases hends
  | word =>
    rw [endsLine_wordTok] at hends
    cases hends
  | emoji => cases hends
  | number _ _ _ _ hscan =>
    rw [endsLine_scanNumber hscan] at hends
    cases hends
  | newline _ _ hdepth => exact hdepth
  | symbol => cases hends

end Piece

/-- What a run reads, at the start of a line, inside a line and before the first word of one. -/
structure Lays (before : List Char) (scanner : Scanner) (text : List Char)
    (lexemes : List Lexeme) : Prop where
  atStart : scanner.lineStart = true → scanner.depth = 0 →
    LaidOut scanner.levels before text lexemes
  inLine : scanner.lineStart = false → Settles before scanner text →
    RestOfLine scanner.levels before text lexemes
  beforeWord : scanner.lineStart = false → scanner.depth = 0 → Settles before scanner text →
    StartOfLine scanner.levels before text lexemes

theorem lays_finish (hdepth : scanner.depth = 0) :
    Lays before scanner [] (finishScan (byteLength before) scanner).lexemes := by
  have hdone : LaidOut scanner.levels before []
      (scanner.levels.map fun _ => ⟨.dedent, byteLength before, byteLength before⟩) := by
    have h := LaidOut.done scanner.levels before []
    rwa [List.append_nil] at h
  have hline : scanner.lineStart = false → Settles before scanner [] →
      RestOfLine scanner.levels before [] (finishScan (byteLength before) scanner).lexemes := by
    intro hstart hsettles
    obtain ⟨init, c, hlast⟩ := hsettles rfl hdepth
    refine ⟨[], [], [], [], scanner.levels.map fun _ =>
      ⟨.dedent, byteLength before, byteLength before⟩, rfl, ⟨.done _ _, ?_, .inl rfl, ?_⟩, ?_, ?_⟩
    · intro word hmem
      cases hmem
    · intro _
      rw [List.append_nil]
      exact ⟨rfl, init, c, hlast⟩
    · rw [List.append_nil, List.append_nil]
      exact hdone
    · simp [finishScan, hdepth, hstart, newlineAt]
  refine ⟨?_, hline, ?_⟩
  · intro hstart _
    simpa [finishScan, hdepth, hstart] using hdone
  · intro hstart _ hsettles
    refine (hline hstart hsettles).startOfLine ?_
    simp [finishScan, hdepth, hstart]

theorem lays_margin {margin code : List Char} {change : LineChange}
    (hstart : scanner.lineStart = true) (hcode : code ≠ [])
    (hmargin : readMargin false .zero 0 (margin ++ code) = .ok (level, margin.length))
    (henter : enterLine level scanner.levels = .ok (change, levels))
    (h : Lays (before ++ margin) { scanner with lineStart := false, levels } code lexemes) :
    Lays before scanner (margin ++ code)
      (changeLexemes level (byteLength (before ++ margin)) change ++ lexemes) := by
  have hnot : scanner.lineStart ≠ false := by simp [hstart]
  refine ⟨fun _ hdepth => ?_, fun hline => absurd hline hnot, fun hline => absurd hline hnot⟩
  have hsettles : Settles (before ++ margin) { scanner with lineStart := false, levels } code :=
    fun hnil => absurd hnil hcode
  obtain ⟨gap, body, ending, rest, words, later, rfl, hgap, hline, hfirst, hlater, rfl, hjoined⟩ :=
    h.beforeWord rfl hdepth hsettles
  obtain ⟨c, tail, htail⟩ := List.exists_cons_of_ne_nil hcode
  rw [htail, ← Nat.zero_add margin.length] at hmargin
  obtain ⟨hmeasures, -, hnotSpace, hnotComment⟩ :=
    readMargin_measures (fun _ => measures_nil) hmargin
  rw [List.nil_append] at hmeasures
  have hhead : gap = [] ∨ gap.head? = some '\\' := by
    cases gap with
    | nil => exact .inl rfl
    | cons d gap =>
      obtain ⟨rfl, -⟩ := List.cons.inj htail
      rcases hjoined with hnil | ⟨e, he, hkind⟩
      · cases hnil
      · obtain rfl : d = e := by simpa using he
        rcases hkind with hkind | hkind | rfl
        · rw [hnotSpace] at hkind
          cases hkind
        · exact absurd hkind hnotComment
        · exact .inr rfl
  have hne : gap ++ body ++ ending ≠ [] := by
    intro hnil
    have hending := (List.append_eq_nil_iff.1 hnil).2
    rw [hnil, (hline.atEnd hending).1] at hcode
    exact hcode rfl
  have hall := LaidOut.line hmeasures henter hgap hhead hne hline hfirst hlater
  simpa only [List.append_assoc] using hall

theorem lays_piece {word : List Char} {tok : Option Tok} (hstart : scanner.lineStart = false)
    (hpiece : scanPiece scanner.depth c (word ++ rest) = .ok (tok, word.length + 1))
    (h : Lays (before ++ c :: word) (scanner.after tok) rest lexemes) :
    Lays before scanner (c :: word ++ rest)
      ((tok.toList.map fun tok => ⟨tok, byteLength before, byteLength (before ++ c :: word)⟩) ++
        lexemes) := by
  have hline : RestOfLine scanner.levels before (c :: word ++ rest)
      ((tok.toList.map fun tok => ⟨tok, byteLength before, byteLength (before ++ c :: word)⟩) ++
        lexemes) := by
    by_cases htok : tok = some .newline
    · subst htok
      exact restOfLine_newline hpiece (h.atStart rfl (depth_of_newline hpiece))
    · refine RestOfLine.piece (endsLine_of_mem_toList hpiece htok) ?_
      rw [← levels_after scanner tok]
      exact h.inLine (lineStart_after_of_ne htok hstart) (settles_after _ hpiece htok)
  refine ⟨?_, fun _ _ => hline, fun _ hdepth _ => ?_⟩
  · intro htrue
    rw [hstart] at htrue
    cases htrue
  · cases tok with
    | some tok => exact hline.startOfLine rfl
    | none =>
      have hsettles := settles_after before hpiece (fun h => by cases h)
      rw [hdepth] at hpiece
      exact (h.beforeWord hstart hdepth hsettles).gap hpiece

/-- A run reads a source line by line. -/
theorem lays_of_run (h : Run before scanner text lexemes) : Lays before scanner text lexemes := by
  induction h with
  | finish hdepth => exact lays_finish hdepth
  | @blank before scanner text level hdepth hstart htext hmargin =>
    refine ⟨fun _ _ => ?_, fun hline => ?_, fun hline => ?_⟩
    · have h := LaidOut.done scanner.levels before text
      simpa [finishScan, hdepth, hstart] using h
    · rw [hstart] at hline
      cases hline
    · rw [hstart] at hline
      cases hline
  | margin hstart hcode hmargin henter _ ih => exact lays_margin hstart hcode hmargin henter ih
  | piece hstart hpiece _ ih => exact lays_piece hstart hpiece ih

/-! ### The lines of a module -/

/-- A lexeme with its soft keyword resolved, and the same one before that. -/
def SameLexeme (a b : Lexeme) : Prop :=
  a.start = b.start ∧ a.stop = b.stop ∧
    (a.tok = b.tok ∨ endsLine a.tok = false ∧ endsLine b.tok = false)

theorem resolveSoftKeywords_sameLexeme (lineStart : Bool) (lexemes : List Lexeme) :
    List.Forall₂ SameLexeme (resolveSoftKeywords lineStart lexemes) lexemes := by
  induction lexemes generalizing lineStart with
  | nil => exact .nil
  | cons lexeme rest ih =>
    refine .cons ⟨rfl, rfl, ?_⟩ (ih _)
    rcases endsLine_resolveSoftKeyword lineStart lexeme.tok rest with h | ⟨hraw, hresolved⟩
    · exact .inl h
    · exact .inr ⟨hresolved, hraw⟩

namespace SameLexeme

variable {a b : Lexeme}

theorem eq (h : SameLexeme a b) (hb : endsLine b.tok = true) : a = b := by
  obtain ⟨hstart, hstop, htok | ⟨-, hcode⟩⟩ := h
  · cases a
    cases b
    simp_all
  · rw [hb] at hcode
    cases hcode

theorem endsLine_eq_false (h : SameLexeme a b) (hb : endsLine b.tok = false) :
    endsLine a.tok = false := by
  rcases h.2.2 with htok | ⟨ha, -⟩
  · rwa [htok]
  · exact ha

end SameLexeme

theorem eq_of_sameLexeme {a b : List Lexeme} (h : List.Forall₂ SameLexeme a b)
    (hb : ∀ lexeme ∈ b, endsLine lexeme.tok = true) : a = b := by
  induction h with
  | nil => rfl
  | cons hhead _ ih =>
    rw [hhead.eq (hb _ List.mem_cons_self),
      ih fun lexeme hmem => hb lexeme (List.mem_cons_of_mem _ hmem)]

theorem endsLine_of_isBlockMark {tok : Tok} (h : tok.IsBlockMark) : endsLine tok = true := by
  rcases h with rfl | rfl <;> rfl

theorem LineCode.of_sameLexeme {body : List Char} {a b : List Lexeme}
    (hline : LineCode before body ending rest b) (h : List.Forall₂ SameLexeme a b) :
    LineCode before body ending rest a := by
  obtain ⟨hcut, hinLine, hending, hatEnd⟩ := hline
  suffices CutFrom before body a ∧ ∀ word ∈ a,
    endsLine word.tok = false from ⟨this.1, this.2, hending, hatEnd⟩
  clear hatEnd
  induction hcut generalizing a with
  | done before rest =>
    cases h
    exact ⟨.done _ _, fun word hmem => by cases hmem⟩
  | mark gap hmark =>
    have hends := hinLine _ List.mem_cons_self
    rw [endsLine_of_isBlockMark hmark] at hends
    cases hends
  | word gap word hcode hnewline hstart hstop _ ih =>
    cases h with
    | cons hhead htail =>
      have hends := hhead.endsLine_eq_false (hinLine _ List.mem_cons_self)
      obtain ⟨hrest, hothers⟩ :=
        ih htail fun lexeme hmem => hinLine lexeme (List.mem_cons_of_mem _ hmem)
      refine ⟨CutFrom.word gap word (Tok.not_isBlockMark_of_endsLine hends)
        (fun hline => absurd hline (Tok.ne_newline_of_endsLine hends)) ?_ ?_ hrest, ?_⟩
      · rw [hhead.1]
        exact hstart
      · rw [hhead.2.1]
        exact hstop
      · exact List.forall_mem_cons.2 ⟨hends, hothers⟩

theorem LaidOut.of_sameLexeme {a b : List Lexeme} (hlaid : LaidOut levels before rest b)
    (h : List.Forall₂ SameLexeme a b) : LaidOut levels before rest a := by
  induction hlaid generalizing a with
  | done levels before rest =>
    have hsame := eq_of_sameLexeme h fun lexeme hmem => by
      obtain ⟨_, -, rfl⟩ := List.mem_map.1 hmem
      rfl
    rw [hsame]
    exact .done levels before rest
  | line hmargin henter hgap hjoined hcode hline hfirst _ ih =>
    obtain ⟨code, tail, rfl, hcodes, htail⟩ := exists_append_of_forall₂ h
    obtain ⟨marks, words, rfl, hmarks, hwords⟩ := exists_append_of_forall₂ hcodes
    cases htail with
    | cons hnewline hlater =>
      rw [hnewline.eq rfl, eq_of_sameLexeme hmarks fun mark hmem =>
        endsLine_of_isBlockMark (changeLexemes_marks _ _ _ mark hmem).1]
      refine LaidOut.line hmargin henter hgap hjoined hcode (hline.of_sameLexeme hwords) ?_
        (ih hlater)
      rw [← hfirst]
      cases hwords with
      | nil => rfl
      | cons hword _ => simp [hword.1]

/-- The lexemes of a module come line by line, after a byte order mark if there is one. -/
theorem laidOut_of_scanModule (h : (scanModule text).fault = none) :
    ∃ mark rest, text = mark ++ rest ∧ (mark = [] ∨ mark = [byteOrderMark]) ∧
      LaidOut [] mark rest (scanModule text).lexemes := by
  obtain ⟨mark, rest, hsplit, hmark, hscan⟩ := scanAt_eq_scanFrom text
  have hfault : (scanFrom (byteLength mark) .initial 0 rest).fault = none := by
    rw [← hscan]
    exact h
  have hlaid := (lays_of_run (run_of_fault_eq_none hfault)).atStart rfl rfl
  rw [← hscan] at hlaid
  exact ⟨mark, rest, hsplit, hmark, hlaid.of_sameLexeme (resolveSoftKeywords_sameLexeme true _)⟩

end PythonLint
