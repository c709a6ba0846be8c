import PythonLint.Proofs.Ignore.LineText
import PythonLint.Proofs.Ignore.OpenLevels
import Mathlib.Data.List.DropRight
import Mathlib.Data.List.Nodup

/-!
# What the tokens of an ignore file tell about its text

Nothing is lost between an ignore file and its tokens. The words of a line are its text between
their columns, only blanks stand between them, and the line ends with a newline if its text ends
with a line feed; blank lines and comments leave no trace. When a file is refused, the lines above
the error are fine, and the error says where its line goes wrong: at the end of a margin that falls
between the open levels, or where the words of the line break off.

Main statements: `areLines_sourceLines`, `AreLines.eq_linesFrom`, `yields_lexLine`, `lexLine_error`,
`lossless_of_lex`, `failsAt_of_lex`, `lex_exact`.
-/

namespace PythonLint.Ignore

variable {error : LexError} {line : Line} {source : List Char} {lines : List Line}
    {levels : List Nat} {number : Nat}
  {token : Token}

/-! ### The lines of a text -/

/-- The lines of a text, the first with the given number. A line is what stands before a line feed
or before the end, without the carriage returns at its end. -/
inductive AreLines : (number : Nat) → (text : List Char) → (lines : List Line) → Prop
  | nil (number : Nat) : AreLines number [] []
  | last {number returns : Nat} {line : List Char} (hfeed : '\n' ∉ line)
      (hreturn : line.getLast? ≠ some '\r') (hne : line ++ List.replicate returns '\r' ≠ []) :
      AreLines number (line ++ List.replicate returns '\r') [⟨number, line, false⟩]
  | line {number returns : Nat} {line rest : List Char} {lines : List Line} (hfeed : '\n' ∉ line)
      (hreturn : line.getLast? ≠ some '\r') (h : AreLines (number + 1) rest lines) :
      AreLines number (line ++ List.replicate returns '\r' ++ '\n' :: rest)
        (⟨number, line, true⟩ :: lines)

theorem exists_returns (piece : List Char) :
    ∃ returns, piece = Text.dropEndWhile (· == '\r') piece ++ List.replicate returns '\r' ∧
      (Text.dropEndWhile (· == '\r') piece).getLast? ≠ some '\r' := by
  refine ⟨(piece.rtakeWhile (· == '\r')).length, ?_, fun hlast => ?_⟩
  · have hall : piece.rtakeWhile (· == '\r') =
        List.replicate (piece.rtakeWhile (· == '\r')).length '\r' :=
      List.eq_replicate_of_mem fun c hc => by simpa using List.mem_rtakeWhile_imp hc
    rw [← hall]
    exact List.rdropWhile_append_rtakeWhile.symm
  · obtain ⟨init, hinit⟩ := List.getLast?_eq_some_iff.1 hlast
    have hne : piece.rdropWhile (· == '\r') ≠ [] := by
      change Text.dropEndWhile (· == '\r') piece ≠ []
      rw [hinit]
      simp
    have hnot := List.rdropWhile_last_not (· == '\r') piece hne
    have hgetLast : (piece.rdropWhile (· == '\r')).getLast hne = '\r' := by
      rw [← Option.some.injEq, ← List.getLast?_eq_getLast_of_ne_nil hne]
      exact hlast
    simp [hgetLast] at hnot

theorem dropEndWhile_append_returns {line : List Char} (h : line.getLast? ≠ some '\r')
    (returns : Nat) :
    Text.dropEndWhile (· == '\r') (line ++ List.replicate returns '\r') = line := by
  have hdrop : (List.replicate returns '\r' ++ line.reverse).dropWhile (· == '\r') =
      line.reverse := by
    rw [List.dropWhile_append_of_pos (by simp)]
    cases hreverse : line.reverse with
    | nil => rfl
    | cons c rest =>
      rw [← List.head?_reverse, hreverse, List.head?_cons, ne_eq, Option.some.injEq] at h
      rw [List.dropWhile_cons_of_neg (by simpa using h)]
  rw [Text.dropEndWhile, List.reverse_append, List.reverse_replicate, hdrop, List.reverse_reverse]

theorem lineFeed_not_mem_returns {line : List Char} (h : '\n' ∉ line) (returns : Nat) :
    '\n' ∉ line ++ List.replicate returns '\r' := by
  simp [h]

theorem areLines_linesFrom (number : Nat) (text : List Char) :
    AreLines number text (linesFrom number (Text.segments text)) := by
  induction text using Text.lines_induction generalizing number with
  | last text hfeed =>
    rw [Text.segments_of_not_mem hfeed, linesFrom]
    split
    · next hempty =>
      rw [List.isEmpty_iff.1 hempty]
      exact .nil number
    · next hempty =>
      obtain ⟨returns, htext, hreturn⟩ := exists_returns text
      have hkept : '\n' ∉ Text.dropEndWhile (· == '\r') text := by
        rw [htext] at hfeed
        exact fun hmem => hfeed (List.mem_append_left _ hmem)
      have hlast := @AreLines.last number returns _ hkept hreturn (by
        rw [← htext]
        simpa using hempty)
      rwa [← htext] at hlast
  | line first rest hfeed ih =>
    obtain ⟨returns, hfirst, hreturn⟩ := exists_returns first
    have hkept : '\n' ∉ Text.dropEndWhile (· == '\r') first := by
      rw [hfirst] at hfeed
      exact fun hmem => hfeed (List.mem_append_left _ hmem)
    have hline := @AreLines.line number returns _ _ _ hkept hreturn (ih (number + 1))
    rw [← hfirst] at hline
    rwa [linesFrom_lineFeed hfeed]

theorem areLines_sourceLines (source : List Char) : AreLines 1 source (sourceLines source) :=
  areLines_linesFrom 1 source

namespace AreLines

variable {number : Nat} {text : List Char} {lines : List Line}

theorem eq_linesFrom (h : AreLines number text lines) :
    lines = linesFrom number (Text.segments text) := by
  induction h with
  | nil => rfl
  | @last number returns line hfeed hreturn hne =>
    rw [Text.segments_of_not_mem (lineFeed_not_mem_returns hfeed returns), linesFrom,
      if_neg (by simpa using hne), dropEndWhile_append_returns hreturn]
  | @line number returns line rest lines hfeed hreturn _ ih =>
    rw [linesFrom_lineFeed (lineFeed_not_mem_returns hfeed returns),
      dropEndWhile_append_returns hreturn, ih]

theorem le_number (h : AreLines number text lines) : ∀ line ∈ lines, number ≤ line.number := by
  induction h with
  | nil => simp
  | last => simp
  | line _ _ _ ih =>
    refine List.forall_mem_cons.2 ⟨Nat.le_refl _, fun line hmem => ?_⟩
    exact Nat.le_of_succ_le (ih line hmem)

theorem pairwise_number (h : AreLines number text lines) :
    lines.Pairwise fun a b => a.number < b.number := by
  induction h with
  | nil => exact .nil
  | last => exact List.pairwise_singleton _ _
  | line _ _ h ih => exact List.pairwise_cons.2 ⟨h.le_number, ih⟩

theorem exists_above {above below : List Line} (h : AreLines number text (above ++ line :: below)) :
    ∃ first rest, text = first ++ rest ∧ StartsLine first ∧ first.count '\n' = above.length ∧
      line.number = number + above.length ∧ AreLines number first above := by
  induction above generalizing number text with
  | nil =>
    refine ⟨[], text, rfl, .inl rfl, rfl, ?_, .nil number⟩
    cases h <;> rfl
  | cons other above ih =>
    rw [List.cons_append] at h
    generalize hlines : above ++ line :: below = lines at h
    cases h with
    | last => simp at hlines
    | @line _ returns start rest _ hfeed hreturn h =>
      rw [← hlines] at h
      obtain ⟨first, rest, rfl, hstarts, hcount, hnumber, habove⟩ := ih h
      refine ⟨start ++ List.replicate returns '\r' ++ '\n' :: first, rest, by simp,
        hstarts.append_lineFeed _, ?_, ?_, .line hfeed hreturn habove⟩
      · rw [Text.count_lineFeed (lineFeed_not_mem_returns hfeed returns), hcount, List.length_cons]
      · rw [hnumber, List.length_cons]
        omega

end AreLines

/-! ### One line -/

/-- The line is blank, or a comment: its first character that is not a blank is a hash. -/
def Line.IsIdle (line : Line) : Prop :=
  (∀ c ∈ line.text, isGap c = true) ∨ ∃ margin rest, line.text = margin ++ '#' :: rest ∧
    ∀ c ∈ margin, isGap c = true

theorem isSkipped_iff : isSkipped line = true ↔ line.IsIdle := by
  have hsplit := List.takeWhile_append_dropWhile (p := isGap) (l := line.text)
  have hmargin : ∀ c ∈ line.text.takeWhile isGap, isGap c = true :=
    fun c hc => List.mem_takeWhile_imp hc
  constructor
  · intro hskip
    cases hdrop : line.text.dropWhile isGap with
    | nil =>
      rw [hdrop, List.append_nil] at hsplit
      exact .inl (hsplit ▸ hmargin)
    | cons c rest =>
      have hc : c = '#' := by simpa [isSkipped, hdrop] using hskip
      rw [hdrop, hc] at hsplit
      exact .inr ⟨_, rest, hsplit.symm, hmargin⟩
  · rintro (hblank | ⟨margin, rest, htext, hgaps⟩)
    · have hdrop : line.text.dropWhile isGap = [] := List.dropWhile_eq_nil_iff.2 hblank
      simp [isSkipped, hdrop]
    · have hdrop : line.text.dropWhile isGap = '#' :: rest := by
        rw [htext, List.dropWhile_append_of_pos hgaps, List.dropWhile_cons_of_neg (by decide)]
      simp [isSkipped, hdrop]

/-- The tokens of a line without errors: nothing for an idle line, and otherwise marks of blocks,
the words of the line, and a newline when the line is terminated. -/
inductive Line.Yields (line : Line) : List Token → Prop
  | idle (hidle : line.IsIdle) : line.Yields []
  | words {marks words : List Token} (hactive : ¬line.IsIdle)
      (hmarks : ∀ token ∈ marks, ¬token.kind.IsWordKind ∧ token.start.line = line.number)
      (hne : words ≠ []) (hcut : IsCut line.number 0 line.text words) :
      line.Yields (marks ++ words ++ lineEnd line line.text.length)

theorem TokenKind.not_isWordKind {kind : TokenKind}
    (h : kind = .indent ∨ kind = .dedent ∨ kind = .newline) : ¬kind.IsWordKind := by
  rcases h with rfl | rfl | rfl <;> decide

theorem mark_of_mem_lexMargin {margin : List Char}
    (h : token ∈ (lexMargin levels number margin).tokens) :
    ¬token.kind.IsWordKind ∧ token.start.line = number := by
  unfold lexMargin at h
  simp only at h
  split at h
  · rw [List.mem_singleton.1 h]
    exact ⟨TokenKind.not_isWordKind (.inl rfl), rfl⟩
  · obtain ⟨_, -, rfl⟩ := List.mem_map.1 h
    exact ⟨TokenKind.not_isWordKind (.inr (.inl rfl)), rfl⟩

/-- The words of a line that counts, from its first column on, and where they break off. -/
theorem exists_isCut_line (hactive : ¬line.IsIdle) :
    let words := lexWords line.number (line.text.takeWhile isGap).length (line.text.dropWhile isGap)
    ∃ before after, line.text = before ++ after ∧ IsCut line.number 0 before words.tokens ∧
      words.column = before.length ∧
      (words.error = none ∧ after = [] ∧ words.tokens ≠ [] ∨
        words.error = some ⟨.noWord, ⟨line.number, before.length⟩⟩ ∧ StartsNoWord after) := by
  intro words
  have hskip : isSkipped line = false := by
    rw [← Bool.not_eq_true, isSkipped_iff]
    exact hactive
  obtain ⟨c, others, hdrop, hc, -⟩ := exists_of_not_isSkipped hskip
  obtain ⟨before, after, htext, hcut, hcolumn, hend⟩ := exists_isCut_lexWords line.number
    (line.text.takeWhile isGap).length (line.text.dropWhile isGap)
  have hmargin : ∀ c ∈ line.text.takeWhile isGap, isGap c = true :=
    fun c hc => List.mem_takeWhile_imp hc
  refine ⟨line.text.takeWhile isGap ++ before, after, ?_,
    .append_gaps hmargin (by simpa using hcut), ?_, ?_⟩
  · rw [List.append_assoc, ← htext, List.takeWhile_append_dropWhile]
  · rw [List.length_append]
    exact hcolumn
  · rw [List.length_append]
    refine hend.imp_left fun hend => ⟨hend.1, hend.2, ?_⟩
    have hnone := hend.1
    rw [hdrop] at hnone
    change (lexWords _ _ (line.text.dropWhile isGap)).tokens ≠ []
    rw [hdrop]
    exact lexWords_tokens_ne_nil _ _ hc hnone

theorem yields_lexLine (h : (lexLine levels line).error = none) :
    line.Yields (lexLine levels line).tokens := by
  by_cases hidle : line.IsIdle
  · rw [lexLine, if_pos (isSkipped_iff.2 hidle)]
    exact .idle hidle
  · obtain ⟨before, after, htext, hcut, hcolumn, hend⟩ := exists_isCut_line hidle
    rw [lexLine, if_neg (isSkipped_iff.not.2 hidle)] at h ⊢
    simp only at h ⊢
    split at h
    · next hsome =>
      rw [h] at hsome
      cases hsome
    · next hmargin =>
      rw [if_neg hmargin]
      rcases hend with ⟨hnone, rfl, hne⟩ | ⟨hsome, -⟩
      · rw [List.append_nil] at htext
        simp only [hnone, hcolumn, ← htext]
        exact .words hidle (fun token hmem => mark_of_mem_lexMargin hmem) hne (htext ▸ hcut)
      · simp only [hsome] at h
        cases h

/-! ### A line with an error -/

/-- The margin of the line is narrower than the innermost open level and as wide as no other; the
error stands at its end. -/
structure Line.FallsBetween (line : Line) (levels : List Nat) (error : LexError) : Prop where
  fault : error.fault = .unmatchedLevel
  column : error.location.column = (line.text.takeWhile isGap).length
  narrower : error.location.column < levels.headD 0
  unmatched : error.location.column ∉ levels

/-- The line falls into words and blanks up to the error, and there neither a word nor a blank
starts. -/
structure Line.BreaksOff (line : Line) (error : LexError) : Prop where
  fault : error.fault = .noWord
  cut : ∃ before after words, line.text = before ++ after ∧ before.length = error.location.column ∧
    IsCut line.number 0 before words ∧ StartsNoWord after

/-- A width that is one of the open levels is found when the deeper levels are closed. -/
theorem Levels.head?_dropWhile (h : Levels levels) {width : Nat} (hmem : width ∈ levels) :
    (levels.dropWhile (width < ·)).head? = some width := by
  have hkept : width ∈ levels.dropWhile (width < ·) := by
    rw [← List.takeWhile_append_dropWhile (p := (width < ·)) (l := levels)] at hmem
    refine (List.mem_append.1 hmem).resolve_left fun hclosed => ?_
    simpa using List.mem_takeWhile_imp hclosed
  have hdeepens := (h.dropWhile width).deepens
  have hhead := List.head?_dropWhile_not (width < ·) levels
  cases hdrop : levels.dropWhile (width < ·) with
  | nil =>
    rw [hdrop] at hkept
    cases hkept
  | cons level outer =>
    rw [hdrop] at hkept hdeepens hhead
    rcases List.mem_cons.1 hkept with rfl | hkept
    · rfl
    · have hdeeper : width < level := (List.pairwise_cons.1 hdeepens).1 width hkept
      simp [hdeeper] at hhead

theorem lexMargin_error (hlevels : Levels levels) {margin : List Char}
    (h : (lexMargin levels number margin).error = some error) :
    error = ⟨.unmatchedLevel, ⟨number, margin.length⟩⟩ ∧ margin.length < levels.headD 0 ∧
    margin.length ∉ levels := by
  unfold lexMargin at h
  simp only at h
  split at h
  · cases h
  · next hnot =>
    split at h
    · cases h
    · next hhead =>
      cases h
      have hunmatched : margin.length ∉ levels := fun hmem => hhead (hlevels.head?_dropWhile hmem)
      obtain ⟨level, outer, rfl⟩ := List.exists_cons_of_ne_nil hlevels.ne_nil
      rw [List.headD_cons] at hnot ⊢
      have hne : margin.length ≠ level := fun heq => hunmatched (heq ▸ List.mem_cons_self)
      exact ⟨rfl, by omega, hunmatched⟩

theorem lexLine_error (hlevels : Levels levels) (h : (lexLine levels line).error = some error) :
    ¬line.IsIdle ∧ error.location.line = line.number ∧
    (line.FallsBetween levels error ∨ line.BreaksOff error) := by
  by_cases hidle : line.IsIdle
  · rw [lexLine, if_pos (isSkipped_iff.2 hidle)] at h
    cases h
  · refine ⟨hidle, ?_⟩
    obtain ⟨before, after, htext, hcut, -, hend⟩ := exists_isCut_line hidle
    rw [lexLine, if_neg (isSkipped_iff.not.2 hidle)] at h
    simp only at h
    split at h
    · obtain ⟨rfl, hnarrower, hunmatched⟩ := lexMargin_error hlevels h
      exact ⟨rfl, .inl ⟨rfl, rfl, hnarrower, hunmatched⟩⟩
    · rcases hend with ⟨hnone, -⟩ | ⟨hsome, hstop⟩
      · simp only [hnone] at h
        cases h
      · simp only [hsome] at h
        cases h
        exact ⟨rfl, .inr ⟨rfl, before, after, _, htext, rfl, hcut, hstop⟩⟩

/-! ### The tokens of a line -/

namespace Line.Yields

variable {line : Line} {tokens : List Token} {token : Token}

/-- The words of a line that counts stand between marks of blocks and the end of the line. -/
theorem exists_words (h : line.Yields tokens) (hactive : ¬line.IsIdle) :
    ∃ marks words, tokens = marks ++ words ++ lineEnd line line.text.length ∧
      (∀ token ∈ marks, ¬token.kind.IsWordKind ∧ token.start.line = line.number) ∧ words ≠ [] ∧
      IsCut line.number 0 line.text words := by
  cases h with
  | idle hidle => exact absurd hidle hactive
  | words _ hmarks hne hcut => exact ⟨_, _, rfl, hmarks, hne, hcut⟩

theorem eq_nil (h : line.Yields tokens) (hidle : line.IsIdle) : tokens = [] := by
  cases h with
  | idle _ => rfl
  | words hactive _ _ _ => exact absurd hidle hactive

theorem start_line (h : line.Yields tokens) (hmem : token ∈ tokens) :
    token.start.line = line.number := by
  cases h with
  | idle _ => cases hmem
  | words _ hmarks _ hcut =>
    rcases List.mem_append.1 hmem with hmem | hmem
    · rcases List.mem_append.1 hmem with hmem | hmem
      · exact (hmarks token hmem).2
      · obtain ⟨_, _, -, -, hstart, -⟩ := hcut.exists_place hmem
        rw [hstart]
    · unfold lineEnd at hmem
      split at hmem
      · rw [List.mem_singleton.1 hmem]
      · cases hmem

/-- The words among the tokens of a line are those that its text falls into. -/
theorem filter_words {marks words : List Token} {column : Nat}
    (hmarks : ∀ token ∈ marks, ¬token.kind.IsWordKind ∧ token.start.line = line.number)
    (hcut : IsCut line.number 0 line.text words) :
    (marks ++ words ++ lineEnd line column).filter (·.kind.IsWordKind) = words := by
  have hnone : marks.filter (·.kind.IsWordKind) = [] :=
    List.filter_eq_nil_iff.2 fun token hmem => by simpa using (hmarks token hmem).1
  have hall : words.filter (·.kind.IsWordKind) = words := by
    refine List.filter_eq_self.2 fun token hmem => ?_
    obtain ⟨_, _, -, hlongest, -⟩ := hcut.exists_place hmem
    simpa using hlongest.word.isWordKind
  have hend : (lineEnd line column).filter (·.kind.IsWordKind) = [] := by
    refine List.filter_eq_nil_iff.2 fun token hmem => ?_
    simpa using TokenKind.not_isWordKind (.inr (.inr (kind_of_mem_lineEnd hmem)))
  rw [List.filter_append, List.filter_append, hnone, hall, hend, List.nil_append, List.append_nil]

/-- A word of a line is the text between its columns, and no longer word starts there. -/
theorem text_eq (h : line.Yields tokens) (hmem : token ∈ tokens) (hword : token.kind.IsWordKind) :
    token.stop.line = line.number ∧ token.stop.column =
      token.start.column + token.lexeme.toList.length ∧
      (line.text.drop token.start.column).take (token.stop.column - token.start.column) =
        token.lexeme.toList ∧
      IsLongest token.kind token.lexeme.toList (line.text.drop token.stop.column) := by
  cases h with
  | idle _ => cases hmem
  | @words marks words hactive hmarks hne hcut =>
    have hfiltered : token ∈ words := by
      rw [← filter_words hmarks hcut]
      exact List.mem_filter.2 ⟨hmem, decide_eq_true hword⟩
    obtain ⟨before, rest, htext, hlongest, hstart, hstop⟩ := hcut.exists_place hfiltered
    have hdrop : line.text.drop (before.length + token.lexeme.toList.length) = rest := by
      rw [htext, ← List.length_append, List.drop_left]
    rw [hstart, hstop, Nat.zero_add, hdrop, Nat.add_sub_cancel_left]
    refine ⟨rfl, rfl, ?_, hlongest⟩
    rw [htext, List.append_assoc, List.drop_left, List.take_left]

theorem pairwise (h : line.Yields tokens) :
    (tokens.filter (·.kind.IsWordKind)).Pairwise fun a b => a.stop ≤ b.start := by
  cases h with
  | idle _ => exact .nil
  | words _ hmarks _ hcut =>
    rw [filter_words hmarks hcut]
    exact hcut.pairwise

end Line.Yields

/-! ### A file without errors -/

/-- The tokens of a file fall to its lines, each of which has the tokens that it yields, and to the
dedents at the end. -/
structure IsRead (lines : List Line) (stop : Location) (tokens : List Token)
    (read : List (Line × List Token))
    (closed : List Token) : Prop where
  lines : read.map Prod.fst = lines
  yields : ∀ pair ∈ read, pair.1.Yields pair.2
  tokens : tokens = read.flatMap Prod.snd ++ closed
  closed : ∀ token ∈ closed, token = dedentAt stop

theorem exists_isRead_lexLines {stop : Location} (h : (lexLines levels stop lines).error = none) :
    ∃ read closed, IsRead lines stop (lexLines levels stop lines).tokens read closed := by
  induction lines generalizing levels with
  | nil =>
    refine ⟨[], closeAll levels stop, rfl, by simp, rfl, fun token hmem => ?_⟩
    obtain ⟨_, -, rfl⟩ := List.mem_map.1 hmem
    rfl
  | cons line lines ih =>
    rw [lexLines] at h ⊢
    cases herror : (lexLine levels line).error with
    | some error =>
      simp only [herror] at h
      cases h
    | none =>
      simp only [herror] at h ⊢
      obtain ⟨read, closed, rfl, hyields, htokens, hclosed⟩ := ih h
      refine ⟨(line, (lexLine levels line).tokens) :: read, closed, rfl, ?_, ?_, hclosed⟩
      · exact List.forall_mem_cons.2 ⟨yields_lexLine herror, hyields⟩
      · rw [htokens, List.flatMap_cons, List.append_assoc]

/-- The tokens of a file tell its text. -/
structure Lossless (source : List Char) (tokens : List Token) : Prop where
  /-- A word is the text of its line between its columns, and no longer word starts there. -/
  text : ∀ token ∈ tokens, token.kind.IsWordKind → ∃ line ∈ sourceLines source,
    token.start.line = line.number ∧ token.stop.line = line.number ∧
      token.stop.column = token.start.column + token.lexeme.toList.length ∧
      (line.text.drop token.start.column).take (token.stop.column - token.start.column) =
        token.lexeme.toList ∧
      IsLongest token.kind token.lexeme.toList (line.text.drop token.stop.column)
  /-- The words stand in order and do not overlap. -/
  ordered : (tokens.filter (·.kind.IsWordKind)).Pairwise fun a b => a.stop ≤ b.start
  /-- Outside of words a line that counts has blanks only. -/
  covered : ∀ line ∈ sourceLines source, ¬line.IsIdle → ∀ column c, line.text[column]? = some c →
    isGap c = true ∨ ∃ token ∈ tokens, token.kind.IsWordKind ∧ token.start.line = line.number ∧
      token.start.column ≤ column ∧ column < token.stop.column
  /-- A line that does not count has no tokens. Dedents may stand on it when it is the last one and
  has no end. -/
  idle : ∀ line ∈ sourceLines source, line.IsIdle → ∀ token ∈ tokens,
    token.start.line = line.number → token = dedentAt (endOfLines (sourceLines source))
  /-- The words of a line stand together, and a newline follows them exactly when the line ends with
  a line feed. -/
  newline : ∀ line ∈ sourceLines source, ¬line.IsIdle → ∃ before words after,
    tokens = before ++ words ++ after ∧
    words = tokens.filter (fun token => token.kind.IsWordKind ∧ token.start.line = line.number) ∧
      words ≠ [] ∧ (nextKind after = some .newline ↔ line.terminated = true)

namespace IsRead

variable {lines : List Line} {stop : Location} {tokens : List Token}
    {read : List (Line × List Token)}
  {closed : List Token}

theorem exists_pair (h : IsRead lines stop tokens read closed) (hmem : line ∈ lines) :
    ∃ part, (line, part) ∈ read ∧ line.Yields part := by
  rw [← h.lines] at hmem
  obtain ⟨⟨_, part⟩, hpair, rfl⟩ := List.mem_map.1 hmem
  exact ⟨part, hpair, h.yields _ hpair⟩

theorem mem_cases (h : IsRead lines stop tokens read closed) (hmem : token ∈ tokens) :
    (∃ line ∈ lines, ∃ part, line.Yields part ∧ token ∈ part) ∨ token = dedentAt stop := by
  rw [h.tokens] at hmem
  rcases List.mem_append.1 hmem with hmem | hmem
  · obtain ⟨⟨line, part⟩, hpair, htoken⟩ := List.mem_flatMap.1 hmem
    exact .inl ⟨line, h.lines ▸ List.mem_map_of_mem hpair, part, h.yields _ hpair, htoken⟩
  · exact .inr (h.closed token hmem)

theorem exists_line (h : IsRead lines stop tokens read closed) (hmem : token ∈ tokens)
    (hword : token.kind.IsWordKind) : ∃ line ∈ lines, ∃ part, line.Yields part ∧ token ∈ part := by
  refine (h.mem_cases hmem).resolve_right fun hdedent => ?_
  rw [hdedent] at hword
  exact TokenKind.not_isWordKind (.inr (.inl rfl)) hword

theorem filter_closed (h : IsRead lines stop tokens read closed) (p : Token → Prop)
    [DecidablePred p] : closed.filter (fun token => token.kind.IsWordKind ∧ p token) = [] := by
  refine List.filter_eq_nil_iff.2 fun token hmem hword => ?_
  rw [h.closed token hmem, decide_eq_true_iff] at hword
  exact TokenKind.not_isWordKind (.inr (.inl rfl)) hword.1

theorem pairwise_number (h : IsRead lines stop tokens read closed)
    (hlines : lines.Pairwise fun a b => a.number < b.number) :
    read.Pairwise fun a b => a.1.number < b.1.number := by
  rw [← h.lines, List.pairwise_map] at hlines
  exact hlines

theorem pairwise (h : IsRead lines stop tokens read closed)
    (hlines : lines.Pairwise fun a b => a.number < b.number) :
    (tokens.filter (·.kind.IsWordKind)).Pairwise fun a b => a.stop ≤ b.start := by
  have hclosed : closed.filter (·.kind.IsWordKind) = [] := by
    simpa using h.filter_closed fun _ => True
  rw [h.tokens, List.filter_append, hclosed, List.append_nil, List.filter_flatMap,
    List.pairwise_flatMap]
  refine ⟨fun pair hpair => (h.yields pair hpair).pairwise, ?_⟩
  refine (h.pairwise_number hlines).imp_of_mem fun {a b} ha hb hlt first hfirst second hsecond => ?_
  obtain ⟨hfirst, hword⟩ := List.mem_filter.1 hfirst
  apply Location.le_of_line_lt
  rw [((h.yields a ha).text_eq hfirst (of_decide_eq_true hword)).1,
    (h.yields b hb).start_line (List.mem_filter.1 hsecond).1]
  exact hlt

/-- The tokens around the words of a line, which are all the words that stand on it. -/
theorem exists_words (h : IsRead lines stop tokens read closed)
    (hlines : lines.Pairwise fun a b => a.number < b.number) (hopen : OnlyLastOpen lines)
    (hmem : line ∈ lines) (hactive : ¬line.IsIdle) :
    ∃ before words after, tokens = before ++ words ++ after ∧
      words = tokens.filter (fun token => token.kind.IsWordKind ∧ token.start.line = line.number) ∧
      words ≠ [] ∧ (nextKind after = some .newline ↔ line.terminated = true) := by
  obtain ⟨part, hpair, hyields⟩ := h.exists_pair hmem
  obtain ⟨marks, words, rfl, hmarks, hne, hcut⟩ := hyields.exists_words hactive
  obtain ⟨above, below, rfl⟩ := List.append_of_mem hpair
  obtain ⟨-, hbelow, habove⟩ := List.pairwise_append.1 (h.pairwise_number hlines)
  -- The words of the other lines have other numbers.
  have hother : ∀ others : List (Line × List Token), (∀ pair ∈ others, pair.1.Yields pair.2) →
      (∀ pair ∈ others, pair.1.number ≠ line.number) → (others.flatMap Prod.snd).filter
        (fun token => token.kind.IsWordKind ∧ token.start.line = line.number) = [] := by
    intro others hothers hnumber
    refine List.filter_eq_nil_iff.2 fun token htoken hon => ?_
    obtain ⟨pair, hpair, htoken⟩ := List.mem_flatMap.1 htoken
    exact hnumber pair hpair
      (((hothers pair hpair).start_line htoken).symm.trans (of_decide_eq_true hon).2)
  have hline : (marks ++ words ++ lineEnd line line.text.length).filter
      (fun token => token.kind.IsWordKind ∧ token.start.line = line.number) = words := by
    refine (List.filter_congr fun token htoken => ?_).trans (Line.Yields.filter_words hmarks hcut)
    simp [hyields.start_line htoken]
  refine ⟨above.flatMap Prod.snd ++ marks, words,
    lineEnd line line.text.length ++ below.flatMap Prod.snd ++ closed, ?_, ?_, hne, ?_⟩
  · simp [h.tokens]
  · rw [h.tokens, List.flatMap_append, List.flatMap_cons, List.filter_append, List.filter_append,
      List.filter_append, hline, h.filter_closed, hother above, hother below]
    · simp
    · exact fun pair hpair => h.yields pair (by simp [hpair])
    · exact fun pair hpair => Nat.ne_of_gt ((List.pairwise_cons.1 hbelow).1 pair hpair)
    · exact fun pair hpair => h.yields pair (by simp [hpair])
    · exact fun pair hpair => Nat.ne_of_lt (habove pair hpair _ List.mem_cons_self)
  · by_cases hterminated : line.terminated = true
    · simp [lineEnd, hterminated, nextKind]
    · -- The line is the last one.
      have hlast : below = [] := by
        rw [← h.lines, List.map_append, List.map_cons] at hopen
        have hnot : ¬below.map Prod.fst ≠ [] := fun hne => hterminated (hopen.right.1 hne)
        simpa using hnot
      subst hlast
      have hclosed := h.closed
      cases closed with
      | nil => simp [lineEnd, hterminated, nextKind]
      | cons token closed =>
        simp [lineEnd, hterminated, nextKind, hclosed token List.mem_cons_self, dedentAt]

end IsRead

theorem AreLines.eq_of_number {text : List Char} (h : AreLines number text lines) {a b : Line}
    (ha : a ∈ lines) (hb : b ∈ lines) (heq : a.number = b.number) : a = b := by
  have hnodup : (lines.map Line.number).Nodup :=
    List.pairwise_map.2 (h.pairwise_number.imp fun hlt => Nat.ne_of_lt hlt)
  exact List.inj_on_of_nodup_map hnodup ha hb heq

/-- The tokens of a file without errors tell its text. -/
theorem lossless_of_lex {tokens : List Token} (h : lex source = .ok tokens) :
    Lossless source tokens := by
  have hstream : lexLines [0] (endOfLines (sourceLines source)) (sourceLines source) =
      ⟨tokens, none⟩ :=
    lex_eq_ok_iff.1 h
  have hlines := areLines_sourceLines source
  obtain ⟨read, closed, hread⟩ := exists_isRead_lexLines (congrArg Stream.error hstream)
  simp only [hstream] at hread
  refine ⟨fun token hmem hword => ?_, hread.pairwise hlines.pairwise_number, ?_, ?_,
    fun line hmem hactive => ?_⟩
  · obtain ⟨line, hline, part, hyields, hpart⟩ := hread.exists_line hmem hword
    exact ⟨line, hline, hyields.start_line hpart, hyields.text_eq hpart hword⟩
  · intro line hmem hactive column c hc
    obtain ⟨part, hpair, hyields⟩ := hread.exists_pair hmem
    obtain ⟨marks, words, rfl, -, -, hcut⟩ := hyields.exists_words hactive
    refine (hcut.covers hc).imp_right fun ⟨token, htoken, hstart, hstop⟩ => ?_
    rw [Nat.zero_add] at hstart hstop
    obtain ⟨_, _, -, hlongest, -⟩ := hcut.exists_place htoken
    have hpart : token ∈ marks ++ words ++ lineEnd line line.text.length := by simp [htoken]
    refine ⟨token, ?_, hlongest.word.isWordKind, hyields.start_line hpart, hstart, hstop⟩
    rw [hread.tokens]
    exact List.mem_append_left _ (List.mem_flatMap.2 ⟨_, hpair, hpart⟩)
  · intro line hmem hidle token htoken hnumber
    refine (hread.mem_cases htoken).resolve_left fun ⟨other, hother, part, hyields, hpart⟩ => ?_
    obtain rfl := hlines.eq_of_number hother hmem ((hyields.start_line hpart).symm.trans hnumber)
    rw [hyields.eq_nil hidle] at hpart
    cases hpart
  · exact hread.exists_words hlines.pairwise_number (onlyLastOpen_linesFrom _ _) hmem hactive

/-! ### A file with an error -/

/-- The lines above the first one with an error are fine: they lead to the levels that are open
before it, and are a file of their own, at whose end these levels are closed. -/
theorem exists_line_of_error (hlevels : Levels levels) {stop : Location}
    (h : (lexLines levels stop lines).error = some error) :
    ∃ above line below middle, lines = above ++ line :: below ∧
      (lexLine middle line).error = some error ∧
      Leads levels (lexLines levels stop lines).tokens middle ∧
      (∀ token ∈ (lexLines levels stop lines).tokens, ∃ other ∈ above,
        token.start.line = other.number) ∧
      ∀ last, lexLines levels last above =
        ⟨(lexLines levels stop lines).tokens ++ closeAll middle last, none⟩ := by
  induction lines generalizing levels with
  | nil => cases h
  | cons line lines ih =>
    rw [lexLines] at h ⊢
    cases herror : (lexLine levels line).error with
    | some first =>
      simp only [herror] at h ⊢
      exact ⟨[], line, lines, levels, rfl, herror.trans h, .nil levels, by simp, fun last => rfl⟩
    | none =>
      simp only [herror] at h ⊢
      obtain ⟨above, other, below, middle, rfl, hother, hleads, hplaces, habove⟩ :=
        ih (hlevels.lexLine line) h
      refine ⟨line :: above, other, below, middle, rfl, hother,
        (leads_lexLine hlevels line).append hleads, fun token hmem => ?_, fun last => ?_⟩
      · rcases List.mem_append.1 hmem with hmem | hmem
        · exact ⟨line, List.mem_cons_self, (yields_lexLine herror).start_line hmem⟩
        · obtain ⟨found, hfound, hnumber⟩ := hplaces token hmem
          exact ⟨found, List.mem_cons_of_mem _ hfound, hnumber⟩
      · rw [lexLines]
        simp only [herror, habove last, List.append_assoc]

/-- The text above a line ends where the line starts. -/
theorem endOfLines_above {above below : List Line}
    (h : sourceLines source = above ++ line :: below) : endOfLines above = ⟨line.number, 0⟩ := by
  have hlines := areLines_sourceLines source
  rw [h] at hlines
  obtain ⟨-, -, -, -, -, hnumber, -⟩ := hlines.exists_above
  rcases List.eq_nil_or_concat' above with rfl | ⟨before, last, rfl⟩
  · rw [hnumber]
    rfl
  · have hopen := onlyLastOpen_linesFrom 1 (Text.segments source)
    rw [← sourceLines, h] at hopen
    rw [List.append_assoc, List.singleton_append] at hlines hopen
    obtain ⟨-, -, -, -, -, hlast, -⟩ := hlines.exists_above
    have hterminated : last.terminated = true := hopen.right.1 (List.cons_ne_nil _ _)
    rw [List.length_append, List.length_singleton, ← Nat.add_assoc, ← hlast] at hnumber
    simp [endOfLines, hterminated, hnumber]

theorem lex_eq_error_iff : lex source = .error error ↔ (lexStream source).error = some error := by
  unfold lex
  cases herror : (lexStream source).error <;> simp [herror]

/-- The line is the first one with an error. The text above it is a file without errors: its tokens
lead to the levels with which the line is read, before the end of that file closes them. -/
structure IsFirstFault (source : List Char) (error : LexError) (first rest : List Char)
    (line : Line)
    (levels : List Nat) : Prop where
  split : source = first ++ rest
  starts : StartsLine first
  getElem : (sourceLines source)[first.count '\n']? = some line
  number : line.number = first.count '\n' + 1
  stream : lexStream first = ⟨(lexStream source).tokens ++ closeAll levels ⟨line.number, 0⟩, none⟩
  leads : Leads [0] (lexStream source).tokens levels
  above : ∀ token ∈ (lexStream source).tokens, token.start.line < line.number
  fault : (lexLine levels line).error = some error

theorem exists_isFirstFault (h : lex source = .error error) :
    ∃ first rest line levels, IsFirstFault source error first rest line levels := by
  obtain ⟨above, line, below, levels, hsplit, herror, hleads, hplaces, habove⟩ :=
    exists_line_of_error Levels.zero (lex_eq_error_iff.1 h)
  have hlines := areLines_sourceLines source
  rw [hsplit] at hlines
  obtain ⟨first, rest, hsource, hstarts, hcount, hnumber, hfirst⟩ := hlines.exists_above
  refine ⟨first, rest, line, levels, hsource, hstarts, ?_, by omega, ?_, hleads,
    fun token hmem => ?_, herror⟩
  · rw [hsplit, hcount, List.getElem?_append_right (Nat.le_refl _), Nat.sub_self,
      List.getElem?_cons_zero]
  · rw [lexStream, ← show above = sourceLines first from hfirst.eq_linesFrom,
      ← endOfLines_above hsplit]
    exact habove _
  · obtain ⟨other, hother, hstart⟩ := hplaces token hmem
    rw [hstart]
    exact (List.pairwise_append.1 hlines.pairwise_number).2.2 other hother line List.mem_cons_self

/-- The tokens above the line are those of the file above it that start on one of its lines. The
others are the dedents at the end. -/
theorem IsFirstFault.exists_lex {first rest : List Char}
    (h : IsFirstFault source error first rest line levels) :
    ∃ tokens, lex first = .ok tokens ∧
      tokens.filter (·.start.line < line.number) = (lexStream source).tokens := by
  refine ⟨_, lex_eq_ok_iff.2 h.stream, ?_⟩
  have habove : (lexStream source).tokens.filter (·.start.line < line.number) =
      (lexStream source).tokens :=
    List.filter_eq_self.2 fun token hmem => decide_eq_true (h.above token hmem)
  have hclosed : (closeAll levels ⟨line.number, 0⟩).filter (·.start.line < line.number) = [] := by
    refine List.filter_eq_nil_iff.2 fun token hmem => ?_
    obtain ⟨_, -, rfl⟩ := List.mem_map.1 hmem
    simp [dedentAt]
  rw [List.filter_append, habove, hclosed, List.append_nil]

/-- The file is refused for the first of its lines that has an error. The text above that line is a
file without errors, whose tokens lead to `levels` up to the dedents at its end, and the line falls
between these levels or breaks off. -/
def FailsAt (source : List Char) (error : LexError) : Prop :=
  ∃ first rest tokens levels, ∃ line : Line, source = first ++ rest ∧ StartsLine first ∧
    (sourceLines source)[first.count '\n']? = some line ∧ line.number = first.count '\n' + 1 ∧
    error.location.line = line.number ∧ lex first = .ok tokens ∧
    Leads [0] (tokens.filter (·.start.line < line.number)) levels ∧ ¬line.IsIdle ∧
    (line.FallsBetween levels error ∨ line.BreaksOff error)

/-- A file is refused for its first line with an error. -/
theorem failsAt_of_lex (h : lex source = .error error) : FailsAt source error := by
  obtain ⟨first, rest, line, levels, hfault⟩ := exists_isFirstFault h
  obtain ⟨tokens, hlex, habove⟩ := hfault.exists_lex
  obtain ⟨hactive, hline, hfails⟩ := lexLine_error (hfault.leads.levels Levels.zero) hfault.fault
  exact ⟨first, rest, tokens, levels, line, hfault.split, hfault.starts, hfault.getElem,
    hfault.number, hline, hlex, habove.symm ▸ hfault.leads, hactive, hfails⟩

/-! ### All files -/

/-- The lines that are read are those of the text. The tokens of a file without errors tell its
text, and a file with an error is refused for the first line that falls between levels or breaks
off, where it does so. -/
theorem lex_exact (source : List Char) :
    AreLines 1 source (sourceLines source) ∧
    (∀ tokens, lex source = .ok tokens → Lossless source tokens) ∧
      ∀ error, lex source = .error error → FailsAt source error :=
  ⟨areLines_sourceLines source, fun _ h => lossless_of_lex h, fun _ h => failsAt_of_lex h⟩

/-- A file with a comment, a hash inside a string, blanks and carriage returns at the end of a line,
and a last line that is open; a file with a line that falls between two levels, and a file with a
line that breaks off. -/
theorem lex_exact_threeFiles :
    let fine := "# a\nfoo\n  bar <= \"é #\" \t\r\r\n\n  b=1".toList
    let uneven := "foo\n    a = 1\n  b = 2\n".toList
    let broken := "foo\n\ta = 1\n\tb <! 2".toList
    (∃ tokens, lex fine = .ok tokens ∧ Lossless fine tokens) ∧
      (lex uneven = .error ⟨.unmatchedLevel, ⟨3, 2⟩⟩ ∧ FailsAt uneven ⟨.unmatchedLevel, ⟨3, 2⟩⟩) ∧
      lex broken = .error ⟨.noWord, ⟨3, 4⟩⟩ ∧ FailsAt broken ⟨.noWord, ⟨3, 4⟩⟩ := by
  intro fine uneven broken
  have hfine : lex fine = .ok (lexStream fine).tokens := by
    rw [lex_eq_ok_iff, ← show (lexStream fine).error = none by decide +kernel]
  have huneven : lex uneven = .error ⟨.unmatchedLevel, ⟨3, 2⟩⟩ :=
    lex_eq_error_iff.2 (by decide +kernel)
  have hbroken : lex broken = .error ⟨.noWord, ⟨3, 4⟩⟩ := lex_eq_error_iff.2 (by decide +kernel)
  exact ⟨⟨_, hfine, (lex_exact fine).2.1 _ hfine⟩,
    ⟨huneven, (lex_exact uneven).2.2 _ huneven⟩, hbroken, (lex_exact broken).2.2 _ hbroken⟩

end PythonLint.Ignore
