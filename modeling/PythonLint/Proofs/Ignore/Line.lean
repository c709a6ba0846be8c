import PythonLint.Proofs.Ignore.Word
import PythonLint.Proofs.Lines

/-!
# Lines of an ignore file

What the lexer makes of a line: the marks of blocks for its margin, then its words, then a newline
when the line is terminated. From this two facts about the tokens of a whole file follow. Every word
is spelled as its kind demands, and every indent is followed by a word, so that no block is empty.

Main statements: `map_text_sourceLines_flatMap`, `map_text_sourceLines_unlines`, `lexLine_eq`,
`spelled_lexStream`, `indentsOpen_lexStream`, `lex_eq_ok_iff`.
-/

namespace PythonLint.Ignore

variable {line : Line} {levels : List Nat} {tokens : List Token}

/-- The words among tokens are spelled as their kinds demand. -/
def Spelled (tokens : List Token) : Prop :=
  ∀ token ∈ tokens, token.kind.IsWordKind → IsWord token.kind token.lexeme.toList

/-- Every indent among tokens is followed by a word. -/
def IndentsOpen (tokens : List Token) : Prop :=
  ∀ before token after, tokens = before ++ token :: after → token.kind = .indent →
    ∃ word rest, after = word :: rest ∧ word.kind.IsWordKind

theorem Spelled.append {a b : List Token} (ha : Spelled a) (hb : Spelled b) : Spelled (a ++ b) := by
  intro token hmem
  rcases List.mem_append.1 hmem with h | h
  · exact ha token h
  · exact hb token h

theorem IndentsOpen.append {a b : List Token} (ha : IndentsOpen a) (hb : IndentsOpen b) :
    IndentsOpen (a ++ b) := by
  intro before token after heq hkind
  rcases List.append_eq_append_iff.1 heq with ⟨gap, rfl, hb'⟩ | ⟨gap, rfl, hafter⟩
  · exact hb gap token after hb' hkind
  · cases gap with
    | nil => exact hb [] token after (by simpa using hafter.symm) hkind
    | cons first gap =>
      rw [List.cons_append, List.cons.injEq] at hafter
      obtain ⟨rfl, rfl⟩ := hafter
      obtain ⟨word, rest, rfl, hword⟩ := ha before token gap rfl hkind
      exact ⟨word, rest ++ b, rfl, hword⟩

theorem spelled_of_forall_not (h : ∀ token ∈ tokens, ¬token.kind.IsWordKind) : Spelled tokens :=
  fun token hmem hkind => absurd hkind (h token hmem)

theorem indentsOpen_of_forall_ne (h : ∀ token ∈ tokens, token.kind ≠ .indent) :
    IndentsOpen tokens := by
  rintro before token after rfl hkind
  exact absurd hkind (h token (by simp))

/-! ### Cutting a text into lines -/

/-- All lines but the last one are terminated. -/
def OnlyLastOpen : List Line → Prop
  | [] => True
  | line :: rest => (rest ≠ [] → line.terminated = true) ∧ OnlyLastOpen rest

theorem OnlyLastOpen.right {a b : List Line} (h : OnlyLastOpen (a ++ b)) : OnlyLastOpen b := by
  induction a with
  | nil => exact h
  | cons line a ih => exact ih h.2

theorem onlyLastOpen_linesFrom (number : Nat) (pieces : List (List Char)) :
    OnlyLastOpen (linesFrom number pieces) := by
  fun_induction linesFrom number pieces with
  | case1 number => trivial
  | case2 number last hempty => trivial
  | case3 number last hempty => exact ⟨fun hne => absurd rfl hne, trivial⟩
  | case4 number piece rest hlast ih => exact ⟨fun _ => rfl, ih⟩

/-- A line that is kept as it is written: it has characters, no line feed among them and no carriage
return at their end. -/
structure IsPlainLine (line : List Char) : Prop where
  ne_nil : line ≠ []
  lineFeed_not_mem : '\n' ∉ line
  last_ne_return : line.getLast? ≠ some '\r'

theorem IsPlainLine.dropEndWhile_eq {line : List Char} (h : IsPlainLine line) :
    Text.dropEndWhile (· == '\r') line = line := by
  have hlast := h.last_ne_return
  rw [← List.head?_reverse] at hlast
  unfold Text.dropEndWhile
  cases hreverse : line.reverse with
  | nil => rw [List.reverse_eq_nil_iff.1 hreverse]; rfl
  | cons c rest =>
    rw [hreverse, List.head?_cons, ne_eq, Option.some.injEq] at hlast
    rw [List.dropWhile_cons_of_neg (by simpa using hlast), ← hreverse, List.reverse_reverse]

/-- A plain line before a line feed is the first line of a text. -/
theorem linesFrom_segments_lineFeed {line : List Char} (h : IsPlainLine line) (number : Nat)
    (rest : List Char) :
    linesFrom number (Text.segments (line ++ '\n' :: rest)) =
      ⟨number, line, true⟩ :: linesFrom (number + 1) (Text.segments rest) := by
  rw [Text.segments_lineFeed h.lineFeed_not_mem]
  obtain ⟨first, others, hsegments⟩ := List.exists_cons_of_ne_nil (Text.segments_ne_nil rest)
  rw [hsegments, linesFrom, h.dropEndWhile_eq]
  simp

/-- The lines of a text that is made of plain lines, each of them ended by a line feed. -/
theorem map_text_sourceLines_flatMap {lines : List (List Char)}
    (h : ∀ line ∈ lines, IsPlainLine line) :
    (sourceLines (lines.flatMap (· ++ ['\n']))).map Line.text = lines := by
  unfold sourceLines
  generalize 1 = number
  induction lines generalizing number with
  | nil => rfl
  | cons line lines ih =>
    obtain ⟨hline, hlines⟩ := List.forall_mem_cons.1 h
    rw [List.flatMap_cons, List.append_assoc, List.singleton_append,
      linesFrom_segments_lineFeed hline, List.map_cons, ih hlines]

/-- The lines of a text that is made of plain lines with line feeds between them. -/
theorem map_text_sourceLines_unlines {lines : List (List Char)}
    (h : ∀ line ∈ lines, IsPlainLine line) :
    (sourceLines (Text.unlines lines)).map Line.text = lines := by
  unfold sourceLines
  generalize 1 = number
  induction lines generalizing number with
  | nil => rfl
  | cons line lines ih =>
    obtain ⟨hline, hlines⟩ := List.forall_mem_cons.1 h
    cases lines with
    | nil =>
      rw [Text.unlines, Text.segments_of_not_mem hline.lineFeed_not_mem, linesFrom, if_neg,
        List.map_cons, hline.dropEndWhile_eq, List.map_nil]
      simpa using hline.ne_nil
    | cons next lines =>
      rw [Text.unlines, linesFrom_segments_lineFeed hline, List.map_cons, ih hlines]
      simp

/-! ### One line -/

theorem lexMargin_tokens (levels : List Nat) (number : Nat) (margin : List Char) :
    (∃ token, (lexMargin levels number margin).tokens = [token] ∧ token.kind = .indent) ∨
      ∀ token ∈ (lexMargin levels number margin).tokens, token.kind = .dedent := by
  unfold lexMargin
  simp only
  split
  · exact .inl ⟨_, rfl, rfl⟩
  · refine .inr fun token hmem => ?_
    obtain ⟨_, -, rfl⟩ := List.mem_map.1 hmem
    rfl

/-- A line that counts goes on with something else than a blank after its margin. -/
theorem exists_of_not_isSkipped (h : isSkipped line = false) :
    ∃ c rest, line.text.dropWhile isGap = c :: rest ∧ isGap c = false ∧ c ≠ '#' := by
  unfold isSkipped at h
  have hhead := List.head?_dropWhile_not isGap line.text
  cases hdrop : line.text.dropWhile isGap with
  | nil =>
    rw [hdrop] at h
    cases h
  | cons c rest =>
    rw [hdrop] at h hhead
    exact ⟨c, rest, rfl, by simpa using hhead, by simpa using h⟩

/-- The tokens of a line that counts and has no error: those of its margin, at least one word, and
the end of the line. -/
theorem lexLine_eq (hskip : isSkipped line = false) (h : (lexLine levels line).error = none) :
    ∃ words column, words ≠ [] ∧ (∀ token ∈ words, IsWord token.kind token.lexeme.toList) ∧
      (lexLine levels line).tokens =
        (lexMargin levels line.number (line.text.takeWhile isGap)).tokens ++ words ++
          lineEnd line column := by
  obtain ⟨c, rest, hdrop, hc, -⟩ := exists_of_not_isSkipped hskip
  unfold lexLine at h ⊢
  simp only [hskip, Bool.false_eq_true, if_false, hdrop] at h ⊢
  split at h
  · next hsome =>
    rw [h] at hsome
    cases hsome
  · next hblock =>
    rw [if_neg hblock]
    cases hwords : (lexWords line.number (line.text.takeWhile isGap).length (c :: rest)).error with
    | some error =>
      rw [hwords] at h
      cases h
    | none =>
      exact ⟨_, (lexWords line.number (line.text.takeWhile isGap).length (c :: rest)).column,
        lexWords_tokens_ne_nil _ _ hc hwords, lexWords_isWord _ _ _, rfl⟩

/-- A line that is written as a margin and a text that starts with a word. -/
theorem lexLine_of_words {after : List Nat} {margin rest : List Char} {c : Char}
    {marks words : List Token} {column : Nat} (htext : line.text = margin ++ c :: rest)
    (hmargin : ∀ d ∈ margin, isGap d = true) (hgap : isGap c = false) (hcomment : c ≠ '#')
    (hmarks : lexMargin levels line.number margin = ⟨marks, after, none⟩)
    (hwords : lexWords line.number margin.length (c :: rest) = ⟨words, column, none⟩) :
    lexLine levels line = ⟨marks ++ words ++ lineEnd line column, after, none⟩ := by
  have htake : line.text.takeWhile isGap = margin := by
    rw [htext, List.takeWhile_append_of_pos hmargin, List.takeWhile_cons_of_neg (by simp [hgap]),
      List.append_nil]
  have hdrop : line.text.dropWhile isGap = c :: rest := by
    rw [htext, List.dropWhile_append_of_pos hmargin, List.dropWhile_cons_of_neg (by simp [hgap])]
  have hskip : isSkipped line = false := by
    rw [isSkipped, hdrop]
    simpa using hcomment
  simp only [lexLine, hskip, Bool.false_eq_true, if_false, htake, hdrop, hmarks, hwords,
    Option.isSome_none]

theorem kind_of_mem_lineEnd {column : Nat} {token : Token} (h : token ∈ lineEnd line column) :
    token.kind = .newline := by
  unfold lineEnd at h
  split at h
  · rw [List.mem_singleton.1 h]
  · cases h

/-- The words of a line are spelled as their kinds demand. -/
theorem spelled_lexLine (h : (lexLine levels line).error = none) :
    Spelled (lexLine levels line).tokens := by
  cases hskip : isSkipped line with
  | true =>
    rw [lexLine, if_pos hskip]
    intro token hmem
    cases hmem
  | false =>
    obtain ⟨words, column, -, hwords, htokens⟩ := lexLine_eq hskip h
    rw [htokens]
    refine Spelled.append (Spelled.append ?_ fun token hmem _ => hwords token hmem) ?_
    · refine spelled_of_forall_not fun token hmem => ?_
      rcases lexMargin_tokens levels line.number (line.text.takeWhile isGap) with
        ⟨indent, hindent, hkind⟩ | hdedent
      · rw [hindent, List.mem_singleton] at hmem
        rw [hmem, hkind]
        decide
      · rw [hdedent token hmem]
        decide
    · refine spelled_of_forall_not fun token hmem => ?_
      rw [kind_of_mem_lineEnd hmem]
      decide

/-- An indent is followed by the first word of its line. -/
theorem indentsOpen_lexLine (h : (lexLine levels line).error = none) :
    IndentsOpen (lexLine levels line).tokens := by
  cases hskip : isSkipped line with
  | true =>
    rw [lexLine, if_pos hskip]
    exact indentsOpen_of_forall_ne fun token hmem => by cases hmem
  | false =>
    obtain ⟨words, column, hne, hwords, htokens⟩ := lexLine_eq hskip h
    have hwordsOpen : IndentsOpen words := by
      refine indentsOpen_of_forall_ne fun token hmem hkind => ?_
      have hword := (hwords token hmem).isWordKind
      rw [hkind] at hword
      exact absurd hword (by decide)
    have hendOpen : IndentsOpen (lineEnd line column) := by
      refine indentsOpen_of_forall_ne fun token hmem hkind => ?_
      rw [kind_of_mem_lineEnd hmem] at hkind
      cases hkind
    rw [htokens]
    refine IndentsOpen.append ?_ hendOpen
    rcases lexMargin_tokens levels line.number (line.text.takeWhile isGap) with
      ⟨indent, hindent, -⟩ | hdedent
    · obtain ⟨first, others, rfl⟩ := List.exists_cons_of_ne_nil hne
      rw [hindent]
      intro before token after heq hkind
      cases before with
      | nil =>
        rw [List.singleton_append, List.nil_append, List.cons.injEq] at heq
        exact ⟨first, others, heq.2.symm, (hwords first List.mem_cons_self).isWordKind⟩
      | cons other before =>
        rw [List.singleton_append, List.cons_append, List.cons.injEq] at heq
        exact hwordsOpen before token after heq.2 hkind
    · refine IndentsOpen.append (indentsOpen_of_forall_ne fun token hmem hkind => ?_) hwordsOpen
      rw [hdedent token hmem] at hkind
      cases hkind

/-! ### All lines -/

theorem kind_of_mem_closeAll {stop : Location} {token : Token} (h : token ∈ closeAll levels stop) :
    token.kind = .dedent := by
  obtain ⟨_, -, rfl⟩ := List.mem_map.1 h
  rfl

/-- A property of tokens that closing blocks has and that lines add to is one of the tokens of
lines, up to the first error. -/
theorem lexLines_induction {P : List Token → Prop}
    (hclose : ∀ levels stop, P (closeAll levels stop))
    (hline : ∀ levels line, (lexLine levels line).error = none → ∀ others, P others →
      P ((lexLine levels line).tokens ++ others))
    (levels : List Nat) (stop : Location) (lines : List Line) :
    P (lexLines levels stop lines).tokens := by
  induction lines generalizing levels with
  | nil => exact hclose levels stop
  | cons line lines ih =>
    rw [lexLines]
    cases herror : (lexLine levels line).error with
    | some error => exact hclose [] stop
    | none => exact hline levels line herror _ (ih _)

/-- The words of a file are spelled as their kinds demand. -/
theorem spelled_lexStream (source : List Char) : Spelled (lexStream source).tokens := by
  refine lexLines_induction ?_ ?_ _ _ _
  · intro levels stop
    refine spelled_of_forall_not fun token hmem => ?_
    rw [kind_of_mem_closeAll hmem]
    decide
  · intro levels line herror others hothers
    exact (spelled_lexLine herror).append hothers

/-- The indents of a file are followed by words. -/
theorem indentsOpen_lexStream (source : List Char) : IndentsOpen (lexStream source).tokens := by
  refine lexLines_induction ?_ ?_ _ _ _
  · intro levels stop
    refine indentsOpen_of_forall_ne fun token hmem hkind => ?_
    rw [kind_of_mem_closeAll hmem] at hkind
    cases hkind
  · intro levels line herror others hothers
    exact (indentsOpen_lexLine herror).append hothers

/-- A file has a list of all its tokens when no line has an error. -/
theorem lex_eq_ok_iff {source : List Char} :
    lex source = .ok tokens ↔ lexStream source = ⟨tokens, none⟩ := by
  unfold lex
  generalize lexStream source = stream
  obtain ⟨found, error⟩ := stream
  cases error with
  | none => simp
  | some error => simp

end PythonLint.Ignore
