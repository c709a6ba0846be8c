import PythonLint.Proofs.Ignore.Exactness
import PythonLint.Proofs.Ignore.RoundTrip

/-!
# The layout of an ignore file

Blank lines and comments, blanks at the end of a line and carriage returns before a line feed do not
count: a file says the same with them and without. What is said is a file without its locations.
Blanks at the end of a line leave its words as they are, and an idle line leaves the open levels as
they are, so that the tokens say the same, line by line. The grammar asks only for what tokens say,
so that their trees say the same as well.

Main statements: `content_lexWords`, `content_lexLine`, `LinesRelaid.content_lexLines`,
`IsDerivation.exists_of_content`, `parse_relaid`.
-/

namespace PythonLint.Ignore

variable {line line' : Line} {blanks text : List Char}

/-! ### Tokens without locations -/

/-- What a token says, without its location. -/
def Token.content (token : Token) : TokenKind × String :=
  (token.kind, token.lexeme)

def Words.content (words : Words) : List (TokenKind × String) × Option LexFault :=
  (words.tokens.map Token.content, words.error.map LexError.fault)

def Piece.content (piece : Piece) : List (TokenKind × String) × List Nat × Option LexFault :=
  (piece.tokens.map Token.content, piece.levels, piece.error.map LexError.fault)

def Stream.content (stream : Stream) : List (TokenKind × String) × Option LexFault :=
  (stream.tokens.map Token.content, stream.error.map LexError.fault)

/-! ### Blanks at the end of a line -/

section Blanks

variable {blanks : List Char}

theorem takeWhile_append_gaps {p : Char → Bool} (hp : ∀ c, isGap c = true → p c = false)
    (hblanks : ∀ c ∈ blanks, isGap c = true) (text : List Char) :
    (text ++ blanks).takeWhile p = text.takeWhile p := by
  have hnone : blanks.takeWhile p = [] := by
    cases blanks with
    | nil => rfl
    | cons c blanks =>
      rw [List.takeWhile_cons_of_neg (by simp [hp c (hblanks c List.mem_cons_self)])]
  rw [List.takeWhile_append, hnone, List.append_nil]
  split
  · next hall => exact ((List.takeWhile_prefix p).eq_of_length hall).symm
  · rfl

/-- Blanks at the end of a line are not part of its last word. -/
theorem wordAt_append_gaps (hblanks : ∀ c ∈ blanks, isGap c = true) (c : Char) (rest : List Char) :
    wordAt (c :: rest ++ blanks) = wordAt (c :: rest) := by
  have hgap : ∀ d, isGap d = true → d = ' ' ∨ d = '\t' := fun d hd => by simpa [isGap] using hd
  have hname : (rest ++ blanks).takeWhile isNameChar = rest.takeWhile isNameChar :=
    takeWhile_append_gaps (fun d hd => by rcases hgap d hd with rfl | rfl <;> rfl) hblanks rest
  have hdigits : (rest ++ blanks).takeWhile Char.isDigit = rest.takeWhile Char.isDigit :=
    takeWhile_append_gaps (fun d hd => by rcases hgap d hd with rfl | rfl <;> rfl) hblanks rest
  have hequals : (rest ++ blanks).head? = some '=' ↔ rest.head? = some '=' := by
    cases rest with
    | nil =>
      constructor
      · intro h
        exact absurd (hblanks '=' (List.mem_of_mem_head? h)) (by decide)
      · intro h
        cases h
    | cons d rest => rfl
  by_cases hquote : '"' ∈ rest
  · -- The closing quote stands before the blanks.
    obtain ⟨content, others, rfl, hcontent⟩ := List.eq_append_cons_of_mem hquote
    have htake (more : List Char) : (content ++ '"' :: more).takeWhile (· ≠ '"') = content := by
      rw [List.takeWhile_append_of_pos, List.takeWhile_cons_of_neg (by simp), List.append_nil]
      intro d hd
      simp only [ne_eq, decide_eq_true_eq]
      rintro rfl
      exact hcontent hd
    have happend : content ++ '"' :: others ++ blanks =
      content ++ '"' :: (others ++ blanks) := by simp
    simp only [List.cons_append, wordAt, hname, hdigits, hequals]
    rw [happend, htake, htake]
    simp
  · -- There is no closing quote, with the blanks and without.
    have hall (more : List Char) (hmore : '"' ∉ more) : more.takeWhile (· ≠ '"') = more := by
      refine List.takeWhile_eq_self_iff.2 fun d hd => ?_
      simp only [ne_eq, decide_eq_true_eq]
      rintro rfl
      exact hmore hd
    have hnone : '"' ∉ rest ++ blanks := by
      intro hmem
      rcases List.mem_append.1 hmem with hmem | hmem
      · exact hquote hmem
      · exact absurd (hblanks '"' hmem) (by decide)
    simp only [List.cons_append, wordAt, hname, hdigits, hequals, hall _ hnone, hall _ hquote,
      Nat.lt_irrefl, if_false]

theorem lexWords_gaps (hblanks : ∀ c ∈ blanks, isGap c = true) (number column : Nat) :
    (lexWords number column blanks).content = ([], none) := by
  induction blanks generalizing column with
  | nil =>
    rw [lexWords_nil]
    rfl
  | cons c blanks ih =>
    obtain ⟨hc, hblanks⟩ := List.forall_mem_cons.1 hblanks
    rw [lexWords_gap _ _ hc]
    exact ih hblanks _

/-- The words of a text say the same wherever it stands and with blanks at its end. -/
theorem content_lexWords (hblanks : ∀ c ∈ blanks, isGap c = true)
    (number number' column column' : Nat) (text : List Char) :
    (lexWords number' column' (text ++ blanks)).content =
      (lexWords number column text).content := by
  fun_induction lexWords number column text generalizing column' with
  | case1 column => exact lexWords_gaps hblanks number' column'
  | case2 column c rest hgap ih =>
    rw [List.cons_append, lexWords_gap _ _ hgap]
    exact ih _
  | case3 column c rest hgap hword =>
    have hother : wordAt (c :: (rest ++ blanks)) = none :=
      (wordAt_append_gaps hblanks c rest).trans hword
    rw [List.cons_append, lexWords, if_neg hgap, hother]
    rfl
  | case4 column c rest hgap kind lexeme hword stop others ih =>
    have hother : wordAt (c :: (rest ++ blanks)) = some (kind, lexeme) :=
      (wordAt_append_gaps hblanks c rest).trans hword
    have hdrop : (rest ++ blanks).drop (lexeme.length - 1) =
        rest.drop (lexeme.length - 1) ++ blanks := by
      obtain ⟨-, tail, htail⟩ := wordAt_eq_some hword
      have hlength := congrArg List.length htail
      rw [List.length_cons, List.length_append] at hlength
      exact List.drop_append_of_le_length (by omega)
    have hrest := ih (column' + lexeme.length)
    rw [List.cons_append, lexWords, if_neg hgap, hother]
    simp only [Words.content, List.map_cons, hdrop, Prod.mk.injEq] at hrest ⊢
    exact ⟨congrArg _ hrest.1, hrest.2⟩

theorem content_lexMargin (levels : List Nat) (number number' : Nat) (margin : List Char) :
    (lexMargin levels number' margin).content = (lexMargin levels number margin).content := by
  unfold lexMargin
  simp only
  split
  · rfl
  · simp only [Piece.content, List.map_map, Prod.mk.injEq, true_and]
    refine ⟨rfl, ?_⟩
    split <;> rfl

theorem content_lineEnd (h : line'.terminated = line.terminated) (column column' : Nat) :
    (lineEnd line' column').map Token.content = (lineEnd line column).map Token.content := by
  rw [lineEnd, lineEnd, h]
  split <;> rfl

end Blanks

/-! ### Lines -/

theorem isSkipped_append_gaps (hblanks : ∀ c ∈ blanks, isGap c = true)
    (htext : line'.text = line.text ++ blanks) (hskip : isSkipped line = true) :
    isSkipped line' = true := by
  rw [isSkipped_iff] at hskip ⊢
  rcases hskip with hgaps | ⟨margin, rest, hcomment, hmargin⟩
  · refine .inl fun c hc => ?_
    rw [htext] at hc
    exact (List.mem_append.1 hc).elim (hgaps c) (hblanks c)
  · exact .inr ⟨margin, rest ++ blanks, by simp [htext, hcomment], hmargin⟩

/-- A line says the same wherever it stands and with blanks at its end. -/
theorem content_lexLine (levels : List Nat) (hblanks : ∀ c ∈ blanks, isGap c = true)
    (htext : line'.text = line.text ++ blanks) (hterminated : line'.terminated = line.terminated) :
    (lexLine levels line').content = (lexLine levels line).content := by
  cases hskip : isSkipped line with
  | true => simp [lexLine, hskip, isSkipped_append_gaps hblanks htext hskip]
  | false =>
    obtain ⟨c, rest, hdrop, hc, hcomment⟩ := exists_of_not_isSkipped hskip
    have hmargin : ∀ d ∈ line.text.takeWhile isGap, isGap d = true :=
      fun d hd => List.mem_takeWhile_imp hd
    have hline : line'.text = line.text.takeWhile isGap ++ c :: (rest ++ blanks) := by
      rw [htext, ← List.cons_append, ← hdrop, ← List.append_assoc, List.takeWhile_append_dropWhile]
    have htake : line'.text.takeWhile isGap = line.text.takeWhile isGap := by
      rw [hline, List.takeWhile_append_of_pos hmargin, List.takeWhile_cons_of_neg (by simp [hc]),
        List.append_nil]
    have hdrop' : line'.text.dropWhile isGap = c :: rest ++ blanks := by
      rw [hline, List.dropWhile_append_of_pos hmargin, List.dropWhile_cons_of_neg (by simp [hc])]
      rfl
    have hskip' : isSkipped line' = false := by simp [isSkipped, hdrop', hcomment]
    have hblock := content_lexMargin levels line.number line'.number (line.text.takeWhile isGap)
    have hwords :=
      content_lexWords hblanks line.number line'.number (line.text.takeWhile isGap).length
      (line.text.takeWhile isGap).length (c :: rest)
    simp only [lexLine, hskip, hskip', Bool.false_eq_true, if_false, htake, hdrop, hdrop']
    generalize lexMargin levels line.number (line.text.takeWhile isGap) = block at hblock ⊢
    generalize lexMargin levels line'.number (line.text.takeWhile isGap) = block' at hblock ⊢
    generalize lexWords line.number (line.text.takeWhile isGap).length (c :: rest) =
      words at hwords ⊢
    generalize lexWords line'.number (line.text.takeWhile isGap).length (c :: rest ++ blanks) =
      words' at hwords ⊢
    have hends := content_lineEnd hterminated words.column words'.column
    obtain ⟨hmarks, hlevels, hfault⟩ : _ ∧ _ ∧ _ := by
      simpa only [Piece.content, Prod.mk.injEq] using hblock
    obtain ⟨htokens, herror⟩ : _ ∧ _ := by simpa only [Words.content, Prod.mk.injEq] using hwords
    have hsome : block'.error.isSome = block.error.isSome := by
      simpa using congrArg Option.isSome hfault
    rw [hsome]
    split
    · exact hblock
    · cases hfound : words.error with
      | some error =>
        rw [hfound] at herror
        obtain ⟨error', hfound', hsame⟩ := Option.map_eq_some_iff.1 herror
        simp [hfound', hsame, Piece.content, hmarks, hlevels, htokens]
      | none =>
        rw [hfound] at herror
        simp [Option.map_eq_none_iff.1 herror, Piece.content, hmarks, hlevels, htokens, hends]

/-- Lines with another layout: idle lines between them, and blanks at their ends. -/
inductive LinesRelaid : List Line → List Line → Prop
  | nil : LinesRelaid [] []
  | line {line line' : Line} {blanks : List Char} {lines lines' : List Line}
      (hblanks : ∀ c ∈ blanks, isGap c = true) (htext : line'.text = line.text ++ blanks)
      (hterminated : line'.terminated = line.terminated) (h : LinesRelaid lines lines') :
      LinesRelaid (line :: lines) (line' :: lines')
  | idle {line' : Line} {lines lines' : List Line} (hidle : line'.IsIdle)
      (h : LinesRelaid lines lines') : LinesRelaid lines (line' :: lines')

/-- Lines say the same with another layout. -/
theorem LinesRelaid.content_lexLines {lines lines' : List Line} (h : LinesRelaid lines lines')
    (levels : List Nat) (stop stop' : Location) :
    (lexLines levels stop' lines').content = (lexLines levels stop lines).content := by
  induction h generalizing levels with
  | nil => simp [lexLines, closeAll, Stream.content, Token.content, dedentAt]
  | @line line line' blanks lines lines' hblanks htext hterminated _ ih =>
    obtain ⟨htokens, hlevels, herror⟩ : _ ∧ _ ∧ _ := by
      simpa only [Piece.content, Prod.mk.injEq] using content_lexLine levels hblanks htext
        hterminated
    rw [lexLines, lexLines]
    cases hfound : (lexLine levels line).error with
    | some error =>
      rw [hfound] at herror
      obtain ⟨error', hfound', hsame⟩ := Option.map_eq_some_iff.1 herror
      simp [hfound', Stream.content, hsame]
    | none =>
      rw [hfound] at herror
      have hrest := ih (lexLine levels line).levels
      simp only [Stream.content, Prod.mk.injEq] at hrest
      simp [Option.map_eq_none_iff.1 herror, Stream.content, htokens, hlevels, hrest]
  | @idle line' lines lines' hidle _ ih =>
    rw [lexLines, lexLine, if_pos (isSkipped_iff.2 hidle)]
    exact ih levels

/-! ### Texts -/

/-- The text of a line is made of blanks, or of blanks and a comment. -/
def IsIdleText (text : List Char) : Prop :=
  (∀ c ∈ text, isGap c = true) ∨
    ∃ margin rest, text = margin ++ '#' :: rest ∧ ∀ c ∈ margin, isGap c = true

/-- The second text is the first one with another layout: with idle lines before its lines or after
them, with blanks at the ends of its lines, and with carriage returns before its line feeds. -/
inductive Relaid : List Char → List Char → Prop
  | last {line blanks : List Char} (hfeed : '\n' ∉ line) (hblanks : ∀ c ∈ blanks, isGap c = true) :
      Relaid line (line ++ blanks)
  | line {line blanks rest text : List Char} (hfeed : '\n' ∉ line)
      (hblanks : ∀ c ∈ blanks, isGap c = true) (returns : Nat) (h : Relaid rest text) :
      Relaid (line ++ '\n' :: rest) (line ++ blanks ++ List.replicate returns '\r' ++ '\n' :: text)
  | idle {idle source text : List Char} (hfeed : '\n' ∉ idle) (hidle : IsIdleText idle)
      (returns : Nat) (h : Relaid source text) :
      Relaid source (idle ++ List.replicate returns '\r' ++ '\n' :: text)

theorem return_not_mem_of_gaps (h : ∀ c ∈ blanks, isGap c = true) : '\r' ∉ blanks :=
  fun hmem => absurd (h '\r' hmem) (by decide)

theorem lineFeed_not_mem_of_gaps (h : ∀ c ∈ blanks, isGap c = true) : '\n' ∉ blanks :=
  fun hmem => absurd (h '\n' hmem) (by decide)

/-- The carriage returns at the end of a line are cut off, and nothing else of a line without
others. -/
theorem dropEndWhile_of_not_mem {line : List Char} (h : '\r' ∉ line) (returns : Nat) :
    Text.dropEndWhile (· == '\r') (line ++ List.replicate returns '\r') = line :=
  dropEndWhile_append_returns (fun hlast => h (List.mem_of_getLast? hlast)) returns

theorem dropEndWhile_eq_self_of_not_mem {line : List Char} (h : '\r' ∉ line) :
    Text.dropEndWhile (· == '\r') line = line := by
  simpa using dropEndWhile_of_not_mem h 0

/-- An idle line stays idle when the carriage returns at its end are cut off. -/
theorem IsIdleText.dropEndWhile (h : IsIdleText text) (returns : Nat) :
    IsIdleText (Text.dropEndWhile (· == '\r') (text ++ List.replicate returns '\r')) := by
  rcases h with hgaps | ⟨margin, rest, rfl, hmargin⟩
  · rw [dropEndWhile_of_not_mem (return_not_mem_of_gaps hgaps)]
    exact .inl hgaps
  · -- The hash is not cut off.
    obtain ⟨count, htext, -⟩ :=
      exists_returns (margin ++ '#' :: rest ++ List.replicate returns '\r')
    generalize Text.dropEndWhile (· == '\r')
      (margin ++ '#' :: rest ++ List.replicate returns '\r') = kept at htext ⊢
    have hhash : '#' ∉ List.replicate count '\r' :=
      fun hmem => absurd (List.eq_of_mem_replicate hmem) (by decide)
    rw [List.append_assoc, List.cons_append] at htext
    rcases List.append_eq_append_iff.1 htext with ⟨more, rfl, hmore⟩ | ⟨more, rfl, hmore⟩
    · cases more with
      | nil =>
        rw [List.nil_append] at hmore
        exact absurd (hmore ▸ List.mem_cons_self) hhash
      | cons c more =>
        obtain ⟨rfl, -⟩ := List.cons.inj hmore
        exact .inr ⟨margin, more, rfl, hmargin⟩
    · refine absurd ?_ hhash
      rw [hmore]
      simp

theorem Relaid.linesRelaid {source : List Char} (h : Relaid source text) (hreturn : '\r' ∉ source)
    (number number' : Nat) :
    LinesRelaid (linesFrom number (Text.segments source))
      (linesFrom number' (Text.segments text)) := by
  induction h generalizing number number' with
  | @last line blanks hfeed hblanks =>
    have hreturn' : '\r' ∉ line ++ blanks := by simp [hreturn, return_not_mem_of_gaps hblanks]
    rw [Text.segments_of_not_mem hfeed,
      Text.segments_of_not_mem (by simp [hfeed, lineFeed_not_mem_of_gaps hblanks]), linesFrom,
      linesFrom, dropEndWhile_eq_self_of_not_mem hreturn, dropEndWhile_eq_self_of_not_mem hreturn']
    cases line with
    | cons c line => exact .line hblanks rfl rfl .nil
    | nil =>
      cases blanks with
      | nil => exact .nil
      | cons c blanks => exact .idle (.inl hblanks) .nil
  | @line line blanks rest text hfeed hblanks returns _ ih =>
    have hline : '\r' ∉ line := fun hmem => hreturn (List.mem_append_left _ hmem)
    have hrest : '\r' ∉ rest := fun hmem => hreturn (by simp [hmem])
    have hfeed' : '\n' ∉ line ++ blanks := by simp [hfeed, lineFeed_not_mem_of_gaps hblanks]
    have hreturn' : '\r' ∉ line ++ blanks := by simp [hline, return_not_mem_of_gaps hblanks]
    rw [linesFrom_lineFeed hfeed, linesFrom_lineFeed (lineFeed_not_mem_returns hfeed' returns),
      dropEndWhile_eq_self_of_not_mem hline, dropEndWhile_of_not_mem hreturn']
    exact .line hblanks rfl rfl (ih hrest _ _)
  | @idle idle source text hfeed hidle returns _ ih =>
    rw [linesFrom_lineFeed (lineFeed_not_mem_returns hfeed returns)]
    exact .idle (hidle.dropEndWhile returns) (ih hreturn _ _)

/-- The tokens of a text with another layout say the same. -/
theorem Relaid.content_lexStream {source : List Char} (h : Relaid source text)
    (hreturn : '\r' ∉ source) : (lexStream text).content = (lexStream source).content :=
  (h.linesRelaid hreturn 1 1).content_lexLines [0] _ _

/-! ### Trees -/

section Trees

variable {a b : Token}

theorem Token.operand_kind_of_content (h : a.content = b.content) :
    a.operand.kind = b.operand.kind := by
  obtain ⟨hkind, hlexeme⟩ := Prod.mk.injEq .. ▸ h
  simp only [operand, hkind, hlexeme]

theorem Token.operator_of_content (h : a.content = b.content) : a.operator = b.operator := by
  rw [operator, operator, show a.lexeme = b.lexeme from congrArg Prod.snd h]

theorem Token.InRange.of_content (hrange : b.InRange) (h : a.content = b.content) : a.InRange := by
  obtain ⟨hkind, hlexeme⟩ := Prod.mk.injEq .. ▸ h
  rw [InRange, hkind, hlexeme]
  exact hrange

variable {tokens next next' : List Token}

theorem nextKind_of_content (h : next'.map Token.content = next.map Token.content) :
    nextKind next' = nextKind next := by
  have hkinds := congrArg (fun contents => contents.head?.map Prod.fst) h
  simpa [nextKind, Function.comp_def, Token.content] using hkinds

theorem ComparisonTree.Derives.exists_of_content {tree : ComparisonTree} (h : tree.Derives next)
    (htokens : tokens.map Token.content = tree.tokens.map Token.content)
    (hnext : next'.map Token.content = next.map Token.content) :
    ∃ other : ComparisonTree, other.tokens = tokens ∧ other.Derives next' ∧
      other.expression.content = tree.expression.content ∧ (tree.InRange → other.InRange) := by
  obtain ⟨left, operator, right, newline⟩ := tree
  obtain ⟨hleft, hoperator, hright, hend⟩ := h
  obtain ⟨left', _, rfl, hleft', htokens⟩ := List.map_eq_cons_iff.1 htokens
  obtain ⟨operator', _, rfl, hoperator', htokens⟩ := List.map_eq_cons_iff.1 htokens
  obtain ⟨right', ends, rfl, hright', hends⟩ := List.map_eq_cons_iff.1 htokens
  rw [← show left'.kind = left.kind from congrArg Prod.fst hleft'] at hleft
  rw [← show operator'.kind = operator.kind from congrArg Prod.fst hoperator'] at hoperator
  rw [← show right'.kind = right.kind from congrArg Prod.fst hright'] at hright
  -- The newline is there in both or in neither.
  obtain ⟨newline', rfl, hderives⟩ : ∃ newline' : Option Token, ends = newline'.toList ∧
      ComparisonTree.Derives ⟨left', operator', right', newline'⟩ next' := by
    cases newline with
    | none =>
      exact ⟨none, List.map_eq_nil_iff.1 hends, hleft, hoperator, hright,
        (nextKind_of_content hnext).trans hend⟩
    | some newline =>
      obtain ⟨newline', rfl, hnewline⟩ := List.map_eq_singleton_iff.1 hends
      exact ⟨some newline', rfl, hleft, hoperator, hright, (congrArg Prod.fst hnewline).trans hend⟩
  refine ⟨⟨left', operator', right', newline'⟩, rfl, hderives, ?_, fun hrange => ?_⟩
  · simp only [expression, Expression.content, Token.operand_kind_of_content hleft',
      Token.operand_kind_of_content hright', Token.operator_of_content hoperator']
  · exact ⟨hrange.1.of_content hleft', hrange.2.of_content hright'⟩

theorem ComparisonTree.DeriveAll.exists_of_content {trees : List ComparisonTree}
    (h : DeriveAll trees next)
    (htokens : tokens.map Token.content = (trees.flatMap ComparisonTree.tokens).map Token.content)
    (hnext : next'.map Token.content = next.map Token.content) :
    ∃ others :
      List ComparisonTree, others.flatMap ComparisonTree.tokens = tokens ∧ DeriveAll others next' ∧
      others.map (fun tree => tree.expression.content) =
        trees.map (fun tree => tree.expression.content) ∧
      ((∀ tree ∈ trees, tree.InRange) → ∀ tree ∈ others, tree.InRange) := by
  induction trees generalizing tokens with
  | nil =>
    exact ⟨[], (List.map_eq_nil_iff.1 htokens).symm, trivial, rfl, fun _ tree hmem => nomatch hmem⟩
  | cons tree trees ih =>
    rw [List.flatMap_cons, List.map_append] at htokens
    obtain ⟨first, rest, rfl, hfirst, hrest⟩ := List.map_eq_append_iff.1 htokens
    obtain ⟨others, rfl, hothers, hcontents, hranges⟩ := ih h.2 hrest
    have hafter : (others.flatMap ComparisonTree.tokens ++ next').map Token.content =
        (trees.flatMap ComparisonTree.tokens ++ next).map Token.content := by
      rw [List.map_append, List.map_append, hrest, hnext]
    obtain ⟨other, rfl, hother, hcontent, hrange⟩ := h.1.exists_of_content hfirst hafter
    refine ⟨other :: others, rfl,
      ⟨hother, hothers⟩, by rw [List.map_cons, List.map_cons, hcontent, hcontents], ?_⟩
    intro hall
    obtain ⟨hfirst, hall⟩ := List.forall_mem_cons.1 hall
    exact List.forall_mem_cons.2 ⟨hrange hfirst, hranges hall⟩

theorem FilterTree.Derives.exists_of_content {tree : FilterTree} (h : tree.Derives next)
    (htokens : tokens.map Token.content = tree.tokens.map Token.content)
    (hnext : next'.map Token.content = next.map Token.content) :
    ∃ other : FilterTree, other.tokens = tokens ∧ other.Derives next' ∧
      other.filter.content = tree.filter.content ∧ (tree.InRange → other.InRange) := by
  cases tree with
  | line name newline =>
    obtain ⟨name', _, rfl, hname, htokens⟩ := List.map_eq_cons_iff.1 htokens
    obtain ⟨newline', rfl, hnewline⟩ := List.map_eq_singleton_iff.1 htokens
    refine ⟨.line name' newline', rfl,
      ⟨(congrArg Prod.fst hname).trans h.1, (congrArg Prod.fst hnewline).trans h.2⟩, ?_,
      fun _ => inRange_of_comparisons_eq_nil rfl⟩
    exact congrArg (·, []) (congrArg Prod.snd hname)
  | last name =>
    obtain ⟨name', rfl, hname⟩ := List.map_eq_singleton_iff.1 htokens
    obtain ⟨hkind, rfl⟩ := h
    refine ⟨.last name', rfl,
      ⟨(congrArg Prod.fst hname).trans hkind, List.map_eq_nil_iff.1 hnext⟩, ?_,
      fun _ => inRange_of_comparisons_eq_nil rfl⟩
    exact congrArg (·, []) (congrArg Prod.snd hname)
  | block name newline indent comparisons dedent =>
    obtain ⟨hkind, hnewlineKind, hindentKind, hne, hall, hdedentKind⟩ := h
    obtain ⟨name', _, rfl, hname, htokens⟩ := List.map_eq_cons_iff.1 htokens
    obtain ⟨newline', _, rfl, hnewline, htokens⟩ := List.map_eq_cons_iff.1 htokens
    obtain ⟨indent', _, rfl, hindent, htokens⟩ := List.map_eq_cons_iff.1 htokens
    rw [List.map_append] at htokens
    obtain ⟨block, _, rfl, hblock, hlast⟩ := List.map_eq_append_iff.1 htokens
    obtain ⟨dedent', rfl, hdedent⟩ := List.map_eq_singleton_iff.1 hlast
    have hafter : (dedent' :: next').map Token.content = (dedent :: next).map Token.content := by
      rw [List.map_cons, List.map_cons, hdedent, hnext]
    obtain ⟨others, rfl, hothers, hcontents, hranges⟩ := hall.exists_of_content hblock hafter
    refine ⟨.block name' newline' indent' others dedent', rfl,
      ⟨(congrArg Prod.fst hname).trans hkind, (congrArg Prod.fst hnewline).trans hnewlineKind,
        (congrArg Prod.fst hindent).trans hindentKind, ?_, hothers,
        (congrArg Prod.fst hdedent).trans hdedentKind⟩,
      ?_, hranges⟩
    · rintro rfl
      exact hne (List.map_eq_nil_iff.1 hcontents.symm)
    · simp only [filter, Filter.content, List.map_map, Prod.mk.injEq]
      exact ⟨congrArg Prod.snd hname, hcontents⟩

/-- Tokens that say the same have trees that say the same. -/
theorem IsDerivation.exists_of_content {tokens' : List Token} {trees : List FilterTree}
    (h : IsDerivation tokens trees)
    (htokens : tokens'.map Token.content = tokens.map Token.content) :
    ∃ others, IsDerivation tokens' others ∧
      others.map (fun tree => tree.filter.content) = trees.map (fun tree => tree.filter.content) ∧
      ((∀ tree ∈ trees, tree.InRange) → ∀ tree ∈ others, tree.InRange) := by
  obtain ⟨rfl, hall⟩ := h
  induction trees generalizing tokens' with
  | nil =>
    exact ⟨[], ⟨(List.map_eq_nil_iff.1 htokens).symm, trivial⟩, rfl,
      fun _ tree hmem => nomatch hmem⟩
  | cons tree trees ih =>
    rw [List.flatMap_cons, List.map_append] at htokens
    obtain ⟨first, rest, rfl, hfirst, hrest⟩ := List.map_eq_append_iff.1 htokens
    obtain ⟨others, ⟨rfl, hothers⟩, hcontents, hranges⟩ := ih hall.2 hrest
    obtain ⟨other, rfl, hother, hcontent, hrange⟩ := hall.1.exists_of_content hfirst hrest
    refine ⟨other :: others,
      ⟨rfl, hother, hothers⟩, by rw [List.map_cons, List.map_cons, hcontent, hcontents], ?_⟩
    intro hall
    obtain ⟨hfirst, hall⟩ := List.forall_mem_cons.1 hall
    exact List.forall_mem_cons.2 ⟨hrange hfirst, hranges hall⟩

end Trees

/-! ### Files -/

/-- A file whose tokens say the same as those of an accepted one is accepted and says the same. -/
theorem exists_parse_of_content {a b : List Char} {values : List Filter}
    (h : (lexStream b).content = (lexStream a).content) (ha : parse a = .ok values) :
    ∃ others, parse b = .ok others ∧ others.map Filter.content = values.map Filter.content := by
  obtain ⟨tokens, trees, hlex, htrees, hrange, rfl⟩ := exists_derivation_of_parse ha
  have hstream := lex_eq_ok_iff.1 hlex
  obtain ⟨htokens, herror⟩ : _ ∧ _ := by simpa only [Stream.content, Prod.mk.injEq] using h
  rw [hstream] at htokens herror
  have hlex' : lex b = .ok (lexStream b).tokens := by
    rw [lex_eq_ok_iff, ← show (lexStream b).error = none from Option.map_eq_none_iff.1 herror]
  obtain ⟨others, hothers, hcontents, hranges⟩ := htrees.exists_of_content htokens
  exact ⟨_, parse_of_derivation hlex' hothers (hranges hrange), by simpa [Function.comp_def]
    using hcontents⟩

/-- A file without carriage returns and the same file with another layout are both accepted or both
refused, and if they are accepted then their filters are the same up to locations. -/
theorem parse_relaid {source text : List Char} (hreturn : '\r' ∉ source) (h : Relaid source text) :
    ((∃ values, parse text = .ok values) ↔ ∃ values, parse source = .ok values) ∧
      ∀ values others, parse source = .ok values → parse text = .ok others →
        others.map Filter.content = values.map Filter.content := by
  have hcontent := h.content_lexStream hreturn
  refine ⟨⟨?_, ?_⟩, ?_⟩
  · rintro ⟨values, hvalues⟩
    obtain ⟨others, hothers, -⟩ := exists_parse_of_content hcontent.symm hvalues
    exact ⟨others, hothers⟩
  · rintro ⟨values, hvalues⟩
    obtain ⟨others, hothers, -⟩ := exists_parse_of_content hcontent hvalues
    exact ⟨others, hothers⟩
  · intro values others hvalues hothers
    obtain ⟨found, hfound, hsame⟩ := exists_parse_of_content hcontent hvalues
    obtain rfl : others = found := by simpa [hothers] using hfound
    exact hsame

/-- A file with a block, and the same file with comments at other columns, blank lines, blanks and
carriage returns. -/
theorem parse_relaid_block :
    let source := "pep8\n  3 <= lineno\n  message = \"a # b\"\nline-too-long".toList
    let text :=
      ("# top\r\npep8 \t\r\n     # deep\n  3 <= lineno\n\t \r\n" ++
        "  message = \"a # b\"  \n#\nline-too-long ").toList
    ('\r' ∉ source ∧ Relaid source text) ∧ ∃ values others, parse source = .ok values ∧
      parse text = .ok others ∧
      values ≠ others ∧ others.map Filter.content = values.map Filter.content := by
  intro source text
  have hsource : source = "pep8".toList ++ '\n' :: ("  3 <= lineno".toList ++ '\n' ::
      ("  message = \"a # b\"".toList ++ '\n' :: "line-too-long".toList)) := by decide +kernel
  have htext : text = "# top".toList ++ List.replicate 1 '\r' ++ '\n' ::
      ("pep8".toList ++ " \t".toList ++ List.replicate 1 '\r' ++ '\n' ::
      ("     # deep".toList ++ List.replicate 0 '\r' ++ '\n' ::
      ("  3 <= lineno".toList ++ "".toList ++ List.replicate 0 '\r' ++ '\n' ::
      ("\t ".toList ++ List.replicate 1 '\r' ++ '\n' ::
      ("  message = \"a # b\"".toList ++ "  ".toList ++ List.replicate 0 '\r' ++ '\n' ::
      ("#".toList ++ List.replicate 0 '\r' ++ '\n' ::
        ("line-too-long".toList ++ " ".toList))))))) := by
    decide +kernel
  have hgaps : ∀ blanks : List Char, blanks.all isGap = true → ∀ c ∈ blanks, isGap c = true :=
    fun _ => List.all_eq_true.1
  have hcomment : ∀ margin rest, (∀ c ∈ margin, isGap c = true) →
      IsIdleText (margin ++ '#' :: rest) :=
    fun margin rest hmargin => .inr ⟨margin, rest, rfl, hmargin⟩
  have hrelaid : Relaid source text := by
    rw [hsource, htext]
    refine .idle (by decide) (hcomment [] " top".toList (hgaps _ rfl)) 1 ?_
    refine .line (by decide) (hgaps _ rfl) 1 ?_
    refine .idle (by decide) (hcomment "     ".toList " deep".toList (hgaps _ rfl)) 0 ?_
    refine .line (by decide) (hgaps _ rfl) 0 ?_
    refine .idle (by decide) (.inl (hgaps _ rfl)) 1 ?_
    refine .line (by decide) (hgaps _ rfl) 0 ?_
    refine .idle (by decide) (hcomment [] [] (hgaps _ rfl)) 0 ?_
    exact .last (by decide) (hgaps _ rfl)
  have hreturn : '\r' ∉ source := by decide +kernel
  have hok : (parse source).isOk = true ∧ parse source ≠ parse text := by decide +kernel
  obtain ⟨haccepts, hsame⟩ := parse_relaid hreturn hrelaid
  refine ⟨⟨hreturn, hrelaid⟩, ?_⟩
  cases hvalues : parse source with
  | error error =>
    rw [hvalues] at hok
    cases hok.1
  | ok values =>
    obtain ⟨others, hothers⟩ := haccepts.2 ⟨values, hvalues⟩
    refine ⟨values, others, rfl, hothers, fun heq => hok.2 ?_, hsame values others hvalues hothers⟩
    rw [hvalues, hothers, heq]

end PythonLint.Ignore
