import PythonLint.Proofs.Ignore.Line

/-!
# The text of a line of an ignore file

A line falls into words and blanks. `IsCut` says so of a text and its words, each of which stands at
its columns and is as long as a word can be there. The lexer cuts a line up to its end, or up to a
place where no word starts. From the cut follow the places of the words: each is the text between
its columns, they stand in order and apart, and only blanks are left between them.

Main statements: `IsWord.exists_wordAt`, `exists_isCut_lexWords`, `IsCut.exists_place`,
`IsCut.pairwise`, `IsCut.covers`.
-/

namespace PythonLint.Ignore

/-! ### The longest word -/

/-- Where a word starts, one is read that is at least as long. -/
theorem IsWord.exists_wordAt {kind : TokenKind} {word : List Char} (h : IsWord kind word)
    (rest : List Char) :
    ∃ found lexeme, wordAt (word ++ rest) = some (found, lexeme) ∧ word.length ≤ lexeme.length := by
  cases h with
  | @name c run hc hrun =>
    rw [List.cons_append, wordAt, if_pos hc, List.takeWhile_append_of_pos hrun]
    exact ⟨_, _, rfl, by simp⟩
  | operator operator =>
    by_cases hequal : rest.head? = some '='
    · cases operator <;> simp [wordAt, Operator.symbol, hequal]
    · cases operator <;> simp [wordAt, Operator.symbol, hequal]
  | string hcontent => exact ⟨_, _, wordAt_string hcontent rest, Nat.le_refl _⟩
  | @integer c run hc hrun =>
    obtain ⟨halpha, hequal, hless, hquote⟩ := not_isAlpha_of_isDigit hc
    rw [List.cons_append, wordAt, if_neg (by simp [halpha]), if_neg hequal, if_neg hless,
      if_neg hquote, if_pos hc, List.takeWhile_append_of_pos hrun]
    exact ⟨_, _, rfl, by simp⟩

/-- The word stands before `rest`, and no longer word starts where it starts. -/
structure IsLongest (kind : TokenKind) (lexeme rest : List Char) : Prop where
  word : IsWord kind lexeme
  longest : ∀ other word others, lexeme ++ rest = word ++ others → IsWord other word →
    word.length ≤ lexeme.length

/-- The word that is read is the longest one, also before a part of the text only. -/
theorem isLongest_of_wordAt {text lexeme rest after : List Char} {kind : TokenKind}
    (h : wordAt text = some (kind, lexeme)) (htext : text = lexeme ++ rest ++ after) :
    IsLongest kind lexeme rest := by
  refine ⟨(wordAt_eq_some h).1, fun other word others hstart hword => ?_⟩
  obtain ⟨found, read, hread, hlength⟩ := hword.exists_wordAt (others ++ after)
  rw [← List.append_assoc, ← hstart, ← htext, h] at hread
  cases hread
  exact hlength

/-! ### Cutting a text -/

/-- Neither a word nor a blank starts here. -/
def StartsNoWord (text : List Char) : Prop :=
  (∃ c ∈ text.head?, isGap c = false) ∧ ∀ kind word rest, text = word ++ rest → ¬IsWord kind word

theorem startsNoWord_of_wordAt {c : Char} {rest : List Char} (hc : isGap c = false)
    (h : wordAt (c :: rest) = none) : StartsNoWord (c :: rest) := by
  refine ⟨⟨c, rfl, hc⟩, fun kind word others htext hword => ?_⟩
  obtain ⟨found, read, hread, -⟩ := hword.exists_wordAt others
  rw [← htext, h] at hread
  cases hread

/-- The text from `column` on falls into words and blanks; the tokens are the words, in their
places. -/
inductive IsCut (number : Nat) : (column : Nat) → (text : List Char) → (tokens : List Token) → Prop
  | nil (column : Nat) : IsCut number column [] []
  | gap {column : Nat} {c : Char} {rest : List Char} {tokens : List Token} (hc : isGap c = true)
      (h : IsCut number (column + 1) rest tokens) : IsCut number column (c :: rest) tokens
  | word {column : Nat} {kind : TokenKind} {lexeme rest : List Char} {tokens : List Token}
      (hword : IsLongest kind lexeme rest) (h : IsCut number (column + lexeme.length) rest tokens) :
      IsCut number column (lexeme ++ rest)
        (⟨kind, String.ofList lexeme, ⟨number, column⟩, ⟨number, column + lexeme.length⟩⟩ :: tokens)

/-- The lexer cuts a text to its end, or to a place where neither a word nor a blank starts. -/
theorem exists_isCut_lexWords (number column : Nat) (text : List Char) :
    ∃ before after, text = before ++ after ∧
      IsCut number column before (lexWords number column text).tokens ∧
      (lexWords number column text).column = column + before.length ∧
      ((lexWords number column text).error = none ∧ after = [] ∨
        (lexWords number column text).error = some ⟨.noWord, ⟨number, column + before.length⟩⟩ ∧
          StartsNoWord after) := by
  fun_induction lexWords number column text with
  | case1 column => exact ⟨[], [], rfl, .nil column, rfl, .inl ⟨rfl, rfl⟩⟩
  | case2 column c rest hgap ih =>
    obtain ⟨before, after, rfl, hcut, hcolumn, hend⟩ := ih
    have hlength : column + 1 + before.length = column + (c :: before).length := by
      rw [List.length_cons]
      omega
    rw [hlength] at hcolumn hend
    exact ⟨c :: before, after, rfl, .gap hgap hcut, hcolumn, hend⟩
  | case3 column c rest hgap hword =>
    exact ⟨[], c :: rest, rfl, .nil column, rfl,
      .inr ⟨rfl, startsNoWord_of_wordAt (by simpa using hgap) hword⟩⟩
  | case4 column c rest hgap kind lexeme hword stop others ih =>
    obtain ⟨hspelled, tail, htext⟩ := wordAt_eq_some hword
    obtain ⟨d, word, rfl⟩ := List.exists_cons_of_ne_nil hspelled.ne_nil
    rw [List.cons_append, List.cons.injEq] at htext
    obtain ⟨rfl, rfl⟩ := htext
    obtain ⟨before, after, hbefore, hcut, hcolumn, hend⟩ := ih
    obtain rfl : tail = before ++ after := by simpa using hbefore
    have hlength : stop + before.length = column + (c :: word ++ before).length := by
      rw [List.length_append]
      omega
    rw [hlength] at hcolumn hend
    have htext : c :: (word ++ (before ++ after)) = c :: word ++ before ++ after := by simp
    have hlongest : IsLongest kind (c :: word) before := isLongest_of_wordAt hword htext
    exact ⟨c :: word ++ before, after, by simp, .word hlongest hcut, hcolumn, hend⟩

/-! ### The places of the words -/

namespace IsCut

variable {number column : Nat} {text : List Char} {tokens : List Token}

/-- A blank before a text that is cut is passed. -/
theorem append_gaps {margin : List Char} (hmargin : ∀ c ∈ margin, isGap c = true)
    (h : IsCut number (column + margin.length) text tokens) :
    IsCut number column (margin ++ text) tokens := by
  induction margin generalizing column with
  | nil => exact h
  | cons c margin ih =>
    obtain ⟨hc, hmargin⟩ := List.forall_mem_cons.1 hmargin
    rw [List.length_cons, Nat.add_comm margin.length, ← Nat.add_assoc] at h
    exact .gap hc (ih hmargin h)

/-- A word is the longest one at its place, and stands there with its columns. -/
theorem exists_place (h : IsCut number column text tokens) {token : Token} (hmem : token ∈ tokens) :
    ∃ before rest, text = before ++ token.lexeme.toList ++ rest ∧
      IsLongest token.kind token.lexeme.toList rest ∧
      token.start = ⟨number, column + before.length⟩ ∧
      token.stop = ⟨number, column + before.length + token.lexeme.toList.length⟩ := by
  induction h with
  | nil => cases hmem
  | @gap column c _ _ _ _ ih =>
    obtain ⟨before, rest, rfl, hlongest, hstart, hstop⟩ := ih hmem
    have hlength : column + 1 + before.length = column + (c :: before).length := by
      rw [List.length_cons]
      omega
    rw [hlength] at hstart hstop
    exact ⟨c :: before, rest, rfl, hlongest, hstart, hstop⟩
  | @word column kind lexeme rest _ hword _ ih =>
    rcases List.mem_cons.1 hmem with rfl | hmem
    · exact ⟨[], rest, by simp, by simpa using hword, rfl, by simp⟩
    · obtain ⟨before, after, rfl, hlongest, hstart, hstop⟩ := ih hmem
      have hlength : column + lexeme.length + before.length =
          column + (lexeme ++ before).length := by
        rw [List.length_append]
        omega
      rw [hlength] at hstart hstop
      exact ⟨lexeme ++ before, after, by simp, hlongest, hstart, hstop⟩

/-- The words stand in order and do not overlap. -/
theorem pairwise (h : IsCut number column text tokens) :
    tokens.Pairwise fun a b => a.stop ≤ b.start := by
  induction h with
  | nil => exact .nil
  | gap _ _ ih => exact ih
  | @word column kind lexeme rest _ _ hcut ih =>
    refine List.pairwise_cons.2 ⟨fun token hmem => ?_, ih⟩
    obtain ⟨before, _, -, -, hstart, -⟩ := hcut.exists_place hmem
    rw [hstart, Location.le_iff]
    exact .inr ⟨rfl, Nat.le_add_right _ _⟩

/-- A character that is not a blank belongs to a word. -/
theorem covers (h : IsCut number column text tokens) {n : Nat} {c : Char} (hn : text[n]? = some c) :
    isGap c = true ∨ ∃ token ∈ tokens, token.start.column ≤ column + n ∧
      column + n < token.stop.column := by
  induction h generalizing n with
  | nil => cases hn
  | @gap column d _ _ hd _ ih =>
    cases n with
    | zero =>
      obtain rfl : d = c := by simpa using hn
      exact .inl hd
    | succ n =>
      rw [Nat.add_comm n, ← Nat.add_assoc]
      exact ih (by simpa using hn)
  | @word column kind lexeme rest tokens _ _ ih =>
    by_cases hlt : n < lexeme.length
    · exact .inr ⟨_, List.mem_cons_self, Nat.le_add_right _ _, Nat.add_lt_add_left hlt _⟩
    · rw [List.getElem?_append_right (Nat.le_of_not_lt hlt)] at hn
      have hplace : column + lexeme.length + (n - lexeme.length) = column + n := by omega
      have hcases := ih hn
      rw [hplace] at hcases
      exact hcases.imp_right fun ⟨token, hmem, hcovers⟩ =>
        ⟨token, List.mem_cons_of_mem _ hmem, hcovers⟩

end IsCut

end PythonLint.Ignore
