import PythonLint.Ignore.Filter
import PythonLint.Ignore.Lexer
import Mathlib.Data.List.TakeWhile

/-!
# Words of an ignore file

The spelling of the words of an ignore file, and how a line falls into them. `IsWord` gives the
spelling of each kind of word. The lexer reads nothing else, and it reads a word to its end when a
blank or the end of the line follows.

Main statements: `wordAt_eq_some`, `IsWord.wordAt_append`, `lexWords_word`, `lexWords_gap`,
`lexWords_isWord`.
-/

namespace PythonLint.Ignore

variable {c : Char} {lexeme rest : List Char} {kind : TokenKind}

/-- The spelling of a kind of word. -/
inductive IsWord : TokenKind → List Char → Prop
  | name {c : Char} {rest : List Char} (hc : c.isAlpha = true)
      (hrest : ∀ d ∈ rest, isNameChar d = true) : IsWord .name (c :: rest)
  | operator (operator : Operator) : IsWord .operator operator.symbol.toList
  | string {content : List Char} (hcontent : '"' ∉ content) :
      IsWord .string ('"' :: content ++ ['"'])
  | integer {c : Char} {rest : List Char} (hc : c.isDigit = true)
      (hrest : ∀ d ∈ rest, d.isDigit = true) : IsWord .integer (c :: rest)

def TokenKind.IsWordKind (kind : TokenKind) : Prop :=
  kind = .name ∨ kind = .operator ∨ kind = .string ∨ kind = .integer

instance (kind : TokenKind) : Decidable kind.IsWordKind :=
  inferInstanceAs (Decidable (_ ∨ _))

namespace IsWord

theorem isWordKind (h : IsWord kind lexeme) : kind.IsWordKind := by
  cases h with
  | name => exact .inl rfl
  | operator => exact .inr (.inl rfl)
  | string => exact .inr (.inr (.inl rfl))
  | integer => exact .inr (.inr (.inr rfl))

theorem ne_nil (h : IsWord kind lexeme) : lexeme ≠ [] := by
  cases h with
  | operator operator => cases operator <;> decide
  | _ => exact List.cons_ne_nil _ _

theorem exists_symbol (h : IsWord .operator lexeme) :
    ∃ operator : Operator, lexeme = operator.symbol.toList := by
  cases h with
  | operator operator => exact ⟨operator, rfl⟩

/-- A string is spelled with one quote on either side of its content. -/
theorem exists_content (h : IsWord .string lexeme) :
    ∃ content, '"' ∉ content ∧ lexeme = '"' :: content ++ ['"'] := by
  cases h with
  | string hcontent => exact ⟨_, hcontent, rfl⟩

end IsWord

/-! ### Reading a word -/

/-- A run that stops before the end of a text stops at an element that does not belong to it. -/
theorem exists_eq_takeWhile_append {α : Type} {p : α → Bool} {text : List α}
    (h : (text.takeWhile p).length < text.length) :
    ∃ c rest, text = text.takeWhile p ++ c :: rest ∧ p c = false := by
  have hsplit := List.takeWhile_append_dropWhile (p := p) (l := text)
  cases hdrop : text.dropWhile p with
  | nil =>
    rw [hdrop, List.append_nil] at hsplit
    rw [hsplit] at h
    exact absurd h (Nat.lt_irrefl _)
  | cons c rest =>
    refine ⟨c, rest, by rw [hdrop] at hsplit; exact hsplit.symm, ?_⟩
    have hhead := List.head?_dropWhile_not p text
    rw [hdrop] at hhead
    simpa using hhead

/-- What is read at the start of a text is a word that the text starts with. -/
theorem wordAt_eq_some {text : List Char} (h : wordAt text = some (kind, lexeme)) :
    IsWord kind lexeme ∧ ∃ rest, text = lexeme ++ rest := by
  cases text with
  | nil => cases h
  | cons c rest =>
    simp only [wordAt] at h
    split at h
    · next hc =>
      cases h
      exact ⟨.name hc fun d hd => List.mem_takeWhile_imp hd, rest.dropWhile isNameChar,
        by rw [List.cons_append, List.takeWhile_append_dropWhile]⟩
    split at h
    · next hc =>
      cases h
      exact ⟨hc ▸ IsWord.operator .equal, rest, rfl⟩
    split at h
    · next hc =>
      split at h
      · next heq =>
        cases h
        obtain ⟨others, rfl⟩ : ∃ others, rest = '=' :: others := by
          cases rest with
          | nil => cases heq
          | cons d others =>
            cases heq
            exact ⟨others, rfl⟩
        rcases hc with rfl | rfl
        · exact ⟨IsWord.operator .lessOrEqual, others, rfl⟩
        · exact ⟨IsWord.operator .greaterOrEqual, others, rfl⟩
      · cases h
        rcases hc with rfl | rfl
        · exact ⟨IsWord.operator .less, rest, rfl⟩
        · exact ⟨IsWord.operator .greater, rest, rfl⟩
    split at h
    · next hc =>
      split at h
      · next hlt =>
        cases h
        obtain ⟨d, others, hrest, hd⟩ := exists_eq_takeWhile_append hlt
        have hquote : d = '"' := by simpa using hd
        refine ⟨.string fun hmem => ?_, others, ?_⟩
        · simpa using List.mem_takeWhile_imp hmem
        · rw [hc, List.append_assoc, List.cons_append]
          congr 1
          rw [hquote] at hrest
          exact hrest
      · cases h
    split at h
    · next hc =>
      cases h
      exact ⟨.integer hc fun d hd => List.mem_takeWhile_imp hd, rest.dropWhile Char.isDigit,
        by rw [List.cons_append, List.takeWhile_append_dropWhile]⟩
    · cases h

/-- The text is at its end or goes on with a blank. -/
def StartsWithGap (text : List Char) : Prop :=
  ∀ c ∈ text.head?, isGap c = true

/-- A run of characters that blanks are not among ends before a blank. -/
theorem takeWhile_append_of_startsWithGap {p : Char → Bool}
    (hgap : ∀ c, isGap c = true → p c = false) {run : List Char} (hrun : ∀ c ∈ run, p c = true)
    (hrest : StartsWithGap rest) : (run ++ rest).takeWhile p = run := by
  rw [List.takeWhile_append_of_pos hrun]
  cases rest with
  | nil => simp
  | cons c rest =>
    have hc := hgap c (hrest c rfl)
    rw [List.takeWhile_cons_of_neg (by simp [hc]), List.append_nil]

/-- A digit starts no word but an integer. -/
theorem not_isAlpha_of_isDigit (h : c.isDigit = true) :
    c.isAlpha = false ∧ c ≠ '=' ∧ ¬(c = '<' ∨ c = '>') ∧ c ≠ '"' := by
  have hrange := Char.isDigit_iff_toNat.1 h
  have hletters : ¬(65 ≤ c.toNat ∧ c.toNat ≤ 90) ∧ ¬(97 ≤ c.toNat ∧ c.toNat ≤ 122) := by
    have h0 : '0'.toNat = 48 := rfl
    have h9 : '9'.toNat = 57 := rfl
    omega
  refine ⟨?_, ?_, ?_, ?_⟩
  · have hupper : c.isUpper = false := by
      refine decide_eq_false fun hrange => hletters.1 ?_
      exact ⟨UInt32.le_iff_toNat_le.1 hrange.1, UInt32.le_iff_toNat_le.1 hrange.2⟩
    have hlower : c.isLower = false := by
      rw [← Bool.not_eq_true]
      intro hlower
      obtain ⟨hfrom, hto⟩ := Bool.and_eq_true_iff.1 hlower
      exact hletters.2 ⟨UInt32.le_iff_toNat_le.1 (of_decide_eq_true hfrom),
        UInt32.le_iff_toNat_le.1 (of_decide_eq_true hto)⟩
    exact Bool.or_eq_false_iff.2 ⟨hupper, hlower⟩
  · rintro rfl
    exact absurd h (by decide)
  · rintro (rfl | rfl)
    · exact absurd h (by decide)
    · exact absurd h (by decide)
  · rintro rfl
    exact absurd h (by decide)

/-- A string is read up to its closing quote, whatever follows. -/
theorem wordAt_string {content : List Char} (hcontent : '"' ∉ content) (rest : List Char) :
    wordAt ('"' :: content ++ ['"'] ++ rest) = some (.string, '"' :: content ++ ['"']) := by
  have htake : (content ++ '"' :: rest).takeWhile (· ≠ '"') = content := by
    rw [List.takeWhile_append_of_pos]
    · rw [List.takeWhile_cons_of_neg (by simp), List.append_nil]
    · intro c hc
      simp only [ne_eq, decide_eq_true_eq]
      rintro rfl
      exact hcontent hc
  have hlen : content.length < (content ++ '"' :: rest).length := by simp
  simp only [List.cons_append, List.append_assoc, List.nil_append, wordAt]
  rw [if_neg (by decide), if_neg (by decide), if_neg (by decide), if_pos trivial, htake,
    if_pos hlen]

/-- A word before a blank or the end of the line is read as a whole. -/
theorem IsWord.wordAt_append (h : IsWord kind lexeme) (hrest : StartsWithGap rest) :
    wordAt (lexeme ++ rest) = some (kind, lexeme) := by
  have hgap : ∀ c, isGap c = true → c = ' ' ∨ c = '\t' := by
    intro c hc
    simpa [isGap] using hc
  cases h with
  | @name c run hc hrun =>
    have htake := takeWhile_append_of_startsWithGap (p := isNameChar)
      (fun c hc => by rcases hgap c hc with rfl | rfl <;> rfl) hrun hrest
    rw [List.cons_append, wordAt, if_pos hc, htake]
  | operator operator =>
    have hequals : rest.head? ≠ some '=' := by
      intro heq
      have := hrest '=' (by rw [heq]; rfl)
      exact absurd this (by decide)
    cases operator <;> simp [wordAt, Operator.symbol, hequals]
  | string hcontent => exact wordAt_string hcontent rest
  | @integer c run hc hrun =>
    have htake := takeWhile_append_of_startsWithGap (p := Char.isDigit)
      (fun c hc => by rcases hgap c hc with rfl | rfl <;> rfl) hrun hrest
    obtain ⟨halpha, hequal, hless, hquote⟩ := not_isAlpha_of_isDigit hc
    rw [List.cons_append, wordAt, if_neg (by simp [halpha]), if_neg hequal, if_neg hless,
      if_neg hquote, if_pos hc, htake]

theorem IsWord.head_not_isGap (h : IsWord kind (c :: lexeme)) : isGap c = false := by
  rw [← Bool.not_eq_true]
  intro hgap
  have hcases : c = ' ' ∨ c = '\t' := by simpa [isGap] using hgap
  generalize htext : c :: lexeme = text at h
  cases h with
  | name hc _ =>
    cases htext
    rcases hcases with rfl | rfl <;> exact absurd hc (by decide)
  | operator operator =>
    rcases hcases with rfl | rfl <;> cases operator <;> cases htext
  | string _ =>
    cases htext
    rcases hcases with h | h <;> cases h
  | integer hc _ =>
    cases htext
    rcases hcases with rfl | rfl <;> exact absurd hc (by decide)

/-! ### Reading a line -/

theorem lexWords_nil (number column : Nat) : lexWords number column [] = ⟨[], column, none⟩ := by
  rw [lexWords]

theorem lexWords_gap (number column : Nat) (hc : isGap c = true) (rest : List Char) :
    lexWords number column (c :: rest) = lexWords number (column + 1) rest := by
  rw [lexWords, if_pos hc]

/-- A word before a blank or the end of the line is read, and the line goes on behind it. -/
theorem lexWords_word (number column : Nat) (h : IsWord kind lexeme) (hrest : StartsWithGap rest) :
    lexWords number column (lexeme ++ rest) =
      ⟨⟨kind, String.ofList lexeme, ⟨number, column⟩, ⟨number, column + lexeme.length⟩⟩ ::
          (lexWords number (column + lexeme.length) rest).tokens,
        (lexWords number (column + lexeme.length) rest).column,
        (lexWords number (column + lexeme.length) rest).error⟩ := by
  have hword := h.wordAt_append hrest
  cases lexeme with
  | nil => exact absurd rfl h.ne_nil
  | cons c lexeme =>
    have hdrop : (lexeme ++ rest).drop ((c :: lexeme).length - 1) = rest := by simp
    rw [List.cons_append] at hword ⊢
    rw [lexWords, if_neg (by simp [h.head_not_isGap]), hword]
    simp only [hdrop]

theorem lexWords_isWord (number column : Nat) (text : List Char) :
    ∀ token ∈ (lexWords number column text).tokens, IsWord token.kind token.lexeme.toList := by
  fun_induction lexWords number column text with
  | case1 column => simp
  | case2 column c rest hgap ih => exact ih
  | case3 column c rest hgap hword => simp
  | case4 column c rest hgap kind lexeme hword stop others ih =>
    intro token hmem
    rcases List.mem_cons.1 hmem with rfl | hmem
    · simpa using (wordAt_eq_some hword).1
    · exact ih token hmem

/-- A line that starts with anything but a blank has a word, or an error. -/
theorem lexWords_tokens_ne_nil (number column : Nat) (hc : isGap c = false)
    (h : (lexWords number column (c :: rest)).error = none) :
    (lexWords number column (c :: rest)).tokens ≠ [] := by
  rw [lexWords, if_neg (by simp [hc])] at h ⊢
  cases hword : wordAt (c :: rest) with
  | none =>
    rw [hword] at h
    cases h
  | some word => simp

end PythonLint.Ignore
