import PythonLint.Future
import PythonLint.Proofs.LineLocality
import PythonLint.Proofs.PrintMask.PrintTokens
import PythonLint.Proofs.Split
import Mathlib.Data.String.Basic

/-!
# The header of a module

The header of a module is a docstring, if any, and imports from the future, one after the other. The
features of a source are the names that the imports of its header list. What stands for a name there
is told from the rest of an import by its text alone, which is safe because no name is spelled like
a keyword, a parenthesis or a comma.

The first other statement ends the header. Its line is read to the end before anything is known
about it, but what comes after that line, whether it can be read or not, has no influence.

Main statements: `isNameText_of_mem_codeWords`, `futureImport?_of_isFutureImport`,
`futureFeatures_header`.
-/

namespace PythonLint

open Text

variable {source : List Char} {names : List String} {tokens : List Token} {part words : List Word}
  {name text : String}

/-! ### Sorted names -/

theorem mem_insertSorted {other : String} :
    other ∈ insertSorted name names ↔ other = name ∨ other ∈ names := by
  induction names with
  | nil => rw [insertSorted, List.mem_singleton, List.mem_nil_iff, or_false]
  | cons first rest ih =>
    rw [insertSorted]
    split
    · rw [List.mem_cons]
    · split
      · next heq => rw [heq, List.mem_cons, or_self_left]
      · rw [List.mem_cons, ih, List.mem_cons, or_left_comm]

theorem pairwise_insertSorted (h : names.Pairwise (· < ·)) (name : String) :
    (insertSorted name names).Pairwise (· < ·) := by
  induction names with
  | nil => exact List.pairwise_singleton _ _
  | cons first rest ih =>
    obtain ⟨hfirst, hrest⟩ := List.pairwise_cons.1 h
    rw [insertSorted]
    split
    · next hlt =>
      refine List.pairwise_cons.2 ⟨List.forall_mem_cons.2 ⟨hlt, fun other hmem => ?_⟩, h⟩
      exact hlt.trans (hfirst other hmem)
    · next hnot =>
      split
      · exact h
      · next hne =>
        refine List.pairwise_cons.2 ⟨fun other hmem => ?_, ih hrest⟩
        rcases mem_insertSorted.1 hmem with rfl | hmem
        · exact lt_of_le_of_ne (not_lt.1 hnot) (Ne.symm hne)
        · exact hfirst other hmem

theorem mem_sortedNames : name ∈ sortedNames names ↔ name ∈ names := by
  induction names with
  | nil => exact Iff.rfl
  | cons first rest ih =>
    rw [sortedNames, List.foldr_cons, ← sortedNames, mem_insertSorted, ih, List.mem_cons]

theorem pairwise_sortedNames (names : List String) : (sortedNames names).Pairwise (· < ·) := by
  induction names with
  | nil => exact .nil
  | cons first rest ih => exact pairwise_insertSorted ih first

/-! ### Names of a source -/

/-- The text is neither the keyword of an alias nor has it a character that separates names. -/
def IsNameText (text : String) : Prop :=
  text ≠ "as" ∧ '(' ∉ text.toList ∧ ')' ∉ text.toList ∧ ',' ∉ text.toList

instance (text : String) : Decidable (IsNameText text) :=
  inferInstanceAs (Decidable (_ ∧ _))

/-- What is read as a name can be the name of an import. -/
theorem isNameText_of_piece {depth : Nat} {c : Char} {rest : List Char} {size : Nat}
    (h : scanPiece depth c rest = .ok (some (.name text), size)) : IsNameText text := by
  rcases (isPiece_of_scanPiece h).text_cases
    (.inl rfl) with ⟨htok, hword, -⟩ | ⟨hword, hc, -⟩ | ⟨-, htok, -⟩
  · have hpart : ∀ d, isIdentifierPart d = false → d ∉ text.toList := by
      intro d hd hmem
      rw [hword] at hmem
      rw [List.mem_takeWhile_imp hmem] at hd
      cases hd
    refine ⟨?_, hpart _ (by decide), hpart _ (by decide), hpart _ (by decide)⟩
    rintro rfl
    exact absurd htok (by decide)
  · have hother : ∀ d, isEmoji d = false → d ∉ text.toList := by
      intro d hd hmem
      rw [hword, List.mem_singleton] at hmem
      rw [hmem, hc] at hd
      cases hd
    refine ⟨?_, hother _ (by decide), hother _ (by decide), hother _ (by decide)⟩
    rintro rfl
    cases hword
  · cases htok

theorem isNameText_of_softKeyword : ∀ word ∈ softKeywords, IsNameText word := by decide

/-- A word among the lexemes of a source is spelled there as it was read. -/
theorem exists_piece_of_mem_scanAt {lexeme : Lexeme}
    (hmem : lexeme ∈ (scanAt 0 (untabify source)).lexemes) (hends : endsLine lexeme.tok = false) :
    Spelled source lexeme ∧ ∃ depth c rest size,
      scanPiece depth c rest = .ok (some lexeme.tok, size) := by
  obtain ⟨front, back, hlexemes⟩ := List.append_of_mem hmem
  obtain ⟨mark, text, hcopy, -, hscan⟩ := scanAt_eq_scanFrom (untabify source)
  rw [hscan] at hlexemes
  rcases comesTo_of_scanFrom hlexemes (Tok.not_isBlockMark_of_endsLine hends) with
    ⟨read, c, word, rest, last, rfl, -, -, hpiece, hstart, hstop⟩ | ⟨hnewline, -⟩
  · have hsame := untabify_sameOrTab source
    rw [hcopy, ← List.append_assoc] at hsame
    have hspelled := spelled_of_piece hsame hpiece
    rw [← hstart, ← hstop] at hspelled
    exact ⟨hspelled, last.depth, c, word ++ rest, word.length + 1, hpiece⟩
  · exact absurd hnewline (Tok.ne_newline_of_endsLine hends)

theorem isNameText_of_lexeme {lexeme : Lexeme}
    (hmem : lexeme ∈ (scanModule (untabify source)).lexemes) {word : String}
    (htok : lexeme.tok = .name word) :
    IsNameText word ∧ sliceBytes source lexeme.start lexeme.stop = word.toList := by
  obtain ⟨raw, hraw, hsoft⟩ := exists_of_mem_forall₂ (resolveSoftKeywords_softened true _) hmem
  rcases hsoft with rfl | ⟨soft, hcontains, hkeyword, rfl⟩
  · obtain ⟨hspelled, depth, c, rest, size, hpiece⟩ :=
      exists_piece_of_mem_scanAt hraw (by rw [htok]; rfl)
    rw [htok] at hpiece
    exact ⟨isNameText_of_piece hpiece, hspelled.spelled word (.inl htok)⟩
  · cases htok
    obtain ⟨hspelled, -⟩ := exists_piece_of_mem_scanAt hraw (by rw [hkeyword]; rfl)
    exact ⟨isNameText_of_softKeyword _ (List.contains_iff_mem.1 hcontains),
      hspelled.spelled word (.inr (.inl hkeyword))⟩

theorem exists_name_of_kindOf {tok : Tok} (h : kindOf tok = .name) : ∃ word, tok = .name word := by
  cases tok with
  | name word => exact ⟨word, rfl⟩
  | _ => cases h

theorem isNameText_of_mem_codeWords (h : ⟨.name, text⟩ ∈ codeWords (tokenize source).tokens) :
    IsNameText text := by
  rw [codeWords_eq, List.mem_filterMap] at h
  obtain ⟨piece, hmem, hword⟩ := h
  have hsource : piece ∈ sourcePieces source := by
    rcases List.mem_append.1 ((toPiece_tokenize_isPrefix source).subset hmem) with hmem | hmem
    · exact hmem
    · rw [List.mem_singleton.1 hmem] at hword
      cases hword
  obtain ⟨front, back, hpieces⟩ := List.append_of_mem hsource
  obtain ⟨before, lexeme, after, code, hlexemes, rfl, -⟩ := exists_lexeme_of_piecesOf hpieces
  rw [word?_pieceOf, Lexeme.word?] at hword
  split at hword
  · cases hword
  · obtain ⟨hkind, rfl⟩ := Word.mk.inj (Option.some.inj hword)
    obtain ⟨word, htok⟩ := exists_name_of_kindOf hkind
    have hlexeme : lexeme ∈ (scanModule (untabify source)).lexemes :=
      hlexemes ▸ List.mem_append_right before List.mem_cons_self
    obtain ⟨hname, hslice⟩ := isNameText_of_lexeme hlexeme htok
    rw [hslice, String.ofList_toList]
    exact hname

/-! ### Headers -/

/-- The word ends a simple statement, as the end of the source does. -/
def Word.EndsPart (word : Word) : Prop :=
  word.kind = .newline ∨ word.lexeme = ";" ∨ word.kind = .endMarker

instance (word : Word) : Decidable word.EndsPart :=
  inferInstanceAs (Decidable (_ ∨ _))

/-- The words are laid out as simple statements, with any words that end statements between them and
after them. -/
inductive HasParts : List (List Word) → List Word → Prop
  | nothing : HasParts [] []
  | separator {parts : List (List Word)} {word : Word} {rest : List Word} (hends : word.EndsPart)
      (hrest : HasParts parts rest) : HasParts parts (word :: rest)
  | part {part : List Word} {parts : List (List Word)} {word : Word} {rest : List Word}
      (hne : part ≠ []) (hpart : ∀ other ∈ part, ¬other.EndsPart) (hends : word.EndsPart)
      (hrest : HasParts parts rest) : HasParts (part :: parts) (part ++ word :: rest)

/-- One item of an import, and the name that it imports. -/
inductive IsImportItem : List Word → String → Prop
  | plain (name : String) : IsImportItem [⟨.name, name⟩] name
  | aliased (name other : String) :
      IsImportItem [⟨.name, name⟩, ⟨.keyword, "as"⟩, ⟨.name, other⟩] name

/-- Items with commas between them, and the names that they import. -/
inductive IsImportList : List Word → List String → Prop
  | single {item : List Word} {name : String} (hitem : IsImportItem item name) :
      IsImportList item [name]
  | cons {item rest : List Word} {name : String} {names : List String}
      (hitem : IsImportItem item name) (hrest : IsImportList rest names) :
      IsImportList (item ++ ⟨.op, ","⟩ :: rest) (name :: names)

/-- Items with commas between them, and perhaps one more comma at the end. -/
inductive IsImportBody : List Word → List String → Prop
  | bare {items : List Word} {names : List String} (hitems : IsImportList items names) :
      IsImportBody items names
  | trailing {items : List Word} {names : List String} (hitems : IsImportList items names) :
      IsImportBody (items ++ [⟨.op, ","⟩]) names

/-- The words that an import from the future starts with. -/
def futureOpening : List Word :=
  [⟨.keyword, "from"⟩, ⟨.name, "__future__"⟩, ⟨.keyword, "import"⟩]

/-- An import from the future, and the names that it imports. -/
inductive IsFutureImport : List Word → List String → Prop
  | bare {body : List Word} {names : List String} (hbody : IsImportBody body names) :
      IsFutureImport (futureOpening ++ body) names
  | parenthesised {body : List Word} {names : List String} (hbody : IsImportBody body names) :
      IsFutureImport (futureOpening ++ (⟨.op, "("⟩ :: body ++ [⟨.op, ")"⟩])) names

/-- Imports from the future, and the names that they import. -/
inductive AreFutureImports : List (List Word) → List String → Prop
  | nil : AreFutureImports [] []
  | cons {part : List Word} {parts : List (List Word)} {names more : List String}
      (hpart : IsFutureImport part names) (hparts : AreFutureImports parts more) :
      AreFutureImports (part :: parts) (names ++ more)

/-- The statements of a header, and the names that it imports: imports from the future, perhaps
after a docstring. -/
inductive IsHeader : List (List Word) → List String → Prop
  | bare {parts : List (List Word)} {names : List String} (hparts : AreFutureImports parts names) :
      IsHeader parts names
  | documented {docstring : List Word} {parts : List (List Word)} {names : List String}
      (hdocstring : ∀ word ∈ docstring, word.kind = .string)
      (hparts : AreFutureImports parts names) : IsHeader (docstring :: parts) names

/-- What follows the statements `parts` of a header: nothing, or another statement, which does not
start like an import from the future. A statement of strings is a docstring unless a statement comes
before it. -/
inductive EndsHeader (parts : List (List Word)) : List Word → Prop
  | nothing : EndsHeader parts []
  | other {other : List Word} {word : Word} {rest : List Word} (hne : other ≠ [])
      (hpart : ∀ word ∈ other, ¬word.EndsPart) (hends : word.EndsPart)
      (hfuture : ¬futureOpening.map Word.lexeme <+: other.map Word.lexeme)
      (hdocstring : parts = [] → ∃ word ∈ other, word.kind ≠ .string) :
      EndsHeader parts (other ++ word :: rest)

/-! ### Reading imports -/

/-- The names of a list of items, of which each one starts with its name. -/
def itemNames (words : List String) : List String :=
  (splitOn (· == ",") words).filterMap fun item => item.head?.filter (· ≠ "as")

theorem itemNames_comma (a b : List String) :
    itemNames (a ++ "," :: b) = itemNames a ++ itemNames b := by
  rw [itemNames, splitOn_append_cons rfl, List.filterMap_append]
  rfl

theorem itemNames_item {rest : List String} (has : name ≠ "as")
    (hcomma : ∀ word ∈ name :: rest, word ≠ ",") : itemNames (name :: rest) = [name] := by
  have hone : splitOn (· == ",") (name :: rest) = [name :: rest] :=
    splitOn_eq_singleton fun word hmem => by simpa using hcomma word hmem
  have hname : ((name :: rest).head?.filter (· ≠ "as")) = some name := by simp [Option.filter, has]
  rw [itemNames, hone]
  simp only [List.filterMap_cons, hname, List.filterMap_nil]

/-- The names among words are told from the words around them. -/
def NamesTold (words : List Word) : Prop :=
  ∀ name, ⟨.name, name⟩ ∈ words → IsNameText name

theorem NamesTold.mono {a b : List Word} (h : NamesTold b) (hab : a ⊆ b) : NamesTold a :=
  fun name hmem => h name (hab hmem)

/-- A name is spelled unlike a comma or a parenthesis. -/
theorem IsNameText.ne (h : IsNameText text) : text ≠ "," ∧ text ≠ "(" ∧ text ≠ ")" := by
  obtain ⟨-, hopen, hclose, hcomma⟩ := h
  refine ⟨?_, ?_, ?_⟩
  · rintro rfl
    exact hcomma (by decide)
  · rintro rfl
    exact hopen (by decide)
  · rintro rfl
    exact hclose (by decide)

/-- A word of an import is a name, the keyword of an alias or a comma. -/
def IsImportWord (word : Word) : Prop :=
  word.kind = .name ∨ word.lexeme = "as" ∨ word.lexeme = ","

namespace IsImportItem

variable {item : List Word} {name : String}

theorem isImportWord (h : IsImportItem item name) : ∀ word ∈ item, IsImportWord word := by
  cases h with
  | plain => exact List.forall_mem_singleton.2 (.inl rfl)
  | aliased =>
    exact List.forall_mem_cons.2 ⟨.inl rfl,
      List.forall_mem_cons.2 ⟨.inr (.inl rfl), List.forall_mem_singleton.2 (.inl rfl)⟩⟩

theorem itemNames_eq (h : IsImportItem item name) (htold : NamesTold item) :
    itemNames (item.map Word.lexeme) = [name] := by
  have hname : IsNameText name := by
    cases h <;> exact htold name List.mem_cons_self
  cases h with
  | plain => exact itemNames_item hname.1 (List.forall_mem_singleton.2 hname.ne.1)
  | aliased _ other =>
    have hother := htold other (by simp)
    refine itemNames_item hname.1
      (List.forall_mem_cons.2 ⟨hname.ne.1, List.forall_mem_cons.2 ⟨by decide, ?_⟩⟩)
    exact List.forall_mem_singleton.2 hother.ne.1

end IsImportItem

namespace IsImportList

variable {items : List Word} {names : List String}

theorem isImportWord (h : IsImportList items names) : ∀ word ∈ items, IsImportWord word := by
  induction h with
  | single hitem => exact hitem.isImportWord
  | cons hitem _ ih =>
    exact List.forall_mem_append.2 ⟨hitem.isImportWord,
      List.forall_mem_cons.2 ⟨.inr (.inr rfl), ih⟩⟩

theorem itemNames_eq (h : IsImportList items names) (htold : NamesTold items) :
    itemNames (items.map Word.lexeme) = names := by
  induction h with
  | single hitem => exact hitem.itemNames_eq htold
  | cons hitem _ ih =>
    rw [List.map_append, List.map_cons, itemNames_comma, hitem.itemNames_eq (htold.mono (by simp)),
      ih (htold.mono (by simp))]
    rfl

end IsImportList

namespace IsImportBody

variable {body : List Word} {names : List String}

theorem isImportWord (h : IsImportBody body names) : ∀ word ∈ body, IsImportWord word := by
  cases h with
  | bare hitems => exact hitems.isImportWord
  | trailing hitems =>
    exact List.forall_mem_append.2 ⟨hitems.isImportWord,
      List.forall_mem_singleton.2 (.inr (.inr rfl))⟩

theorem itemNames_eq (h : IsImportBody body names) (htold : NamesTold body) :
    itemNames (body.map Word.lexeme) = names := by
  cases h with
  | bare hitems => exact hitems.itemNames_eq htold
  | trailing hitems =>
    rw [List.map_append, List.map_singleton, itemNames_comma,
      hitems.itemNames_eq (htold.mono (by simp))]
    exact List.append_nil names

/-- The names of an import are the same with parentheses around them. -/
theorem importedWords_eq (h : IsImportBody body names) (htold : NamesTold body) :
    importedWords (body.map Word.lexeme) = names ∧
      importedWords ("(" :: body.map Word.lexeme ++ [")"]) = names := by
  have hparen : ∀ text ∈ body.map Word.lexeme, (text ≠ "(" && text ≠ ")") = true := by
    refine List.forall_mem_map.2 fun word hmem => ?_
    rcases h.isImportWord word hmem with hkind | htext | htext
    · obtain ⟨kind, text⟩ := word
      cases hkind
      simp [(htold text hmem).ne]
    · rw [htext]
      decide
    · rw [htext]
      decide
  have hfilter := List.filter_eq_self.2 hparen
  constructor
  · rw [importedWords, hfilter]
    exact h.itemNames_eq htold
  · rw [importedWords, List.cons_append, List.filter_cons_of_neg (by decide),
      List.filter_append, hfilter, List.filter_cons_of_neg (by decide), List.filter_nil,
      List.append_nil]
    exact h.itemNames_eq htold

end IsImportBody

/-- The token without its place. -/
def Token.word (token : Token) : Word :=
  ⟨token.kind, token.lexeme⟩

theorem lexemes_of_map_word (h : tokens.map Token.word = words) :
    (tokens.map fun token => token.lexeme) = words.map Word.lexeme := by
  rw [← h, List.map_map]
  rfl

theorem futureImport?_of_isFutureImport (h : IsFutureImport part names) (htold : NamesTold part)
    (htokens : tokens.map Token.word = part) : futureImport? tokens = some names := by
  rw [futureImport?, lexemes_of_map_word htokens]
  cases h with
  | bare hbody =>
    have himported := (hbody.importedWords_eq (htold.mono (List.subset_append_right _ _))).1
    exact congrArg some himported
  | @parenthesised body _ hbody =>
    have hbodyTold : NamesTold body := htold.mono fun word hmem => by simp [hmem]
    have himported := (hbody.importedWords_eq hbodyTold).2
    simpa [futureOpening] using himported

/-- A statement that does not start like an import from the future is none. -/
theorem futureImport?_eq_none (h : ¬futureOpening.map Word.lexeme <+: part.map Word.lexeme)
    (htokens : tokens.map Token.word = part) : futureImport? tokens = none := by
  rw [futureImport?, lexemes_of_map_word htokens]
  split
  · next words hwords =>
    refine absurd ?_ h
    rw [hwords]
    exact ⟨words, rfl⟩
  · rfl

/-! ### Reading headers -/

/-- The simple statements of tokens without marks of blocks. -/
def partsOf (tokens : List Token) : List (List Token) :=
  (splitOn Token.endsPart tokens).filter fun part => !part.isEmpty

theorem endsPart_iff {token : Token} : token.endsPart = true ↔ token.word.EndsPart := by
  simp only [Token.endsPart, Bool.or_eq_true, beq_iff_eq, Word.EndsPart, Token.word]
  tauto

theorem partsOf_append {token : Token} (h : token.word.EndsPart) (front back : List Token) :
    partsOf (front ++ token :: back) = partsOf front ++ partsOf back := by
  rw [partsOf, splitOn_append_cons (endsPart_iff.2 h), List.filter_append]
  rfl

theorem partsOf_part {part : List Token} (hne : part ≠ [])
    (h : ∀ word ∈ part.map Token.word, ¬word.EndsPart) : partsOf part = [part] := by
  have hone : splitOn Token.endsPart part = [part] := splitOn_eq_singleton fun token hmem => by
    rw [← Bool.not_eq_true, endsPart_iff]
    exact h _ (List.mem_map_of_mem hmem)
  rw [partsOf, hone, List.filter_cons_of_pos (by simpa using hne), List.filter_nil]

/-- The statements that words are laid out as come first, before those of the tokens after them. -/
theorem HasParts.exists_partsOf {parts : List (List Word)} (h : HasParts parts words)
    {front : List Token} (hfront : front.map Token.word = words) (back : List Token) :
    ∃ first, first.map (List.map Token.word) = parts ∧
      partsOf (front ++ back) = first ++ partsOf back := by
  induction h generalizing front with
  | nothing =>
    rw [List.map_eq_nil_iff.1 hfront]
    exact ⟨[], rfl, rfl⟩
  | separator hends _ ih =>
    obtain ⟨token, front, rfl, rfl, hrest⟩ := List.map_eq_cons_iff.1 hfront
    obtain ⟨first, hfirst, hparts⟩ := ih hrest
    exact ⟨first, hfirst, (partsOf_append hends [] (front ++ back)).trans hparts⟩
  | part hne hpart hends _ ih =>
    obtain ⟨part, others, rfl, rfl, hothers⟩ := List.map_eq_append_iff.1 hfront
    obtain ⟨token, front, rfl, rfl, hrest⟩ := List.map_eq_cons_iff.1 hothers
    obtain ⟨first, hfirst, hparts⟩ := ih hrest
    refine ⟨part :: first, by rw [List.map_cons, hfirst], ?_⟩
    rw [List.append_assoc, List.cons_append, partsOf_append hends, hparts,
      partsOf_part (fun hnil => hne (by rw [hnil]; rfl)) hpart]
    rfl

theorem AreFutureImports.headerImports_eq {parts : List (List Word)}
    (h : AreFutureImports parts names) (htold : ∀ part ∈ parts, NamesTold part)
    {first : List (List Token)} (hfirst : first.map (List.map Token.word) = parts)
    (rest : List (List Token)) : headerImports (first ++ rest) = names ++ headerImports rest := by
  induction h generalizing first with
  | nil =>
    rw [List.map_eq_nil_iff.1 hfirst]
    rfl
  | cons hpart _ ih =>
    obtain ⟨tokens, first, rfl, htokens, hrest⟩ := List.map_eq_cons_iff.1 hfirst
    obtain ⟨hpartTold, hothers⟩ := List.forall_mem_cons.1 htold
    rw [List.cons_append, headerImports, futureImport?_of_isFutureImport hpart hpartTold htokens]
    simp only [ih hothers hrest, List.append_assoc]

namespace EndsHeader

variable {parts : List (List Word)} {rest : List Word} {back : List Token}

/-- What follows a header starts with a statement that is none of it, if there is any. -/
theorem partsOf_cases (h : EndsHeader parts rest) (hback : back.map Token.word = rest) :
    partsOf back = [] ∨ ∃ other others, partsOf back = other :: others ∧
      futureImport? other = none ∧ (parts = [] → isDocstring other = false) := by
  cases h with
  | nothing =>
    rw [List.map_eq_nil_iff.1 hback]
    exact .inl rfl
  | @other words word rest hne hpart hends hfuture hdocstring =>
    obtain ⟨other, others, rfl, rfl, hothers⟩ := List.map_eq_append_iff.1 hback
    obtain ⟨token, others, rfl, rfl, -⟩ := List.map_eq_cons_iff.1 hothers
    refine .inr ⟨other, partsOf others, ?_, futureImport?_eq_none hfuture rfl, fun hparts => ?_⟩
    · rw [partsOf_append hends, partsOf_part (fun hnil => hne (by rw [hnil]; rfl)) hpart]
      rfl
    · obtain ⟨word, hmem, hkind⟩ := hdocstring hparts
      obtain ⟨token, htoken, rfl⟩ := List.mem_map.1 hmem
      rw [isDocstring, List.all_eq_false]
      exact ⟨token, htoken, by simpa [Token.word] using hkind⟩

theorem headerImports_eq_nil (h : EndsHeader parts rest) (hback : back.map Token.word = rest) :
    headerImports (partsOf back) = [] := by
  rcases h.partsOf_cases hback with hnil | ⟨other, others, hcons, hnone, -⟩
  · rw [hnil]
    rfl
  · rw [hcons, headerImports, hnone]

end EndsHeader

theorem IsFutureImport.isDocstring_eq_false (h : IsFutureImport part names)
    (htokens : tokens.map Token.word = part) : isDocstring tokens = false := by
  have hopening : ∃ words, part = ⟨.keyword, "from"⟩ :: words := by
    cases h <;> exact ⟨_, rfl⟩
  obtain ⟨words, rfl⟩ := hopening
  obtain ⟨token, others, rfl, htoken, -⟩ := List.map_eq_cons_iff.1 htokens
  have hkind : token.kind = .keyword := congrArg Word.kind htoken
  simp [isDocstring, hkind]

theorem codeWords_append (a b : List Token) : codeWords (a ++ b) = codeWords a ++ codeWords b :=
  List.filterMap_append

theorem codeWords_cons_newline {newline : Token} (h : newline.kind = .newline)
    (tokens : List Token) : codeWords (newline :: tokens) = newline.word :: codeWords tokens := by
  have hword : newline.toPiece.word? = some newline.word := by
    rw [Piece.word?, h, Token.word, h]
    rfl
  rw [codeWords, List.filterMap_cons, hword]
  rfl

theorem codeWords_eq_map (tokens : List Token) :
    codeWords tokens = (tokens.filter fun token => !token.kind.isBlockMark).map Token.word := by
  induction tokens with
  | nil => rfl
  | cons token tokens ih =>
    rw [codeWords, List.filterMap_cons, ← codeWords, ih, Piece.word?]
    cases hmark : token.kind.isBlockMark with
    | true => rw [List.filter_cons_of_neg (by simp [hmark]), if_pos rfl]
    | false => rw [List.filter_cons_of_pos (by simp [hmark]), if_neg Bool.false_ne_true]; rfl

theorem HasParts.subset {parts : List (List Word)} (h : HasParts parts words) :
    ∀ part ∈ parts, part ⊆ words := by
  induction h with
  | nothing => exact List.forall_mem_nil _
  | separator _ _ ih => exact fun part hmem => List.subset_cons_of_subset _ (ih part hmem)
  | part _ _ _ _ ih =>
    refine List.forall_mem_cons.2 ⟨List.subset_append_left _ _, fun part hmem => ?_⟩
    exact List.subset_append_of_subset_right _ (List.subset_cons_of_subset _ (ih part hmem))

/-- Only a header that starts with a docstring is read as one that does. -/
theorem isDocstring_head? {parts : List (List Word)} {rest : List Word}
    (h : AreFutureImports parts names) (hrest : EndsHeader parts rest) {first : List (List Token)}
    (hfirst : first.map (List.map Token.word) = parts) {back : List Token}
    (hback : back.map Token.word = rest) :
    (first ++ partsOf back).head?.any isDocstring = false := by
  cases h with
  | nil =>
    rw [List.map_eq_nil_iff.1 hfirst]
    rcases hrest.partsOf_cases hback with hnil | ⟨other, others, hcons, -, hdocstring⟩
    · rw [hnil]
      rfl
    · rw [hcons]
      exact hdocstring rfl
  | cons hpart _ =>
    obtain ⟨tokens, others, rfl, htokens, -⟩ := List.map_eq_cons_iff.1 hfirst
    exact hpart.isDocstring_eq_false htokens

theorem futureFeatures_eq {header rest : List Word} {parts : List (List Word)}
    (hwords : codeWords (tokenize source).tokens = header ++ rest) (hparts : HasParts parts header)
    (hheader : IsHeader parts names) (hrest : EndsHeader parts rest) :
    futureFeatures source = sortedNames names := by
  have htold : ∀ part ∈ parts, NamesTold part := by
    intro part hmem name hname
    have hcode := List.mem_append_left rest (hparts.subset part hmem hname)
    rw [← hwords] at hcode
    exact isNameText_of_mem_codeWords hcode
  -- The words are those of the tokens that are split into statements, so the header is a part of
  -- these tokens.
  rw [codeWords_eq_map] at hwords
  obtain ⟨front, back, hcode, hfront, hback⟩ := List.map_eq_append_iff.1 hwords
  obtain ⟨first, hfirst, hsplit⟩ := hparts.exists_partsOf hfront back
  have hstatements : headerParts (tokenize source).tokens = first ++ partsOf back := by
    rw [← hsplit, ← hcode]
    rfl
  rw [futureFeatures, featuresOfTokens, hstatements]
  cases hheader with
  | bare himports =>
    rw [isDocstring_head? himports hrest hfirst hback]
    simp only [Bool.false_eq_true, if_false]
    rw [himports.headerImports_eq htold hfirst, hrest.headerImports_eq_nil hback, List.append_nil]
  | documented hdocstring himports =>
    obtain ⟨docstring, first, rfl, rfl, hothers⟩ := List.map_eq_cons_iff.1 hfirst
    have hread : isDocstring docstring = true := by
      rw [isDocstring, List.all_eq_true]
      exact fun token hmem => beq_iff_eq.2 (hdocstring token.word (List.mem_map_of_mem hmem))
    have htold := (List.forall_mem_cons.1 htold).2
    simp only [List.cons_append, List.head?_cons, Option.any_some, hread, if_true, List.tail_cons]
    rw [himports.headerImports_eq htold hothers, hrest.headerImports_eq_nil hback, List.append_nil]

/-- What follows a header still ends it when the text after the line of the next statement is
exchanged. -/
theorem EndsHeader.exchange {parts : List (List Word)} {line back back' : List Word}
    {newline newline' : Word} (h : EndsHeader parts (line ++ newline :: back))
    (hnewline : newline.EndsPart) (hnewline' : newline'.EndsPart) :
    EndsHeader parts (line ++ newline' :: back') := by
  generalize hrest : line ++ newline :: back = rest at h
  cases h with
  | nothing => exact absurd hrest (by simp)
  | @other other word rest hne hpart hends hfuture hdocstring =>
    -- No word of the other statement is the newline, so all of them are on the line, which is not
    -- exchanged.
    obtain ⟨more, rfl, hmore⟩ :=
      exists_append_of_not_mem hrest.symm fun hmem => hpart newline hmem hnewline
    rw [List.append_assoc]
    cases more with
    | nil => exact .other hne hpart hnewline' hfuture hdocstring
    | cons next more =>
      cases hmore
      exact .other hne hpart hends hfuture hdocstring

/-- The features of a source that starts with a header are exactly the names that the header
imports, in order and each once. The header ends with the source or before another statement. If the
line of that statement has an end, the features stay the same whatever follows that line, even text
that cannot be read. -/
theorem futureFeatures_header {source : List Char} {header rest : List Word}
    {parts : List (List Word)} {names : List String}
    (hwords : codeWords (tokenize source).tokens = header ++ rest) (hparts : HasParts parts header)
    (hheader : IsHeader parts names) (hrest : EndsHeader parts rest) :
    (futureFeatures source).Pairwise (· < ·) ∧
    (∀ feature, feature ∈ futureFeatures source ↔ feature ∈ names) ∧
      ∀ (front back : List Token) (newline : Token) (line : List Word),
        (tokenize source).tokens = front ++ newline :: back → newline.kind = .newline →
        newline.lexeme ≠ "" → codeWords front = header ++ line →
        ∀ after, futureFeatures (textBetween source Location.origin newline.stop ++ after) =
          futureFeatures source := by
  have hfeatures := futureFeatures_eq hwords hparts hheader hrest
  refine ⟨hfeatures ▸ pairwise_sortedNames names,
    fun feature => by rw [hfeatures, mem_sortedNames], ?_⟩
  intro front back newline line htokens hkind hlexeme hfront after
  obtain ⟨ending, more, hexchanged⟩ := codeWords_line htokens hkind hlexeme after
  rw [hfront, List.append_assoc] at hexchanged
  have hline : rest = line ++ newline.word :: codeWords back := by
    rw [htokens, codeWords_append, codeWords_cons_newline hkind, hfront,
      List.append_assoc] at hwords
    exact (List.append_cancel_left hwords).symm
  rw [hline] at hrest
  rw [hfeatures,
    futureFeatures_eq hexchanged hparts hheader (hrest.exchange (.inl hkind) (.inl rfl))]

/-- A docstring of two strings, an alias, a name that is a keyword elsewhere, a name that is
imported twice, and a text that has no tokens after the line of the first other statement. -/
theorem futureFeatures_header_mixed :
    let text :=
      ("'a' 'b'; from __future__ import (division as d, match,)\n" ++
        "from __future__ import division;\n  x = d; y\n").toList
    ∃ header rest parts names, codeWords (tokenize (text ++ [')'])).tokens = header ++ rest ∧
      HasParts parts header ∧
      IsHeader parts names ∧ EndsHeader parts rest ∧ names = ["division", "match", "division"] ∧
      (tokenize (text ++ [')'])).error ≠ none ∧
        futureFeatures (text ++ [')']) = ["division", "match"] ∧
      ∀ after, futureFeatures (text ++ after) = ["division", "match"] := by
  intro text
  let opened : Word := ⟨.op, "("⟩
  let docstring : List Word := [⟨.string, "'a'"⟩, ⟨.string, "'b'"⟩]
  let aliased : List Word := [⟨.name, "division"⟩, ⟨.keyword, "as"⟩, ⟨.name, "d"⟩]
  let items : List Word := aliased ++ ⟨.op, ","⟩ :: [⟨.name, "match"⟩]
  let first : List Word := futureOpening ++ (opened :: (items ++ [⟨.op, ","⟩]) ++ [⟨.op, ")"⟩])
  let second : List Word := futureOpening ++ [⟨.name, "division"⟩]
  let header : List Word :=
    docstring ++ ⟨.op, ";"⟩ ::
    (first ++ ⟨.newline, "\n"⟩ :: (second ++ ⟨.op, ";"⟩ :: [⟨.newline, "\n"⟩]))
  let other : List Word := [⟨.name, "x"⟩, ⟨.op, "="⟩, ⟨.name, "d"⟩]
  let rest : List Word := other ++ ⟨.op, ";"⟩ :: [⟨.name, "y"⟩, ⟨.newline, "\n"⟩]
  let tokens := (tokenize (text ++ [')'])).tokens
  let newline : Token := ⟨⟨.newline, "\n", ⟨3, 10⟩, ⟨3, 11⟩⟩, ⟨3, 3⟩, "  x = d; y"⟩
  obtain ⟨hwords, herror, htokens, hline⟩ : codeWords tokens = header ++ rest ∧
      (tokenize (text ++ [')'])).error ≠ none ∧
        tokens = tokens.take 27 ++ newline :: tokens.drop 28 ∧
      codeWords (tokens.take 27) = header ++ (other ++ [⟨.op, ";"⟩, ⟨.name, "y"⟩]) := by
        decide +kernel
  have hparts : HasParts [docstring, first, second] header :=
    .part (by decide) (by decide) (by decide)
      (.part (by decide) (by decide) (by decide) (.part (by decide) (by decide)
      (by decide) (.separator (by decide) .nothing)))
  have hfirst : IsFutureImport first ["division", "match"] :=
    .parenthesised (.trailing (.cons (.aliased "division" "d") (.single (.plain "match"))))
  have hsecond : IsFutureImport second ["division"] := .bare (.bare (.single (.plain "division")))
  have hheader : IsHeader [docstring, first, second] ["division", "match", "division"] :=
    .documented (by decide) (.cons hfirst (.cons hsecond .nil))
  have hrest : EndsHeader [docstring, first, second] rest :=
    .other (by decide) (by decide) (by decide) (by decide) (by simp)
  have hfeatures : futureFeatures (text ++ [')']) = ["division", "match"] :=
    futureFeatures_eq hwords hparts hheader hrest
  have htext : textBetween (text ++ [')']) Location.origin newline.stop = text := by decide +kernel
  have hlocal :=
    (futureFeatures_header hwords hparts hheader hrest).2.2 _ _ newline _ htokens rfl
    (by decide) hline
  refine ⟨header, rest, _, _, hwords, hparts, hheader, hrest, rfl, herror, hfeatures,
    fun after => ?_⟩
  rw [← hfeatures, ← hlocal after, htext]

end PythonLint
