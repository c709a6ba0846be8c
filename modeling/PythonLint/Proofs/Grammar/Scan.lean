import PythonLint.Lexeme.SoftKeyword
import PythonLint.Proofs.Grammar.Yields
import PythonLint.Proofs.LexemeOrder
import PythonLint.Proofs.Piece

/-!
# Scanning a text without slashes

A symbol is spelled in the text, and the content of a string literal consists of characters of the
text and of line feeds. So a text without slashes has no slash among its tokens and none in its
strings.

Main statements: `slashFree_of_scanBody`, `slashFree_of_scanPiece`, `slashFree_scanModule`,
`slashFree_scanExpression`.
-/

namespace PythonLint

open Text

variable {text : List Char} {size : Nat} {tok : Tok}

/-! ### Pieces -/

theorem slashFree_of_withContent {chars content : List Char}
    {scanned : Except (Fault × Nat) (List Char × Nat)} (hchars : '/' ∉ chars)
    (hscanned : ∀ {size content}, scanned = .ok (content, size) → '/' ∉ content)
    (h : withContent chars scanned = .ok (content, size)) : '/' ∉ content := by
  unfold withContent at h
  split at h
  · cases h
    rw [List.mem_append, not_or]
    exact ⟨hchars, hscanned rfl⟩
  · cases h

/-- The content of a literal consists of characters of the text and of line feeds. -/
theorem slashFree_of_scanBody {quote : Char} {triple : Bool} {before : Nat} {content : List Char}
    (h : scanBody quote triple text before = .ok (content, size)) (htext : '/' ∉ text) :
    '/' ∉ content := by
  fun_induction scanBody quote triple text before generalizing content size with
  | case1 => cases h
  | case2 rest before ih =>
    simp only [List.mem_cons, not_or] at htext
    exact slashFree_of_withContent (by decide) (fun hrest => ih hrest htext.2.2.2) h
  | case3 c rest before _ ih =>
    simp only [List.mem_cons, not_or] at htext
    refine slashFree_of_withContent ?_ (fun hrest => ih hrest htext.2.2) h
    split
    · decide
    · simpa using htext.2.1
  | case4 rest before _ ih =>
    simp only [List.mem_cons, not_or] at htext
    exact slashFree_of_withContent (by decide) (fun hrest => ih hrest htext.2.2) h
  | case5 => cases h
  | case6 c rest before _ _ _ _ _ ih =>
    rw [List.mem_cons, not_or] at htext
    exact slashFree_of_withContent (by decide) (fun hrest => ih hrest htext.2) h
  | case7 => cases h
  | case8 =>
    cases h
    exact List.not_mem_nil
  | case9 =>
    cases h
    exact List.not_mem_nil
  | case10 rest before _ _ _ _ _ _ ih =>
    rw [List.mem_cons, not_or] at htext
    exact slashFree_of_withContent (by simpa using htext.1) (fun hrest => ih hrest htext.2) h
  | case11 c rest before _ _ _ _ _ ih =>
    rw [List.mem_cons, not_or] at htext
    exact slashFree_of_withContent (by simpa using htext.1) (fun hrest => ih hrest htext.2) h

theorem slashFree_of_scanLiteral {form : LiteralForm} {raw : Bool} {letters : Nat}
    (h : scanLiteral form raw letters text = .ok (tok, size)) (htext : '/' ∉ text) :
    tok.SlashFree := by
  unfold scanLiteral at h
  obtain ⟨body, hbody, heq⟩ := exists_of_map_eq_ok h
  cases heq
  exact slashFree_of_scanBody hbody fun hslash => htext (List.mem_of_mem_drop hslash)

theorem slashFree_of_scanPiece {depth : Nat} {c : Char} {rest : List Char}
    (h : scanPiece depth c rest = .ok (some tok, size)) (htext : '/' ∉ c :: rest) :
    tok.SlashFree := by
  cases isPiece_of_scanPiece h with
  | literal _ hscan => exact slashFree_of_scanLiteral hscan htext
  | word =>
    unfold wordTok
    split <;> exact trivial
  | emoji => exact trivial
  | number _ _ _ _ hscan =>
    rcases tok_of_scanNumber hscan with ⟨value, htok⟩ | ⟨value, htok⟩ | ⟨value, htok⟩ <;>
    · rw [show tok = _ from htok]
      exact trivial
  | newline => exact trivial
  | symbol _ _ hscan _ =>
    rintro rfl
    exact htext ((mem_symbols_of_scanSymbol? hscan).2.subset (by decide))

/-! ### Runs of the scanner -/

theorem slashFree_of_isBlockMark (h : tok.IsBlockMark) : tok.SlashFree := by
  rcases h with rfl | rfl <;> exact trivial

theorem slashFree_finishScan {offset : Nat} {scanner : Scanner} :
    ∀ lexeme ∈ (finishScan offset scanner).lexemes, lexeme.tok.SlashFree := by
  intro lexeme hmem
  unfold finishScan at hmem
  split at hmem
  · cases hmem
  · rcases List.mem_append.1 hmem with hmem | hmem
    · split at hmem
      · cases hmem
      · rw [List.mem_singleton.1 hmem]
        exact trivial
    · obtain ⟨_, _, rfl⟩ := List.mem_map.1 hmem
      exact trivial

section Step

variable {c : Char} {rest : List Char}
  (ih : ∀ (offset : Nat) (scanner : Scanner) (skip : Nat),
    ∀ lexeme ∈ (scanFrom offset scanner skip rest).lexemes, lexeme.tok.SlashFree)
  (htext : '/' ∉ c :: rest)

include ih htext

theorem slashFree_pieceScan (offset : Nat) (scanner : Scanner) :
    ∀ lexeme ∈ (pieceScan offset scanner c rest).lexemes, lexeme.tok.SlashFree := by
  intro lexeme hmem
  unfold pieceScan at hmem
  split at hmem
  · cases hmem
  · next tok size hpiece =>
    rcases List.mem_append.1 hmem with hmem | hmem
    · obtain ⟨found, hfound, rfl⟩ := List.mem_map.1 hmem
      rw [Option.mem_toList] at hfound
      rw [hfound] at hpiece
      exact slashFree_of_scanPiece hpiece htext
    · exact ih _ _ _ lexeme hmem

theorem slashFree_scanFrom_cons (offset : Nat) (scanner : Scanner) :
    ∀ lexeme ∈ (scanFrom offset scanner 0 (c :: rest)).lexemes, lexeme.tok.SlashFree := by
  intro lexeme hmem
  rw [scanFrom_cons] at hmem
  split at hmem
  · split at hmem
    · cases hmem
    · split at hmem
      · exact ih _ _ _ lexeme hmem
      · split at hmem
        · cases hmem
        · rcases List.mem_append.1 hmem with hmem | hmem
          · exact slashFree_of_isBlockMark (changeLexemes_marks _ _ _ lexeme hmem).1
          · split at hmem
            · exact slashFree_pieceScan ih htext _ _ lexeme hmem
            · exact ih _ _ _ lexeme hmem
  · exact slashFree_pieceScan ih htext _ _ lexeme hmem

end Step

/-- Every run of the scanner over a text without slashes yields tokens without them. -/
theorem slashFree_scanFrom (htext : '/' ∉ text) (offset : Nat) (scanner : Scanner) (skip : Nat) :
    ∀ lexeme ∈ (scanFrom offset scanner skip text).lexemes, lexeme.tok.SlashFree := by
  induction text generalizing offset scanner skip with
  | nil => exact slashFree_finishScan
  | cons c rest ih =>
    have hrest : '/' ∉ rest := fun hslash => htext (List.mem_cons_of_mem c hslash)
    cases skip with
    | zero => exact slashFree_scanFrom_cons (ih hrest) htext offset scanner
    | succ skip => exact ih hrest _ scanner skip

theorem slashFree_scanAt (htext : '/' ∉ text) (offset : Nat) :
    ∀ lexeme ∈ (scanAt offset text).lexemes, lexeme.tok.SlashFree := by
  unfold scanAt
  split
  · exact slashFree_scanFrom (fun hslash => htext (List.mem_of_mem_tail hslash)) _ _ _
  · exact slashFree_scanFrom htext _ _ _

theorem slashFree_resolveSoftKeyword {lineStart : Bool} {rest : List Lexeme} (h : tok.SlashFree) :
    (resolveSoftKeyword lineStart tok rest).SlashFree := by
  unfold resolveSoftKeyword
  split
  · split <;> exact trivial
  · exact h

/-- Soft keywords become names or stay what they are. -/
theorem slashFree_resolveSoftKeywords {lineStart : Bool} {lexemes : List Lexeme}
    (h : ∀ lexeme ∈ lexemes, lexeme.tok.SlashFree) :
    ∀ lexeme ∈ resolveSoftKeywords lineStart lexemes, lexeme.tok.SlashFree := by
  induction lexemes generalizing lineStart with
  | nil => exact h
  | cons lexeme rest ih =>
    rw [List.forall_mem_cons] at h
    rw [resolveSoftKeywords, List.forall_mem_cons]
    exact ⟨slashFree_resolveSoftKeyword h.1, ih h.2⟩

theorem slashFree_scanModule (htext : '/' ∉ text) : (Cursor.ofScan (scanModule text)).SlashFree :=
  slashFree_resolveSoftKeywords (slashFree_scanAt htext 0)

theorem slashFree_scanExpression (htext : '/' ∉ text) (offset : Nat) :
    (Cursor.ofScan (scanExpression offset text)).SlashFree :=
  slashFree_resolveSoftKeywords (slashFree_scanAt htext offset)

end PythonLint
