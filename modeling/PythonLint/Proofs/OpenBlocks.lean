import PythonLint.Proofs.Margins
import PythonLint.Proofs.PassSeparation
import PythonLint.Proofs.TokenShape
import Mathlib.Data.List.Infix

/-!
# Open blocks along a token stream

The pass over tokens keeps, for each block that is open, the columns that it adds to the block
around it. Along the tokens of any source these are the blocks of the indentations that no end of a
block has closed, and from the outermost block on they add up to the columns of each indentation,
although an indentation may well add no column or a negative number of them. The scanner closes no
level that it has not opened, so there is always a block to close.

Main statements: `endsNested_scanFrom`, `nests_tokenize`, `foldl_marginsAfter_eq`,
`openBlocks_columns`.
-/

namespace PythonLint

open Text

/-! ### Nesting -/

/-- Tokens of these kinds lead from `depth` open blocks to `final` ones, and no end of a block comes
when none is open. -/
inductive Nests : (depth : Nat) → List TokenKind → (final : Nat) → Prop
  | nil (depth : Nat) : Nests depth [] depth
  | indent {depth final : Nat} {kinds : List TokenKind} (h : Nests (depth + 1) kinds final) :
      Nests depth (.indent :: kinds) final
  | dedent {depth final : Nat} {kinds : List TokenKind} (h : Nests depth kinds final) :
      Nests (depth + 1) (.dedent :: kinds) final
  | other {depth final : Nat} {kind : TokenKind} {kinds : List TokenKind}
      (hkind : kind ≠ .indent ∧ kind ≠ .dedent) (h : Nests depth kinds final) :
      Nests depth (kind :: kinds) final

namespace Nests

variable {a b c : Nat} {first second : List TokenKind}

theorem append (hfirst : Nests a first b) (hsecond : Nests b second c) :
    Nests a (first ++ second) c := by
  induction hfirst with
  | nil => exact hsecond
  | indent _ ih => exact .indent (ih hsecond)
  | dedent _ ih => exact .dedent (ih hsecond)
  | other hkind _ ih => exact .other hkind (ih hsecond)

theorem exists_of_append (h : Nests a (first ++ second) c) :
    ∃ b, Nests a first b ∧ Nests b second c := by
  induction first generalizing a with
  | nil => exact ⟨a, .nil a, h⟩
  | cons kind first ih =>
    cases h with
    | indent h =>
      obtain ⟨b, hfirst, hsecond⟩ := ih h
      exact ⟨b, .indent hfirst, hsecond⟩
    | dedent h =>
      obtain ⟨b, hfirst, hsecond⟩ := ih h
      exact ⟨b, .dedent hfirst, hsecond⟩
    | other hkind h =>
      obtain ⟨b, hfirst, hsecond⟩ := ih h
      exact ⟨b, .other hkind hfirst, hsecond⟩

theorem dedents (depth count : Nat) :
    Nests (depth + count) (List.replicate count .dedent) depth := by
  induction count with
  | zero => exact .nil depth
  | succ count ih => exact .dedent ih

end Nests

/-! ### The scanner -/

/-- The kinds of tokens that lexemes become. -/
def kindsOf (lexemes : List Lexeme) : List TokenKind :=
  lexemes.map fun lexeme => kindOf lexeme.tok

/-- The marks at the start of a line lead from the levels that were open to those that are. -/
theorem nests_changeLexemes {level : Level} {levels inner : List Level} {change : LineChange}
    (h : enterLine level levels = .ok (change, inner)) (offset : Nat) :
    Nests levels.length (kindsOf (changeLexemes level offset change)) inner.length := by
  rcases enterLine_eq_ok h with ⟨rfl, rfl, -⟩ | ⟨rfl, rfl, -⟩ | ⟨count, rfl, hle, rfl, -⟩
  · exact .nil _
  · exact .indent (.nil _)
  · -- Dropping would hide it if more levels were closed than are open.
    have hmarks := Nests.dedents (levels.drop count).length count
    rw [List.length_drop, Nat.sub_add_cancel hle] at hmarks
    rw [kindsOf, changeLexemes, List.map_replicate, List.length_drop]
    exact hmarks

/-- The lexemes of a scan close blocks that are open, and all of them if there is no fault. -/
def EndsNested (depth : Nat) (scan : Scan) : Prop :=
  ∃ final, Nests depth (kindsOf scan.lexemes) final ∧ (scan.fault = none → final = 0)

theorem endsNested_fail (depth : Nat) (fault : Fault) (offset : Nat) :
    EndsNested depth (.fail fault offset) :=
  ⟨depth, .nil depth, fun h => by cases h⟩

theorem EndsNested.prepend {depth inner : Nat} {lexemes : List Lexeme} {scan : Scan}
    (h : EndsNested inner scan) (hlexemes : Nests depth (kindsOf lexemes) inner) :
    EndsNested depth (scan.prepend lexemes) := by
  obtain ⟨final, hscan, hfinal⟩ := h
  refine ⟨final, ?_, hfinal⟩
  rw [kindsOf, Scan.prepend, List.map_append]
  exact hlexemes.append hscan

theorem endsNested_finishScan (offset : Nat) (scanner : Scanner) :
    EndsNested scanner.levels.length (finishScan offset scanner) := by
  unfold finishScan
  split
  · exact endsNested_fail _ _ _
  · refine ⟨0, ?_, fun _ => rfl⟩
    have hdedents := Nests.dedents 0 scanner.levels.length
    rw [Nat.zero_add] at hdedents
    have hlevels : kindsOf (scanner.levels.map fun _ => ⟨.dedent, offset, offset⟩) =
        List.replicate scanner.levels.length .dedent := by
      rw [kindsOf, List.map_map]
      exact List.map_const'
    rw [kindsOf, List.map_append, ← kindsOf, ← kindsOf, hlevels]
    split
    · exact hdedents
    · exact .other ⟨nofun, nofun⟩ hdedents

theorem nests_of_scanPiece {depth : Nat} {c : Char} {rest : List Char} {tok : Option Tok}
    {size : Nat} (h : scanPiece depth c rest = .ok (tok, size)) (blocks start stop : Nat) :
    Nests blocks (kindsOf (tok.toList.map fun tok => ⟨tok, start, stop⟩)) blocks := by
  cases tok with
  | none => exact .nil blocks
  | some tok =>
    refine .other ?_ (.nil blocks)
    rcases scanPiece_tok h with htok | ⟨rfl, -⟩
    · obtain ⟨-, hindent, hdedent, -⟩ := kindOf_of_endsLine htok
      exact ⟨hindent, hdedent⟩
    · exact ⟨nofun, nofun⟩

section Step

variable {c : Char} {rest : List Char}
  (ih : ∀ (offset : Nat) (scanner : Scanner) (skip : Nat),
    EndsNested scanner.levels.length (scanFrom offset scanner skip rest))

include ih

theorem endsNested_pieceScan (offset : Nat) (scanner : Scanner) :
    EndsNested scanner.levels.length (pieceScan offset scanner c rest) := by
  unfold pieceScan
  split
  · exact endsNested_fail _ _ _
  · next tok size hpiece =>
    have hrest := ih (offset + c.utf8Size) (scanner.after tok) (size - 1)
    rw [levels_after] at hrest
    exact hrest.prepend (nests_of_scanPiece hpiece _ _ _)

theorem endsNested_scanFrom_cons (offset : Nat) (scanner : Scanner) :
    EndsNested scanner.levels.length (scanFrom offset scanner 0 (c :: rest)) := by
  rw [scanFrom_cons]
  by_cases hstart : scanner.lineStart = true
  · rw [if_pos hstart]
    split
    · exact endsNested_fail _ _ _
    · next level size _ =>
      by_cases hall : size = rest.length + 1
      · rw [if_pos hall]
        exact ih _ _ _
      · rw [if_neg hall]
        split
        · exact endsNested_fail _ _ _
        · next change levels henter =>
          refine EndsNested.prepend ?_ (nests_changeLexemes henter _)
          split
          · exact endsNested_pieceScan ih offset { scanner with lineStart := false, levels }
          · exact ih _ { scanner with lineStart := false, levels } _
  · rw [if_neg hstart]
    exact endsNested_pieceScan ih offset scanner

end Step

/-- The scanner only closes levels that it was started with or has opened, and all of them in the
end. -/
theorem endsNested_scanFrom (text : List Char) (offset : Nat) (scanner : Scanner) (skip : Nat) :
    EndsNested scanner.levels.length (scanFrom offset scanner skip text) := by
  induction text generalizing offset scanner skip with
  | nil => exact endsNested_finishScan offset scanner
  | cons c rest ih =>
    cases skip with
    | zero => exact endsNested_scanFrom_cons ih offset scanner
    | succ skip =>
      rw [scanFrom_skip]
      exact ih _ _ _

theorem nests_of_sameLexeme {a b : List Lexeme} (h : List.Forall₂ SameLexeme a b)
    {depth final : Nat} (hb : Nests depth (kindsOf b) final) : Nests depth (kindsOf a) final := by
  induction h generalizing depth with
  | nil => exact hb
  | @cons resolved raw _ _ hsame _ ih =>
    rw [kindsOf, List.map_cons] at hb ⊢
    -- A soft keyword is no mark, and neither is the name that it becomes.
    have hmark : kindOf resolved.tok = kindOf raw.tok ∨
        (kindOf resolved.tok ≠ .indent ∧ kindOf resolved.tok ≠ .dedent) ∧
          kindOf raw.tok ≠ .indent ∧ kindOf raw.tok ≠ .dedent := by
      rcases hsame.2.2 with htok | ⟨hresolved, hraw⟩
      · exact .inl (by rw [htok])
      · obtain ⟨-, hindent, hdedent, -⟩ := kindOf_of_endsLine hresolved
        obtain ⟨-, hindent', hdedent', -⟩ := kindOf_of_endsLine hraw
        exact .inr ⟨⟨hindent, hdedent⟩, hindent', hdedent'⟩
    generalize kindOf resolved.tok = new at hmark ⊢
    generalize kindOf raw.tok = old at hmark hb
    cases hb with
    | indent hrest =>
      rcases hmark with rfl | ⟨-, hindent, -⟩
      · exact .indent (ih hrest)
      · exact absurd rfl hindent
    | dedent hrest =>
      rcases hmark with rfl | ⟨-, -, hdedent⟩
      · exact .dedent (ih hrest)
      · exact absurd rfl hdedent
    | other hkind hrest =>
      rcases hmark with rfl | ⟨hnew, -⟩
      · exact .other hkind (ih hrest)
      · exact .other hnew (ih hrest)

theorem endsNested_scanModule (text : List Char) : EndsNested 0 (scanModule text) := by
  obtain ⟨mark, rest, -, -, hscan⟩ := scanAt_eq_scanFrom text
  obtain ⟨final, hnests, hfinal⟩ := endsNested_scanFrom rest (byteLength mark) .initial 0
  rw [← hscan] at hnests hfinal
  exact ⟨final, nests_of_sameLexeme (resolveSoftKeywords_sameLexeme true _) hnests, hfinal⟩

/-! ### Tokens -/

/-- The ends of blocks among the tokens of a source close blocks that are open, and all of them if
there is no error. -/
theorem nests_tokenize (text : List Char) :
    ∃ final, Nests 0 ((tokenize text).tokens.map (·.kind)) final ∧
      ((tokenize text).error = none → final = 0) := by
  obtain ⟨final, hscan, hfinal⟩ := endsNested_scanModule (untabify text)
  have hend : Nests final [TokenKind.endMarker] final :=
    .other ⟨nofun, nofun⟩ (.nil final)
  have hpieces := hscan.append hend
  rw [kindsOf, ← map_kind_piecesOf text (lines text)] at hpieces
  have hkinds : (tokenize text).tokens.map (·.kind) =
      ((tokenize text).tokens.map Token.toPiece).map Piece.kind :=
    (List.map_map).symm
  rw [hkinds]
  by_cases herror : (tokenize text).error = none
  · rw [toPiece_tokenize herror, List.map_append]
    exact ⟨final, hpieces, fun _ => hfinal (fault_of_no_error herror)⟩
  · obtain ⟨more, hmore⟩ := (toPiece_tokenize_isPrefix text).map Piece.kind
    rw [sourcePieces, List.map_append] at hmore
    rw [show ([TokenKind.endMarker] : List TokenKind) = [endPiece text].map Piece.kind from rfl,
      ← hmore] at hpieces
    obtain ⟨inner, htokens, -⟩ := hpieces.exists_of_append
    exact ⟨inner, htokens, fun h => absurd h herror⟩

theorem Nests.length_foldl {tokens : List Token} {final : Nat} (blocks : List Int)
    (h : Nests blocks.length (tokens.map (·.kind)) final) :
    (tokens.foldl blocksAfter blocks).length = final := by
  induction tokens generalizing blocks with
  | nil =>
    generalize hdepth : blocks.length = depth at h
    cases h
    exact hdepth
  | cons token tokens ih =>
    rw [List.map_cons] at h
    rw [List.foldl_cons]
    apply ih
    -- The cases of the derivation are told by the kind, which has to be a variable for that.
    generalize hdepth : blocks.length = depth at h
    generalize hkind : token.kind = kind at h
    cases h with
    | indent h =>
      rw [← hdepth] at h
      rwa [blocksAfter, hkind]
    | dedent h =>
      rw [blocksAfter, hkind]
      rwa [List.length_tail, hdepth]
    | other hother h =>
      rw [← hkind] at hother
      have hsame : blocksAfter blocks token = blocks := by
        unfold blocksAfter
        split
        · next hindent => exact absurd hindent hother.1
        · next hdedent => exact absurd hdedent hother.2
        · rfl
      rwa [hsame, hdepth]

/-! ### Open indentations -/

/-- A block that is open before the tokens is open after them: no part of them from the first one on
ends more blocks than it starts. -/
def StaysOpen (after : List Token) : Prop :=
  ∀ part ∈ after.inits, part.countP (·.kind = .dedent) ≤ part.countP (·.kind = .indent)

instance (after : List Token) : Decidable (StaysOpen after) :=
  inferInstanceAs (Decidable (∀ part ∈ after.inits, _))

/-- The indentations whose blocks are open after the tokens, outermost first. -/
def openIndents : List Token → List Token
  | [] => []
  | token :: rest =>
    if token.kind = .indent ∧ StaysOpen rest then token :: openIndents rest else openIndents rest

/-- The number of blocks that are open before the tokens and that they end. -/
def closedBy : List Token → Nat
  | [] => 0
  | token :: rest =>
    match token.kind with
    | .indent => closedBy rest - 1
    | .dedent => closedBy rest + 1
    | _ => closedBy rest

/-- The parts of tokens end at most so many more blocks than they start. -/
theorem closedBy_le_iff (after : List Token) (n : Nat) :
    closedBy after ≤ n ↔
      ∀ part ∈ after.inits, part.countP (·.kind = .dedent) ≤
        part.countP (·.kind = .indent) + n := by
  induction after generalizing n with
  | nil => simp [closedBy]
  | cons token rest ih =>
    rw [closedBy, List.inits_cons, List.forall_mem_cons, List.forall_mem_map]
    simp only [List.countP_nil, Nat.zero_add, Nat.zero_le, true_and, List.countP_cons]
    cases hkind : token.kind with
    | indent =>
      simp only [Nat.sub_le_iff_le_add, ih, reduceCtorEq, decide_false, decide_true, if_true,
        Bool.false_eq_true, if_false, Nat.add_zero]
      exact forall₂_congr fun part _ => by omega
    | dedent =>
      simp only [reduceCtorEq, decide_false, decide_true, if_true, Bool.false_eq_true, if_false,
        Nat.add_zero]
      cases n with
      | zero =>
        -- The end of a block by itself is a part that ends more than it starts.
        refine ⟨fun h => by omega, fun h => ?_⟩
        have hnil := h [] ((List.mem_inits _ _).2 List.nil_prefix)
        simp at hnil
      | succ n =>
        rw [Nat.add_le_add_iff_right, ih]
        exact forall₂_congr fun part _ => by omega
    | _ => simp only [ih, reduceCtorEq, decide_false, Bool.false_eq_true, if_false, Nat.add_zero]

theorem staysOpen_iff (after : List Token) : StaysOpen after ↔ closedBy after = 0 := by
  rw [← Nat.le_zero, closedBy_le_iff]
  rfl

/-- The margins of open blocks are those of the open indentations, and of the blocks from before
that are not closed. -/
theorem foldl_marginsAfter_eq (margins : List (List Char)) (tokens : List Token) :
    tokens.foldl marginsAfter margins =
      ((openIndents tokens).map (·.lexeme.toList)).reverse ++ margins.drop (closedBy tokens) := by
  induction tokens generalizing margins with
  | nil => rfl
  | cons token rest ih =>
    rw [List.foldl_cons, ih, openIndents, closedBy, marginsAfter]
    cases hkind : token.kind with
    | indent =>
      -- The block stays open, or it is the innermost of those that are closed.
      simp only [true_and, staysOpen_iff]
      cases hclosed : closedBy rest with
      | zero => simp
      | succ n => simp
    | dedent => simp [← List.drop_one, Nat.add_comm]
    | _ => simp

/-! ### Columns -/

/-- The columns of the text of a token: eight for a tab, one for any other character. -/
def columnsOf (token : Token) : Nat :=
  8 * token.lexeme.toList.count '\t' + token.lexeme.toList.countP (· ≠ '\t')

theorem indentationWidth_eq (token : Token) :
    indentationWidth token.lexeme.toList = columnsOf token := by
  have hfold : ∀ (margin : List Char) (width : Nat),
      margin.foldl (fun width c => width + if c = '\t' then 8 else 1) width =
        width + (8 * margin.count '\t' + margin.countP (· ≠ '\t')) := by
    intro margin
    induction margin with
    | nil => simp
    | cons c margin ih =>
      intro width
      rw [List.foldl_cons, ih]
      by_cases hc : c = '\t'
      · simp [hc]
        omega
      · simp [hc]
        omega
  rw [indentationWidth, hfold, Nat.zero_add, columnsOf]

theorem openedBy_drop (margins : List (List Char)) (count : Nat) :
    openedBy (margins.drop count) = (openedBy margins).drop count := by
  induction margins generalizing count with
  | nil => simp [openedBy]
  | cons margin outer ih =>
    cases count with
    | zero => rfl
    | succ count => rw [List.drop_succ_cons, openedBy, List.drop_succ_cons, ih]

theorem length_openedBy (margins : List (List Char)) :
    (openedBy margins).length = margins.length := by
  induction margins with
  | nil => rfl
  | cons margin outer ih => rw [openedBy, List.length_cons, List.length_cons, ih]

/-- The blocks that the pass keeps are those of the open indentations. -/
theorem foldl_blocksAfter_eq (before : List Token) :
    before.foldl blocksAfter [] = openedBy
      ((openIndents before).map (·.lexeme.toList)).reverse := by
  have hmargins := foldl_blocksAfter_openedBy [] before
  rwa [openedBy, foldl_marginsAfter_eq, List.drop_nil, List.append_nil] at hmargins

/-- What is known of the blocks that the pass keeps between some tokens and others, innermost
first. -/
structure TracksBlocks (before after : List Token) (blocks : List Int) : Prop where
  length_eq : blocks.length = (openIndents before).length
  /-- From the outermost one on they add up to the columns of the open indentations. -/
  sum_eq : ∀ k indent, (openIndents before)[k]? = some indent →
    totalAdded (blocks.reverse.take (k + 1)) = columnsOf indent
  nonempty : ∀ token ∈ after.head?, token.kind = .dedent → blocks ≠ []

theorem totalAdded_cons (added : Int) (blocks : List Int) :
    totalAdded (added :: blocks) = added + totalAdded blocks := rfl

theorem totalAdded_append (a b : List Int) : totalAdded (a ++ b) = totalAdded a + totalAdded b := by
  induction a with
  | nil => exact (Int.zero_add _).symm
  | cons added a ih => rw [List.cons_append, totalAdded_cons, totalAdded_cons, ih, Int.add_assoc]

theorem totalAdded_reverse (blocks : List Int) : totalAdded blocks.reverse = totalAdded blocks := by
  induction blocks with
  | nil => rfl
  | cons added blocks ih =>
    rw [List.reverse_cons, totalAdded_append, ih, totalAdded_cons, totalAdded_cons, Int.add_comm]
    exact congrArg (· + _) (Int.add_zero added)

theorem sum_of_openIndents {before : List Token} {k : Nat} {indent : Token}
    (h : (openIndents before)[k]? = some indent) :
    totalAdded ((before.foldl blocksAfter []).reverse.take (k + 1)) = columnsOf indent := by
  rw [foldl_blocksAfter_eq]
  generalize hmargins : ((openIndents before).map (·.lexeme.toList)).reverse = margins
  obtain ⟨hk, -⟩ := List.getElem?_eq_some_iff.1 h
  have hlength : margins.length = (openIndents before).length := by rw [← hmargins]; simp
  -- The first blocks from outside are those that are left without the inner ones.
  have hhead : (margins.drop (margins.length - (k + 1))).headD [] = indent.lexeme.toList := by
    have hplace : (openIndents before).length - 1 - (margins.length - (k + 1)) = k := by omega
    rw [List.headD_eq_head?_getD, List.head?_drop]
    nth_rewrite 1 [← hmargins]
    rw [List.getElem?_reverse (by simp; omega), List.length_map, hplace, List.getElem?_map, h]
    rfl
  rw [List.take_reverse, length_openedBy, ← openedBy_drop, totalAdded_reverse,
    totalAdded_openedBy, hhead, indentationWidth_eq]

theorem tracksBlocks {text : List Char} {before after : List Token}
    (h : (tokenize text).tokens = before ++ after) :
    TracksBlocks before after (before.foldl blocksAfter []) where
  length_eq := by
    rw [foldl_blocksAfter_eq, length_openedBy, List.length_reverse, List.length_map]
  sum_eq _ _ hindent := sum_of_openIndents hindent
  nonempty token hmem hkind := by
    obtain ⟨final, hnests, -⟩ := nests_tokenize text
    rw [h, List.map_append] at hnests
    obtain ⟨inner, hbefore, hafter⟩ := hnests.exists_of_append
    have hlength := Nests.length_foldl [] hbefore
    obtain ⟨rest, rfl⟩ : ∃ rest, after = token :: rest := by
      cases after with
      | nil => cases hmem
      | cons first rest => exact ⟨rest, by rw [Option.some.inj hmem]⟩
    rw [List.map_cons, hkind] at hafter
    intro hnil
    rw [hnil] at hlength
    cases hafter with
    | dedent => cases hlength
    | other hother => exact hother.2 rfl

/-! ### Warnings -/

/-- The columns that an indentation adds to the innermost block that is open before it. -/
def addedColumns (before : List Token) (indent : Token) : Int :=
  columnsOf indent - ((openIndents before).getLast?.map columnsOf).getD 0

theorem totalAdded_eq (before : List Token) :
    totalAdded (before.foldl blocksAfter []) =
      (((openIndents before).getLast?.map columnsOf).getD 0 : Nat) := by
  rw [totalAdded_foldl, foldl_marginsAfter_eq, List.drop_nil, List.append_nil,
    List.headD_eq_head?_getD, List.head?_reverse, List.getLast?_map]
  cases (openIndents before).getLast? with
  | none => rfl
  | some indent => simp [indentationWidth_eq]

/-- The warning about a token after some others, if it is an indentation that adds other than four
columns. -/
def wrongColumns? (reporter : Reporter) (before : List Token) (token : Token) : Option Warning :=
  if token.kind = .indent ∧ addedColumns before token ≠ 4 then
    some (reporter.between .wrongIndentation
      ("Indented by " ++ toString (addedColumns before token) ++
        " spaces instead of 4 as demanded by PEP 8")
      token.start token.stop)
  else none

theorem filter_tokenWarnings_wrong (reporter : Reporter) (before : List Token) (token : Token) :
    (tokenWarnings reporter (before.foldl blocksAfter []) token).filter
      (·.kind = .wrongIndentation) =
      (wrongColumns? reporter before token).toList := by
  have hadded : (indentationWidth token.lexeme.toList : Int) -
    totalAdded (before.foldl blocksAfter []) =
      addedColumns before token := by
    rw [totalAdded_eq, indentationWidth_eq, addedColumns]
  cases hkind : token.kind with
  | indent =>
    simp only [tokenWarnings, wrongColumns?, hkind, hadded, true_and]
    by_cases hfour : addedColumns before token = 4
    · simp [hfour]
    · simp [hfour, wrongIndentation, Reporter.between]
  | newline =>
    simp only [tokenWarnings, wrongColumns?, hkind]
    split <;> simp [mixedMargin, Reporter.between]
  | _ => simp [tokenWarnings, wrongColumns?, hkind]

theorem filter_tokenWarningsFrom_wrong (reporter : Reporter) (before tokens : List Token) :
    (tokenWarningsFrom reporter (before.foldl blocksAfter []) tokens).filter
      (·.kind = .wrongIndentation) =
      (List.zipWith (wrongColumns? reporter) (tokens.inits.map (before ++ ·)) tokens).filterMap
        id := by
  -- The tokens that have been read are general, since each step reads one more.
  induction tokens generalizing before with
  | nil => rfl
  | cons token tokens ih =>
    have hinits : (token :: tokens).inits.map (before ++ ·) =
        before :: tokens.inits.map (before ++ [token] ++ ·) := by
      rw [List.inits_cons, List.map_cons, List.append_nil, List.map_map]
      simp only [Function.comp_def, List.append_assoc, List.singleton_append]
    have hafter : blocksAfter (before.foldl blocksAfter []) token =
        (before ++ [token]).foldl blocksAfter [] := by
      rw [List.foldl_append, List.foldl_cons, List.foldl_nil]
    rw [tokenWarningsFrom, List.filter_append, filter_tokenWarnings_wrong, hafter, ih, hinits,
      List.zipWith_cons_cons, List.filterMap_cons]
    cases wrongColumns? reporter before token <;> rfl

/-- Between any two tokens of a source the pass keeps one block for each open indentation, these add
up to the columns of the open indentations, and the end of a block finds one to close. A source
without errors leaves none open, and is warned about at the indentations that add other than four
columns to the block around them, and nowhere else. -/
theorem openBlocks_columns [Text.CharNames] (version : Version) (source : Source) :
    (∀ before after, (tokenize source.text).tokens = before ++ after →
      TracksBlocks before after (before.foldl blocksAfter [])) ∧
    ((tokenize source.text).error = none →
      (tokenize source.text).tokens.foldl blocksAfter [] = [] ∧
      ∃ warnings, runPass version source (tokenize source.text) .token = .ok warnings ∧
        warnings.filter (·.kind = .wrongIndentation) =
          (List.zipWith
            (wrongColumns? (.ofTokens source.name source.text (tokenize source.text).tokens))
            (tokenize source.text).tokens.inits (tokenize source.text).tokens).filterMap id) := by
  refine ⟨fun before after h => tracksBlocks h, fun hnone => ⟨?_, ?_⟩⟩
  · obtain ⟨final, hnests, hfinal⟩ := nests_tokenize source.text
    rw [← List.length_eq_zero_iff, Nests.length_foldl [] hnests, hfinal hnone]
  · have hwarnings := filter_tokenWarningsFrom_wrong
      (.ofTokens source.name source.text (tokenize source.text).tokens) []
        (tokenize source.text).tokens
    refine ⟨_, runPass_token hnone, ?_⟩
    rw [checkTokens]
    simpa only [List.nil_append, List.map_id', List.foldl_nil] using hwarnings

/-- Blocks that add columns, take some back and add four of them, before the end of the innermost
one. -/
theorem openBlocks_columns_negative :
    let source := Source.ofText "module" "if a:\n\tif b:\n  if c:\n      x\n  z\ny\n".toList
    let before := (tokenize source.text).tokens.take 17
    TracksBlocks before ((tokenize source.text).tokens.drop 17) (before.foldl blocksAfter []) ∧
      before.foldl blocksAfter [] = [4, -6, 8] ∧ (openIndents before).map columnsOf = [8, 2, 6] ∧
      (tokenize source.text).error = none ∧
        (tokenize source.text).tokens.foldl blocksAfter [] = [] ∧
      ∃ warnings, runPass .python3 source (tokenize source.text) .token = .ok warnings ∧
        (warnings.filter (·.kind = .wrongIndentation)).map
            (fun warning => (warning.message, warning.start, warning.stop)) =
          [("Indented by 8 spaces instead of 4 as demanded by PEP 8", ⟨2, 0⟩, ⟨2, 1⟩),
            ("Indented by -6 spaces instead of 4 as demanded by PEP 8", ⟨3, 0⟩, ⟨3, 2⟩)] := by
  intro source before
  have hnone : (tokenize source.text).error = none := by decide +kernel
  obtain ⟨htracks, hsource⟩ := openBlocks_columns .python3 source
  obtain ⟨hclosed, warnings, hrun, hwrong⟩ := hsource hnone
  refine ⟨htracks _ _ (List.take_append_drop 17 _).symm, by decide +kernel, by decide +kernel,
    hnone, hclosed, warnings, hrun, ?_⟩
  rw [hwrong]
  decide +kernel

end PythonLint
