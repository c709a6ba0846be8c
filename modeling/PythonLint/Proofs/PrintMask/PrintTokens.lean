import PythonLint.Proofs.PrintMask.MaskedScan
import PythonLint.Proofs.Statements

/-!
# Print statements by their tokens

Print statements are found by reading tokens, which say the same as the lexemes they are made of. So
the tokens outside print statements, with `pass` for each statement, are the readings of the
lexemes, and soft keywords make no difference to where print statements stand.

Main statements: `spelled_of_run`, `withPass_eq`, `spansOf_softened`, `readings_softened`.
-/

namespace PythonLint

open Text

variable {before rest : List Char} {state : PrintState}

/-- What is seen of a token: its kind, its text and the position where it starts. -/
structure TokenView where
  kind : TokenKind
  lexeme : String
  offset : Nat
deriving DecidableEq, Repr

def Piece.view (text : List Char) (piece : Piece) : TokenView :=
  ⟨piece.kind, piece.lexeme, offsetAt text piece.start⟩

/-- The tokens of a text, with `pass` for the tokens of each print statement. -/
def withPass (text : List Char) (state : PrintState) : List Token → List TokenView
  | [] => []
  | token :: rest =>
    if state.isEnd token then
      token.view text :: withPass text { state with opened := none, atStart := true } rest
    else
      let next := state.after text token
      match state.opened, next.opened with
      | none, some start => ⟨.keyword, "pass", start⟩ :: withPass text next rest
      | none, none => token.view text :: withPass text next rest
      | some _, _ => withPass text next rest

/-- What is seen of the token that a reading of a lexeme stands for. -/
def PrintReading.view (text : List Char) (lines : List (List Char)) : PrintReading → TokenView
  | kept lexeme code => (pieceOf text lines lexeme code).view text
  | pass start => ⟨.keyword, "pass", start⟩

/-! ### Spelling -/

/-- A lexeme that stands in a text as it is spelled, the only ones spelled as a semicolon being
semicolons. -/
structure Spelled (text : List Char) (lexeme : Lexeme) : Prop where
  offset_eq : offsetAt text (locationAt text lexeme.start) = lexeme.start
  spelled : ∀ word, lexeme.tok = .name word ∨ lexeme.tok = .keyword word ∨
    lexeme.tok = .symbol word → sliceBytes text lexeme.start lexeme.stop = word.toList
  semicolon : sliceBytes text lexeme.start lexeme.stop = [';'] → lexeme.tok = .symbol ";"

theorem scanPiece_semicolon (depth : Nat) (rest : List Char) :
    scanPiece depth ';' rest = .ok (some (.symbol ";"), 1) := by
  have hletters : literalStart? (';' :: rest) = none :=
    literalStart?_eq_none rfl rfl (fun _ => rfl) rest
  have hword : isIdentifierStart ';' = false := by decide
  have hemoji : isEmoji ';' = false := by decide
  have hdigit : isDigitIn 10 ';' = false := by decide
  have hother : isLineEnd ';' = false ∧ isSpacing ';' = false := by decide
  have hsymbol : scanSymbol? (';' :: rest) = some ";" := rfl
  have hclosing : isClosing ";" = false := by decide
  simp [scanPiece, hletters, hword, hemoji, hdigit, hother, hsymbol, hclosing]
  rfl

theorem space_not_mem_symbol : ∀ symbol ∈ symbols, ' ' ∉ symbol.toList := by decide

theorem space_not_mem_of_piece {depth : Nat} {c : Char} {tok : Tok} {size : Nat} {word : String}
    (h : scanPiece depth c rest = .ok (some tok, size))
    (htok : tok = .name word ∨ tok = .keyword word ∨ tok = .symbol word) : ' ' ∉ word.toList := by
  rcases (isPiece_of_scanPiece h).text_cases
    htok with ⟨-, hword, -⟩ | ⟨hword, hc, -⟩ | ⟨hscan, -, -⟩
  · rw [hword]
    intro hmem
    have hpart : isIdentifierPart ' ' = true := List.mem_takeWhile_imp hmem
    revert hpart
    decide
  · rw [hword, List.mem_singleton]
    rintro rfl
    revert hc
    decide
  · exact space_not_mem_symbol _ (mem_symbols_of_scanSymbol? hscan).1

section

variable {text : List Char}

theorem offsetAt_copy {a b : List Char} (h : List.Forall₂ SameOrTab text (a ++ b)) :
    offsetAt text (locationAt text (byteLength a)) = byteLength a := by
  obtain ⟨a', b', rfl, ha, -⟩ := exists_append_of_forall₂ h
  rw [← byteLength_eq_of_sameOrTab ha, locationAt_append, offsetAt_after]

theorem spelled_of_piece {word : List Char} {depth : Nat} {c : Char} {tok : Tok}
    (hcopy : List.Forall₂ SameOrTab text (before ++ (c :: word ++ rest)))
    (hpiece : scanPiece depth c (word ++ rest) = .ok (some tok, word.length + 1)) :
    Spelled text ⟨tok, byteLength before, byteLength (before ++ c :: word)⟩ where
  offset_eq := offsetAt_copy hcopy
  spelled name htok := by
    have hspelled := (isPiece_of_scanPiece hpiece).spelling htok
    rw [take_piece] at hspelled
    rw [← List.append_assoc] at hcopy
    rw [← hspelled]
    exact sliceBytes_copy hcopy (hspelled ▸ space_not_mem_of_piece hpiece htok)
  semicolon hslice := by
    rw [← List.append_assoc] at hcopy
    obtain ⟨head, rest', rfl, hhead, -⟩ := exists_append_of_forall₂ hcopy
    obtain ⟨before', word', rfl, hbefore, hword⟩ := exists_append_of_forall₂ hhead
    simp only at hslice
    rw [← byteLength_eq_of_sameOrTab hbefore, ← byteLength_eq_of_sameOrTab hhead,
      sliceBytes_append] at hslice
    subst hslice
    obtain ⟨rfl, rfl⟩ : c = ';' ∧ word = [] := by
      cases hword with
      | cons hc hnil =>
        cases hnil
        refine ⟨?_, rfl⟩
        rcases hc with hc | ⟨hc, -⟩
        · exact hc
        · cases hc
    rw [scanPiece_semicolon] at hpiece
    cases hpiece
    rfl

theorem spelled_finish (hcopy : List.Forall₂ SameOrTab text before) (scanner : Scanner) :
    ∀ lexeme ∈ (finishScan (byteLength before) scanner).lexemes, ¬lexeme.tok.IsBlockMark →
      Spelled text lexeme := by
  intro lexeme hmem hword
  have hcopy' : List.Forall₂ SameOrTab text (before ++ []) := by rwa [List.append_nil]
  rcases mem_finishScan hmem with rfl | rfl
  · refine ⟨offsetAt_copy hcopy', fun word h => ?_, fun h => ?_⟩
    · rcases h with h | h | h <;> cases h
    · rw [sliceBytes, Nat.sub_self, takeBytes] at h
      cases h
  · exact absurd (.inr rfl) hword

/-- A run reads words as they are spelled. -/
theorem spelled_of_run {scanner : Scanner} {lexemes : List Lexeme}
    (h : Run before scanner rest lexemes) (hcopy : List.Forall₂ SameOrTab text (before ++ rest)) :
    ∀ lexeme ∈ lexemes, ¬lexeme.tok.IsBlockMark → Spelled text lexeme := by
  induction h with
  | finish =>
    rw [List.append_nil] at hcopy
    exact spelled_finish hcopy _
  | blank => exact spelled_finish hcopy _
  | margin _ _ _ _ _ ih =>
    intro lexeme hmem hword
    rcases List.mem_append.1 hmem with hmem | hmem
    · exact absurd (changeLexemes_marks _ _ _ lexeme hmem).1 hword
    · rw [← List.append_assoc] at hcopy
      exact ih hcopy lexeme hmem hword
  | @piece before scanner c word rest tok lexemes _ hpiece _ ih =>
    intro lexeme hmem hword
    rcases List.mem_append.1 hmem with hmem | hmem
    · obtain ⟨t, ht, rfl⟩ := List.mem_map.1 hmem
      obtain rfl : tok = some t := by simpa using ht
      exact spelled_of_piece hcopy hpiece
    · rw [← List.append_assoc] at hcopy
      exact ih hcopy lexeme hmem hword

end

/-! ### From tokens to lexemes -/

section

variable {text : List Char} {lines : List (List Char)} {token : Token} {lexeme : Lexeme}
    {code : Nat}

theorem kind_eq (htoken : token.toPiece = pieceOf text lines lexeme code) :
    token.kind = kindOf lexeme.tok := by
  rw [← kind_pieceOf text lines lexeme code, ← htoken]

theorem lexeme_eq (htoken : token.toPiece = pieceOf text lines lexeme code)
    (hword : ¬lexeme.tok.IsBlockMark) :
    token.lexeme = String.ofList (sliceBytes text lexeme.start lexeme.stop) := by
  rw [pieceOf_of_not_isBlockMark text lines hword] at htoken
  exact congrArg Piece.lexeme htoken

theorem lexeme_eq_semicolon_iff (htoken : token.toPiece = pieceOf text lines lexeme code)
    (hspelled : ¬lexeme.tok.IsBlockMark → Spelled text lexeme) :
    token.lexeme = ";" ↔ lexeme.tok = .symbol ";" := by
  by_cases hmark : lexeme.tok.IsBlockMark
  · refine ⟨fun hlexeme => ?_, fun htok => ?_⟩
    · -- A mark is spelled by blanks or not at all.
      have hlexeme' : (pieceOf text lines lexeme code).lexeme = ";" := by rwa [← htoken]
      rcases hmark with htok | htok
      · simp only [pieceOf, htok, indentPiece] at hlexeme'
        have hblank := congrArg String.toList hlexeme'
        rw [String.toList_ofList] at hblank
        have hmem : ';' ∈ List.takeWhile isSpacing
            ((lines[(locationAt text code).line - 1]?).getD []) := by
          rw [hblank]
          decide
        exact absurd (List.mem_takeWhile_imp hmem) (by decide)
      · simp only [pieceOf, htok] at hlexeme'
        exact absurd hlexeme' (by decide)
    · rw [htok] at hmark
      rcases hmark with h | h <;> cases h
  · rw [lexeme_eq htoken hmark]
    refine ⟨fun hlexeme => (hspelled hmark).semicolon ?_, fun htok => ?_⟩
    · have hslice := congrArg String.toList hlexeme
      rwa [String.toList_ofList] at hslice
    · rw [(hspelled hmark).spelled ";" (.inr (.inr htok))]
      rfl

theorem isEnd_eq (htoken : token.toPiece = pieceOf text lines lexeme code)
    (hspelled : ¬lexeme.tok.IsBlockMark → Spelled text lexeme) (state : PrintState) :
    state.isEnd token = state.endsAt lexeme := by
  have hsemicolon := lexeme_eq_semicolon_iff htoken hspelled
  rw [PrintState.isEnd, PrintState.endsAt, kind_eq htoken]
  congr 1
  rw [Bool.eq_iff_iff, Bool.or_eq_true, Bool.or_eq_true, beq_iff_eq (b := ";"), hsemicolon]
  cases lexeme.tok <;> simp [kindOf, endsStatement]

section Word

variable (htoken : token.toPiece = pieceOf text lines lexeme code) (hword : ¬lexeme.tok.IsBlockMark)
  (hspelled : Spelled text lexeme)

include htoken hword hspelled

theorem lexeme_eq_of_tok {word : String}
    (htok : lexeme.tok = .name word ∨ lexeme.tok = .keyword word ∨ lexeme.tok = .symbol word) :
    token.lexeme = word := by
  rw [lexeme_eq htoken hword, hspelled.spelled word htok, String.ofList_toList]

theorem isOp_eq (symbol : String) : token.isOp symbol = (lexeme.tok == .symbol symbol) := by
  rw [Bool.eq_iff_iff, Token.isOp, Bool.and_eq_true, beq_iff_eq, beq_iff_eq, beq_iff_eq,
    kind_eq htoken]
  cases htok : lexeme.tok with
  | symbol spelled =>
    rw [lexeme_eq_of_tok htoken hword hspelled (.inr (.inr htok))]
    simp [kindOf]
  | _ => simp [kindOf]

theorem isName_eq (name : String) : token.isName name = (lexeme.tok == .name name) := by
  rw [Bool.eq_iff_iff, Token.isName, Bool.and_eq_true, beq_iff_eq, beq_iff_eq, beq_iff_eq,
    kind_eq htoken]
  cases htok : lexeme.tok with
  | name spelled =>
    rw [lexeme_eq_of_tok htoken hword hspelled (.inl htok)]
    simp [kindOf]
  | _ => simp [kindOf]

theorem depthAfter_eq (depth : Nat) : depthAfter depth token = depthPast depth lexeme.tok := by
  rw [depthAfter, kind_eq htoken]
  cases htok : lexeme.tok with
  | symbol spelled =>
    rw [lexeme_eq_of_tok htoken hword hspelled (.inr (.inr htok))]
    simp [kindOf, depthPast, isOpening, isClosing, or_assoc]
  | _ => simp [kindOf, depthPast]

theorem offsetAt_start : offsetAt text token.start = lexeme.start := by
  rw [pieceOf_of_not_isBlockMark text lines hword] at htoken
  rw [show token.start = token.toPiece.start from rfl, htoken, hspelled.offset_eq]

end Word

/-- A token that does not end a statement does what its lexeme does. -/
theorem after_eq (htoken : token.toPiece = pieceOf text lines lexeme code)
    (hspelled : ¬lexeme.tok.IsBlockMark → Spelled text lexeme)
    (hend : state.endsAt lexeme = false) : state.after text token = state.step lexeme := by
  rw [PrintState.after, PrintState.step, hend, if_neg Bool.false_ne_true, kind_eq htoken]
  by_cases hmark : (kindOf lexeme.tok).isBlockMark = true
  · rw [if_pos hmark, if_pos hmark]
  · have hword : ¬lexeme.tok.IsBlockMark := fun h => hmark (isBlockMark_kindOf_iff.2 h)
    rw [if_neg hmark, if_neg hmark, isOp_eq htoken hword (hspelled hword),
      Bool.and_comm (lexeme.tok == _), isName_eq htoken hword (hspelled hword),
      depthAfter_eq htoken hword (hspelled hword), offsetAt_start htoken hword (hspelled hword)]
    rfl

theorem step_of_startsAt (hstarts : state.startsAt lexeme = true) :
    state.opened = none ∧ state.endsAt lexeme = false ∧
    (state.step lexeme).opened = some lexeme.start := by
  have hstarts' := hstarts
  rw [PrintState.startsAt, Bool.and_eq_true, Bool.and_eq_true, Option.isNone_iff_eq_none,
    beq_iff_eq] at hstarts'
  obtain ⟨⟨-, hopened⟩, htok⟩ := hstarts'
  have hend : state.endsAt lexeme = false := by
    rw [PrintState.endsAt, htok]
    exact Bool.and_false _
  have hcolon : (state.depth == 0 && lexeme.tok == .symbol ":") = false := by
    rw [htok]
    exact Bool.and_false _
  refine ⟨hopened, hend, ?_⟩
  rw [PrintState.step, hend, hcolon, hstarts, htok]
  rfl

/-- Any other lexeme that ends no statement leaves open what is open. -/
theorem opened_step (hend : state.endsAt lexeme = false) (hstarts : state.startsAt lexeme = false) :
    (state.step lexeme).opened = state.opened := by
  rw [PrintState.step, hend, hstarts, if_neg Bool.false_ne_true]
  split
  · rfl
  · split <;> rfl

end

section

variable {text : List Char}

theorem withPass_endPiece {token : Token} (htoken : token.toPiece = endPiece text)
    (hopened : state.opened = none) :
    withPass text state [token] = [(endPiece text).view text] ∧
    printSpansFrom text state [token] = [] := by
  have hkind : token.kind = .endMarker := by
    rw [show token.kind = token.toPiece.kind from rfl, htoken]; rfl
  have hview : token.view text = (endPiece text).view text := by rw [← htoken]
  have hnext : (state.after text token).opened = none := by
    simp [PrintState.after, hkind, TokenKind.isBlockMark, Token.isOp, Token.isName, hopened]
  by_cases hend : state.isEnd token = true
  · simp [withPass, printSpansFrom, hend, hview, hopened]
  · simp [withPass, printSpansFrom, hend, hview, hopened, hnext]

/-- Tokens are read as the lexemes they are made of. -/
theorem withPass_eq {lines : List (List Char)} {lexemes : List Lexeme} {tokens : List Token}
    (htokens : tokens.map Token.toPiece = piecesOf text lines lexemes ++ [endPiece text])
    (hspelled : ∀ lexeme ∈ lexemes, ¬lexeme.tok.IsBlockMark → Spelled text lexeme)
    (hopened : (lexemes.foldl PrintState.step state).opened = none) :
    withPass text state tokens = (readings state lexemes).map (PrintReading.view text lines) ++
      [(endPiece text).view text] ∧ printSpansFrom text state tokens = spansOf state lexemes := by
  induction lexemes generalizing tokens state with
  | nil =>
    obtain ⟨token, rfl, htoken⟩ : ∃ token, tokens = [token] ∧ token.toPiece = endPiece text := by
      simpa [piecesOf, List.map_eq_cons_iff] using htokens
    exact withPass_endPiece htoken hopened
  | cons lexeme rest ih =>
    obtain ⟨hlexeme, hrest⟩ := List.forall_mem_cons.1 hspelled
    rw [piecesOf, List.cons_append] at htokens
    obtain ⟨token, tokens, rfl, htoken, htokens⟩ := List.map_eq_cons_iff.1 htokens
    obtain ⟨hpass, hspans⟩ := ih htokens hrest hopened
    have hview : token.view text = (PrintReading.kept lexeme (codeAt lexeme rest)).view text
        lines := by
      rw [PrintReading.view, show codeAt lexeme rest =
        (rest.head?.map Lexeme.start).getD lexeme.stop from rfl, ← htoken]
    rw [withPass, printSpansFrom, readings, spansOf, isEnd_eq htoken hlexeme]
    by_cases hend : state.endsAt lexeme = true
    · have hstep : { state with opened := none, atStart := true } = state.step lexeme := by
        rw [PrintState.step, if_pos hend]
      have hword : ¬lexeme.tok.IsBlockMark := fun hmark => by simp [endsAt_mark hmark] at hend
      have hstart := offsetAt_start htoken hword (hlexeme hword)
      rw [if_pos hend, if_pos hend, if_pos hend, hstep, hpass, hspans, hview, hstart,
        PrintState.reading, if_pos hend]
      refine ⟨rfl, ?_⟩
      cases state.opened <;> rfl
    · have hnot : state.endsAt lexeme = false := by simpa using hend
      rw [if_neg hend, if_neg hend, if_neg hend, after_eq htoken hlexeme hnot, hspans]
      refine ⟨?_, rfl⟩
      simp only [hpass, PrintState.reading, if_neg hend]
      by_cases hstarts : state.startsAt lexeme = true
      · obtain ⟨hclosed, -, hopens⟩ := step_of_startsAt hstarts
        simp only [hclosed, hopens, if_pos hstarts]
        rfl
      · have hsame := opened_step hnot (by simpa using hstarts)
        rw [if_neg hstarts, hsame]
        cases hstate : state.opened with
        | none => simp [hview]
        | some start => simp

end

/-! ### Soft keywords -/

/-- A lexeme with its soft keyword resolved, and the same one before that. -/
def Softened (a b : Lexeme) : Prop :=
  a = b ∨ ∃ word, softKeywords.contains word = true ∧ b.tok = .keyword word ∧
    a = ⟨.name word, b.start, b.stop⟩

theorem resolveSoftKeywords_softened (lineStart : Bool) (lexemes : List Lexeme) :
    List.Forall₂ Softened (resolveSoftKeywords lineStart lexemes) lexemes := by
  induction lexemes generalizing lineStart with
  | nil => exact .nil
  | cons lexeme rest ih =>
    refine .cons ?_ (ih _)
    obtain ⟨tok, start, stop⟩ := lexeme
    cases tok with
    | keyword word =>
      simp only [resolveSoftKeyword]
      split
      · next hsoft => exact .inr ⟨word, (Bool.and_eq_true_iff.1 hsoft).1, rfl, rfl⟩
      · exact .inl rfl
    | _ => exact .inl rfl

namespace Softened

variable {a b : Lexeme}

theorem start_eq (h : Softened a b) : a.start = b.start := by
  rcases h with rfl | ⟨word, -, -, rfl⟩ <;> rfl

theorem stop_eq (h : Softened a b) : a.stop = b.stop := by
  rcases h with rfl | ⟨word, -, -, rfl⟩ <;> rfl

theorem endsAt_eq (h : Softened a b) (state : PrintState) : state.endsAt a = state.endsAt b := by
  rcases h with rfl | ⟨word, -, htok, rfl⟩
  · rfl
  · rw [PrintState.endsAt, PrintState.endsAt, htok]
    rfl

/-- No soft keyword is `print`. -/
theorem startsAt_eq (h : Softened a b) (state : PrintState) :
    state.startsAt a = state.startsAt b := by
  rcases h with rfl | ⟨word, hsoft, htok, rfl⟩
  · rfl
  · have hword : word ≠ "print" := by
      rintro rfl
      revert hsoft
      decide
    have hname : (Tok.name word == Tok.name "print") = false :=
      beq_eq_false_iff_ne.2 fun h => hword (Tok.name.inj h)
    have hkeyword : (Tok.keyword word == Tok.name "print") = false :=
      beq_eq_false_iff_ne.2 (by simp)
    rw [PrintState.startsAt, PrintState.startsAt, htok, hname, hkeyword]

theorem step_eq (h : Softened a b) (state : PrintState) : state.step a = state.step b := by
  rw [PrintState.step, PrintState.step, h.endsAt_eq, h.startsAt_eq, h.start_eq]
  rcases h with rfl | ⟨word, -, htok, rfl⟩
  · rfl
  · rw [htok]
    simp [kindOf, TokenKind.isBlockMark, depthPast]

theorem eq_of_kind {a' : Lexeme} (h : Softened a b) (h' : Softened a' b)
    (hkind : kindOf a.tok = kindOf a'.tok) : a = a' := by
  rcases h with rfl | ⟨word, -, htok, rfl⟩ <;> rcases h' with rfl | ⟨word', -, htok', rfl⟩
  · rfl
  · rw [htok'] at hkind
    cases hkind
  · rw [htok] at hkind
    cases hkind
  · rw [htok] at htok'
    cases htok'
    rfl

theorem spelled {text : List Char} (h : Softened a b) (hb : Spelled text b) : Spelled text a := by
  rcases h with rfl | ⟨word, -, htok, rfl⟩
  · exact hb
  · refine ⟨hb.offset_eq, fun word' hword => hb.spelled word' ?_, fun hslice => ?_⟩
    · rcases hword with hword | hword | hword <;> cases hword
      exact .inr (.inl htok)
    · have := hb.semicolon hslice
      rw [htok] at this
      cases this

theorem isBlockMark_iff (h : Softened a b) : a.tok.IsBlockMark ↔ b.tok.IsBlockMark := by
  rcases h with rfl | ⟨word, -, htok, rfl⟩
  · rfl
  · rw [htok]
    simp [Tok.IsBlockMark]

end Softened

/-- The readings of a lexeme and of the same one before soft keywords are resolved. -/
inductive SoftReading : PrintReading → PrintReading → Prop
  | kept {a b : Lexeme} (h : Softened a b) (code : Nat) : SoftReading (.kept a code) (.kept b code)
  | pass (start : Nat) : SoftReading (.pass start) (.pass start)

section

variable {as bs : List Lexeme} (h : List.Forall₂ Softened as bs)

include h

theorem foldl_step_softened (state : PrintState) :
    as.foldl PrintState.step state = bs.foldl PrintState.step state := by
  induction h generalizing state with
  | nil => rfl
  | cons hab _ ih => rw [List.foldl_cons, List.foldl_cons, hab.step_eq, ih]

theorem spansOf_softened (state : PrintState) : spansOf state as = spansOf state bs := by
  induction h generalizing state with
  | nil => rfl
  | cons hab _ ih => rw [spansOf, spansOf, hab.step_eq, hab.endsAt_eq, hab.start_eq, ih]

theorem readings_softened (state : PrintState) :
    List.Forall₂ SoftReading (readings state as) (readings state bs) := by
  induction h generalizing state with
  | nil => exact .nil
  | @cons a b as bs hab hrest ih =>
    have hcode : codeAt a as = codeAt b bs := by
      rw [codeAt, codeAt, hab.stop_eq]
      cases hrest with
      | nil => rfl
      | cons hnext _ => simp [hnext.start_eq]
    rw [readings, readings, hab.step_eq, hcode]
    refine List.rel_append ?_ (ih _)
    rw [PrintState.reading, PrintState.reading, hab.endsAt_eq, hab.startsAt_eq, hab.start_eq]
    split
    · exact .cons (.kept hab _) .nil
    split
    · exact .cons (.pass _) .nil
    split
    · exact .cons (.kept hab _) .nil
    · exact .nil

end

theorem softened_map_lexeme {as bs : List PrintReading} (h : List.Forall₂ SoftReading as bs) :
    List.Forall₂ Softened (as.map PrintReading.lexeme) (bs.map PrintReading.lexeme) := by
  induction h with
  | nil => exact .nil
  | cons hab _ ih =>
    refine .cons ?_ ih
    cases hab with
    | kept h code => exact h
    | pass start => exact .inl rfl

theorem eq_of_map_kind {as as' bs : List Lexeme} (h : List.Forall₂ Softened as bs)
    (h' : List.Forall₂ Softened as' bs)
    (hkinds : (as.map fun lexeme => kindOf lexeme.tok) = as'.map fun lexeme => kindOf lexeme.tok) :
    as = as' := by
  induction h generalizing as' with
  | nil =>
    cases h'
    rfl
  | cons hab _ ih =>
    cases h' with
    | cons hab' hrest =>
      rw [List.map_cons, List.map_cons] at hkinds
      obtain ⟨hkind, hkinds⟩ := List.cons.inj hkinds
      rw [hab.eq_of_kind hab' hkind, ih hrest hkinds]

end PythonLint
