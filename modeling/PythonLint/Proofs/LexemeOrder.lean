import PythonLint.Lexeme.SoftKeyword
import PythonLint.Proofs.Result
import PythonLint.Proofs.Untabify

/-!
# Lexemes stand one after the other

The lexemes of a source lie in it from character to character, in order and without overlap.
`CutFrom before rest lexemes` says so of the part `rest` of a source that `before` precedes: each
lexeme other than the mark of a block is a word of `rest` that follows a gap, and the lexemes after
it are cut from what is left. A newline is a line end, or nothing at the end of the source.

The scanner counts characters down and reports numbers of bytes before a character, so that the
predicate holds of every run, whatever the single pieces are. It is kept when soft keywords are
resolved and when the tabs of a margin are put back.

Main statements: `scanFrom_cutFrom`, `scanModule_untabify_cutFrom`.
-/

namespace PythonLint

open Text

variable {before rest : List Char} {lexemes : List Lexeme} {size : Nat} {tok : Tok}

/-- What a newline stands for: a line end, or nothing at the end of a source. -/
def IsLineEnding (word : List Char) : Prop :=
  word = [] ∨ word = ['\n'] ∨ word = ['\r'] ∨ word = ['\r', '\n']

theorem IsLineEnding.not_mem_dropLast {word : List Char} (h : IsLineEnding word) :
    '\n' ∉ word.dropLast := by
  rcases h with rfl | rfl | rfl | rfl <;> decide

namespace Tok

/-- The token marks the start or the end of a block. -/
def IsBlockMark (tok : Tok) : Prop :=
  tok = .indent ∨ tok = .dedent

theorem not_isBlockMark_of_endsLine (h : endsLine tok = false) : ¬tok.IsBlockMark := by
  rintro (rfl | rfl) <;> cases h

theorem ne_newline_of_endsLine (h : endsLine tok = false) : tok ≠ .newline := by
  rintro rfl
  cases h

end Tok

/-- The lexemes are cut from `rest`, one after the other, when `before` precedes it in a source. -/
inductive CutFrom : (before rest : List Char) → List Lexeme → Prop
  | done (before rest : List Char) : CutFrom before rest []
  /-- The mark of a block ends where the line has its code. -/
  | mark {before : List Char} (gap : List Char) {rest : List Char} {lexeme : Lexeme}
      {lexemes : List Lexeme} (hmark : lexeme.tok.IsBlockMark)
      (hstop : lexeme.stop = byteLength (before ++ gap))
      (hrest : CutFrom (before ++ gap) rest lexemes) :
      CutFrom before (gap ++ rest) (lexeme :: lexemes)
  | word {before : List Char} (gap word : List Char) {rest : List Char} {lexeme : Lexeme}
      {lexemes : List Lexeme} (hcode : ¬lexeme.tok.IsBlockMark)
      (hnewline : lexeme.tok = .newline → IsLineEnding word)
      (hstart : lexeme.start = byteLength (before ++ gap))
      (hstop : lexeme.stop = byteLength (before ++ gap ++ word))
      (hrest : CutFrom (before ++ gap ++ word) rest lexemes) :
      CutFrom before (gap ++ word ++ rest) (lexeme :: lexemes)

namespace CutFrom

/-- What is passed without a lexeme belongs to the gap before the next one. -/
theorem widen {gap : List Char} (h : CutFrom (before ++ gap) rest lexemes) :
    CutFrom before (gap ++ rest) lexemes := by
  cases h with
  | done => exact done _ _
  | mark more hmark hstop hrest =>
    rw [List.append_assoc] at hstop hrest
    rw [← List.append_assoc]
    exact mark (gap ++ more) hmark hstop hrest
  | word more word hcode hnewline hstart hstop hrest =>
    rw [List.append_assoc before] at hstart hstop hrest
    rw [← List.append_assoc, ← List.append_assoc]
    exact CutFrom.word (gap ++ more) word hcode hnewline hstart hstop hrest

/-- Marks of blocks may be put before lexemes, all where the code of the line starts. -/
theorem prepend_marks {gap : List Char} {marks : List Lexeme}
    (hmarks : ∀ mark ∈ marks, mark.tok.IsBlockMark ∧ mark.stop = byteLength (before ++ gap))
    (h : CutFrom (before ++ gap) rest lexemes) :
    CutFrom before (gap ++ rest) (marks ++ lexemes) := by
  apply widen
  induction marks with
  | nil => exact h
  | cons mark marks ih =>
    obtain ⟨hmark, hstop⟩ := hmarks mark List.mem_cons_self
    have hothers := ih fun other hmem => hmarks other (List.mem_cons_of_mem _ hmem)
    refine CutFrom.mark [] hmark ?_ ?_
    · rw [List.append_nil]
      exact hstop
    · rw [List.append_nil]
      exact hothers

end CutFrom

/-! ### Single pieces -/

theorem endsLine_wordTok (word : String) : endsLine (wordTok word) = false := by
  unfold wordTok
  split <;> rfl

theorem endsLine_numberTok {real : Decimal → Tok} (hreal : ∀ value, endsLine (real value) = false)
    (value : Decimal) (size : Nat) (rest : List Char) :
    endsLine (numberTok real value size rest).1 = false := by
  unfold numberTok
  split
  · split
    · rfl
    · exact hreal value
  · exact hreal value

theorem endsLine_scanFloat {whole : List Char} {result : Tok × Nat}
    (h : scanFloat whole rest = .ok result) : endsLine result.1 = false := by
  obtain ⟨fraction, -, h⟩ := exists_of_bind_eq_ok h
  obtain ⟨exponent, -, h⟩ := exists_of_bind_eq_ok h
  cases h
  exact endsLine_numberTok (fun _ => rfl) _ _ _

theorem endsLine_scanNumber {text : List Char} {result : Tok × Nat}
    (h : scanNumber text = .ok result) : endsLine result.1 = false := by
  unfold scanNumber at h
  split at h
  · simp only at h
    split at h
    · cases h
    · cases h
      rfl
  · simp only at h
    split at h
    · exact endsLine_scanFloat h
    · split at h
      · cases h
      · cases h
        exact endsLine_numberTok (fun _ => rfl) _ _ _

theorem endsLine_scanLiteral {form : LiteralForm} {raw : Bool} {letters : Nat} {text : List Char}
    {result : Tok × Nat} (h : scanLiteral form raw letters text = .ok result) :
    endsLine result.1 = false := by
  obtain ⟨_, -, rfl⟩ := exists_of_map_eq_ok h
  rfl

/-- The line end at the start of a text is what a newline stands for. -/
theorem isLineEnding_take {c : Char} (hc : isLineEnd c = true) (rest : List Char) :
    IsLineEnding ((c :: rest).take (lineEndSize (c :: rest))) := by
  have hcases : c = '\n' ∨ c = '\r' := by simpa [isLineEnd] using hc
  unfold lineEndSize
  split
  · next rest' heq =>
    rw [heq]
    exact .inr (.inr (.inr rfl))
  · next d _ _ heq =>
    cases heq
    rw [if_pos hc]
    rcases hcases with rfl | rfl
    · exact .inr (.inl rfl)
    · exact .inr (.inr (.inl rfl))
  · next heq => cases heq

/-- A piece yields a token that ends no line, or a newline for the line end that it reads. -/
theorem scanPiece_tok {depth : Nat} {c : Char} (h : scanPiece depth c rest = .ok (some tok, size)) :
    endsLine tok = false ∨ tok = .newline ∧ IsLineEnding ((c :: rest).take size) := by
  unfold scanPiece at h
  simp only at h
  split at h
  · obtain ⟨result, hliteral, heq⟩ := exists_of_map_eq_ok h
    cases heq
    exact .inl (endsLine_scanLiteral hliteral)
  · split at h
    · simp only [Except.ok.injEq, Prod.mk.injEq, Option.some.injEq] at h
      rw [← h.1]
      exact .inl (endsLine_wordTok _)
    split at h
    · simp only [Except.ok.injEq, Prod.mk.injEq, Option.some.injEq] at h
      rw [← h.1]
      exact .inl rfl
    split at h
    · obtain ⟨result, hnumber, heq⟩ := exists_of_map_eq_ok h
      cases heq
      exact .inl (endsLine_scanNumber hnumber)
    split at h
    · simp at h
    split at h
    · next hend =>
      split at h
      · simp only [Except.ok.injEq, Prod.mk.injEq, Option.some.injEq] at h
        rw [← h.1, ← h.2]
        exact .inr ⟨rfl, isLineEnding_take hend rest⟩
      · simp at h
    split at h
    · simp at h
    split at h
    · obtain ⟨count, -, heq⟩ := exists_of_map_eq_ok h
      cases heq
    · split at h
      · split at h
        · cases h
        · simp only [Except.ok.injEq, Prod.mk.injEq, Option.some.injEq] at h
          rw [← h.1]
          exact .inl rfl
      · cases h

/-! ### Runs of the scanner -/

/-- The scan that reads one piece at the start of `c :: rest`, whatever the start of its line. -/
def pieceScan (offset : Nat) (scanner : Scanner) (c : Char) (rest : List Char) : Scan :=
  match scanPiece scanner.depth c rest with
  | .error (fault, count) => .fail fault (offset + byteLength ((c :: rest).take count))
  | .ok (tok, size) =>
    (scanFrom (offset + c.utf8Size) (scanner.after tok) (size - 1) rest).prepend
      (tok.toList.map fun tok => ⟨tok, offset, offset + byteLength ((c :: rest).take size)⟩)

theorem scanFrom_skip (offset : Nat) (scanner : Scanner) (skip : Nat) (c : Char)
    (rest : List Char) :
    scanFrom offset scanner (skip + 1) (c :: rest) =
      scanFrom (offset + c.utf8Size) scanner skip rest :=
  rfl

theorem scanFrom_cons (offset : Nat) (scanner : Scanner) (c : Char) (rest : List Char) :
    scanFrom offset scanner 0 (c :: rest) =
      if scanner.lineStart then
        match readMargin false .zero 0 (c :: rest) with
        | .error (fault, count) => .fail fault (offset + byteLength ((c :: rest).take count))
        | .ok (level, size) =>
          if size = rest.length + 1 then scanFrom (offset + c.utf8Size) scanner (size - 1) rest
          else match enterLine level scanner.levels with
            | .error fault => .fail fault (offset + byteLength ((c :: rest).take size))
            | .ok (change, levels) =>
              (if size = 0 then pieceScan offset { scanner with lineStart := false, levels } c rest
                else scanFrom (offset + c.utf8Size) { scanner with lineStart := false, levels }
                  (size - 1) rest).prepend
                (changeLexemes level (offset + byteLength ((c :: rest).take size)) change)
      else pieceScan offset scanner c rest :=
  rfl

/-- The lexemes for a change of levels mark blocks and end where the code of the line starts. -/
theorem changeLexemes_marks (level : Level) (offset : Nat) (change : LineChange) :
    ∀ mark ∈ changeLexemes level offset change, mark.tok.IsBlockMark ∧ mark.stop = offset := by
  intro mark hmem
  cases change with
  | same => cases hmem
  | opens =>
    rw [changeLexemes, List.mem_singleton] at hmem
    subst hmem
    exact ⟨.inl rfl, rfl⟩
  | closes count =>
    rw [changeLexemes, List.mem_replicate] at hmem
    rw [hmem.2]
    exact ⟨.inr rfl, rfl⟩

/-- At the end of a source only empty lexemes are left. -/
theorem finishScan_cutFrom (before : List Char) (scanner : Scanner) :
    CutFrom before [] (finishScan (byteLength before) scanner).lexemes := by
  have hmarks : CutFrom before []
      (scanner.levels.map fun _ => ⟨.dedent, byteLength before, byteLength before⟩) := by
    have h : CutFrom before ([] ++ [])
        ((scanner.levels.map fun _ => ⟨.dedent, byteLength before, byteLength before⟩) ++ []) := by
      refine CutFrom.prepend_marks (fun mark hmem => ?_) (.done _ _)
      obtain ⟨_, _, rfl⟩ := List.mem_map.1 hmem
      exact ⟨.inr rfl, by simp⟩
    simpa using h
  unfold finishScan
  by_cases hdepth : scanner.depth ≠ 0
  · rw [if_pos hdepth]
    exact .done _ _
  · rw [if_neg hdepth]
    by_cases hstart : scanner.lineStart = true
    · simp only [hstart, if_true, List.nil_append]
      exact hmarks
    · simp only [hstart, Bool.false_eq_true, if_false]
      refine CutFrom.word [] [] ?_ ?_ ?_ ?_ ?_
      · rintro (h | h) <;> cases h
      · exact fun _ => .inl rfl
      · simp
      · simp
      · simpa using hmarks

/-- The rest of a text after a piece at its start, the scanner having moved one character on. -/
theorem take_cons_of_pos (c : Char) (rest : List Char) (h : size ≠ 0) :
    (c :: rest).take size = c :: rest.take (size - 1) ∧
      (c :: rest).drop size = rest.drop (size - 1) := by
  obtain ⟨n, rfl⟩ := Nat.exists_eq_succ_of_ne_zero h
  exact ⟨rfl, rfl⟩

section Step

variable {c : Char} {rest : List Char}

/-- The run that goes on after one character, under the hypothesis that the runs over the rest of
the text cut lexemes from it. -/
theorem cutFrom_of_next
    (ih : ∀ (before : List Char) (scanner : Scanner) (skip : Nat),
      CutFrom (before ++ rest.take skip) (rest.drop skip)
      (scanFrom (byteLength before) scanner skip rest).lexemes)
    (before : List Char) (scanner : Scanner) (hsize : size ≠ 0) :
    CutFrom (before ++ (c :: rest).take size) ((c :: rest).drop size)
      (scanFrom (byteLength before + c.utf8Size) scanner (size - 1) rest).lexemes := by
  obtain ⟨htake, hdrop⟩ := take_cons_of_pos c rest hsize
  have h := ih (before ++ [c]) scanner (size - 1)
  have hbytes : byteLength (before ++ [c]) = byteLength before + c.utf8Size := by simp
  rw [htake, hdrop]
  simpa [hbytes] using h

theorem pieceScan_cutFrom
    (ih : ∀ (before : List Char) (scanner : Scanner) (skip : Nat),
      CutFrom (before ++ rest.take skip) (rest.drop skip)
        (scanFrom (byteLength before) scanner skip rest).lexemes)
    (before : List Char) (scanner : Scanner) :
    CutFrom before (c :: rest) (pieceScan (byteLength before) scanner c rest).lexemes := by
  unfold pieceScan
  split
  · exact .done _ _
  · next tok size hpiece =>
    -- A piece of no length is passed like one character that yields no lexeme.
    have hrun : CutFrom (before ++ (c :: rest).take size) ((c :: rest).drop size)
        (scanFrom (byteLength before + c.utf8Size) (scanner.after tok) (size - 1)
          rest).lexemes := by
      by_cases hsize : size = 0
      · subst hsize
        have h := cutFrom_of_next (c := c) ih before (scanner.after tok) Nat.one_ne_zero
        simpa using h.widen
      · exact cutFrom_of_next ih before _ hsize
    cases tok with
    | none =>
      have h := hrun.widen
      rw [List.take_append_drop] at h
      exact h
    | some tok =>
      have h : CutFrom before ([] ++ (c :: rest).take size ++ (c :: rest).drop size)
          (⟨tok, byteLength before, byteLength before + byteLength ((c :: rest).take size)⟩ ::
            (scanFrom (byteLength before + c.utf8Size) (scanner.after (some tok)) (size - 1)
              rest).lexemes) := by
        refine CutFrom.word [] _ ?_ ?_ ?_ ?_ ?_
        · rcases scanPiece_tok hpiece with htok | ⟨rfl, _⟩
          · exact Tok.not_isBlockMark_of_endsLine htok
          · rintro (h | h) <;> cases h
        · intro hnewline
          rcases scanPiece_tok hpiece with htok | ⟨_, hword⟩
          · exact absurd hnewline (Tok.ne_newline_of_endsLine htok)
          · exact hword
        · simp
        · simp
        · simpa using hrun
      rw [List.nil_append, List.take_append_drop] at h
      exact h

theorem scanFrom_cons_cutFrom
    (ih : ∀ (before : List Char) (scanner : Scanner) (skip : Nat),
      CutFrom (before ++ rest.take skip) (rest.drop skip)
        (scanFrom (byteLength before) scanner skip rest).lexemes)
    (before : List Char) (scanner : Scanner) :
    CutFrom before (c :: rest) (scanFrom (byteLength before) scanner 0 (c :: rest)).lexemes := by
  rw [scanFrom_cons]
  by_cases hstart : scanner.lineStart = true
  · rw [if_pos hstart]
    split
    · exact .done _ _
    · next level size _ =>
      by_cases hall : size = rest.length + 1
      · rw [if_pos hall]
        have hsize : size ≠ 0 := by omega
        have h := (cutFrom_of_next (c := c) ih before scanner hsize).widen
        rw [List.take_append_drop] at h
        exact h
      · rw [if_neg hall]
        split
        · exact .done _ _
        · next change levels _ =>
          have hrun : CutFrom (before ++ (c :: rest).take size) ((c :: rest).drop size)
              (if size = 0 then
                pieceScan (byteLength before) { scanner with lineStart := false, levels } c rest
              else scanFrom (byteLength before + c.utf8Size)
                { scanner with lineStart := false, levels } (size - 1) rest).lexemes := by
            by_cases hsize : size = 0
            · subst hsize
              simpa using pieceScan_cutFrom ih before _
            · rw [if_neg hsize]
              exact cutFrom_of_next ih before _ hsize
          have hmarks := changeLexemes_marks level
            (byteLength before + byteLength ((c :: rest).take size)) change
          have h := CutFrom.prepend_marks (by simpa using hmarks) hrun
          rw [List.take_append_drop] at h
          exact h
  · rw [if_neg hstart]
    exact pieceScan_cutFrom ih before scanner

end Step

/-- Every run of the scanner cuts its lexemes from the text, in order and without overlap. -/
theorem scanFrom_cutFrom (text before : List Char) (scanner : Scanner) (skip : Nat) :
    CutFrom (before ++ text.take skip) (text.drop skip)
      (scanFrom (byteLength before) scanner skip text).lexemes := by
  induction text generalizing before scanner skip with
  | nil =>
    rw [List.take_nil, List.drop_nil, List.append_nil]
    exact finishScan_cutFrom before scanner
  | cons c rest ih =>
    cases skip with
    | zero => simpa using scanFrom_cons_cutFrom ih before scanner
    | succ skip =>
      rw [scanFrom_skip]
      simpa using cutFrom_of_next (c := c) ih before scanner (Nat.succ_ne_zero skip)

/-- A byte order mark at the start of a source is passed over, and the scan starts behind it. -/
theorem scanAt_eq_scanFrom (text : List Char) :
    ∃ mark rest, text = mark ++ rest ∧ (mark = [] ∨ mark = [byteOrderMark]) ∧
      scanAt 0 text = scanFrom (byteLength mark) .initial 0 rest := by
  by_cases hmark : text.head? = some byteOrderMark
  · obtain ⟨rest, rfl⟩ : ∃ rest, text = byteOrderMark :: rest := by
      cases text with
      | nil => cases hmark
      | cons c rest => exact ⟨rest, by rw [Option.some.inj hmark]⟩
    exact ⟨[byteOrderMark], rest, rfl, .inr rfl, rfl⟩
  · refine ⟨[], text, rfl, .inl rfl, ?_⟩
    rw [scanAt, if_neg hmark]
    rfl

theorem scanAt_cutFrom (text : List Char) : CutFrom [] text (scanAt 0 text).lexemes := by
  obtain ⟨mark, rest, rfl, -, hscan⟩ := scanAt_eq_scanFrom text
  have h : CutFrom ([] ++ mark) rest (scanFrom (byteLength mark) .initial 0 rest).lexemes := by
    simpa using scanFrom_cutFrom rest mark .initial 0
  rw [hscan]
  exact h.widen

/-! ### Soft keywords -/

/-- Resolving a soft keyword changes neither marks of blocks nor newlines. -/
theorem endsLine_resolveSoftKeyword (lineStart : Bool) (tok : Tok) (rest : List Lexeme) :
    resolveSoftKeyword lineStart tok rest = tok ∨
      endsLine tok = false ∧ endsLine (resolveSoftKeyword lineStart tok rest) = false := by
  cases tok with
  | keyword word =>
    simp only [resolveSoftKeyword]
    split
    · exact .inr ⟨rfl, rfl⟩
    · exact .inl rfl
  | _ => exact .inl rfl

theorem CutFrom.resolveSoftKeywords (h : CutFrom before rest lexemes) (lineStart : Bool) :
    CutFrom before rest (PythonLint.resolveSoftKeywords lineStart lexemes) := by
  induction h generalizing lineStart with
  | done => exact .done _ _
  | @mark before gap rest lexeme lexemes hmark hstop hrest ih =>
    refine CutFrom.mark gap ?_ hstop (ih _)
    rcases endsLine_resolveSoftKeyword lineStart lexeme.tok lexemes with h | ⟨h, _⟩
    · rw [h]
      exact hmark
    · exact absurd hmark (Tok.not_isBlockMark_of_endsLine h)
  | @word before gap word rest lexeme lexemes hcode hnewline hstart hstop hrest ih =>
    refine CutFrom.word gap word ?_ ?_ hstart hstop (ih _)
    · rcases endsLine_resolveSoftKeyword lineStart lexeme.tok lexemes with h | ⟨_, h⟩
      · rw [h]
        exact hcode
      · exact Tok.not_isBlockMark_of_endsLine h
    · intro hline
      rcases endsLine_resolveSoftKeyword lineStart lexeme.tok lexemes with h | ⟨_, h⟩
      · exact hnewline (h.symm.trans hline)
      · exact absurd hline (Tok.ne_newline_of_endsLine h)

/-! ### Tabs -/

theorem eq_of_sameOrTab {a b : List Char} (h : List.Forall₂ SameOrTab a b) (hb : ' ' ∉ b) :
    a = b := by
  induction h with
  | nil => rfl
  | @cons c d a b hcd _ ih =>
    have hd : d = c := by
      rcases hcd with hd | ⟨_, rfl⟩
      · exact hd
      · exact absurd List.mem_cons_self hb
    rw [hd, ih fun hmem => hb (List.mem_cons_of_mem _ hmem)]

theorem exists_append_of_forall₂ {α β : Type} {R : α → β → Prop} {l : List α} {a b : List β}
    (h : List.Forall₂ R l (a ++ b)) :
    ∃ a' b', l = a' ++ b' ∧ List.Forall₂ R a' a ∧ List.Forall₂ R b' b :=
  ⟨l.take a.length, l.drop a.length, (List.take_append_drop _ _).symm,
    List.forall₂_take_append l a b h, List.forall₂_drop_append l a b h⟩

theorem CutFrom.of_sameOrTab {before' rest' : List Char} (h : CutFrom before' rest' lexemes)
    (hbefore : List.Forall₂ SameOrTab before before') (hrest : List.Forall₂ SameOrTab rest rest') :
    CutFrom before rest lexemes := by
  induction h generalizing before rest with
  | done => exact .done _ _
  | mark gap' hmark hstop _ ih =>
    obtain ⟨gap, tail, rfl, hgap, htail⟩ := exists_append_of_forall₂ hrest
    have hpast := List.rel_append hbefore hgap
    refine CutFrom.mark gap hmark ?_ (ih hpast htail)
    rw [hstop, byteLength_eq_of_sameOrTab hpast]
  | word gap' word' hcode hnewline hstart hstop _ ih =>
    obtain ⟨head, tail, rfl, hhead, htail⟩ := exists_append_of_forall₂ hrest
    obtain ⟨gap, word, rfl, hgap, hword⟩ := exists_append_of_forall₂ hhead
    have hpast := List.rel_append hbefore hgap
    have hend := List.rel_append hpast hword
    refine CutFrom.word gap word hcode ?_ ?_ ?_ (ih hend htail)
    · intro hline
      have hending := hnewline hline
      have hspace : ' ' ∉ word' := by
        rcases hending with rfl | rfl | rfl | rfl <;> decide
      rw [eq_of_sameOrTab hword hspace]
      exact hending
    · rw [hstart, byteLength_eq_of_sameOrTab hpast]
    · rw [hstop, byteLength_eq_of_sameOrTab hend]

/-- The lexemes that the tokens of a source are made of are cut from the source, although a copy of
it is scanned. -/
theorem scanModule_untabify_cutFrom (text : List Char) :
    CutFrom [] text (scanModule (untabify text)).lexemes := by
  have hscan : CutFrom [] (untabify text) (scanModule (untabify text)).lexemes :=
    (scanAt_cutFrom (untabify text)).resolveSoftKeywords true
  exact hscan.of_sameOrTab .nil (untabify_sameOrTab text)

end PythonLint
