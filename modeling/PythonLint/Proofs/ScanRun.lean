import PythonLint.Proofs.LexemeOrder
import PythonLint.Proofs.Piece

/-!
# Runs of the scanner

The scanner moves on by one character and counts down what the last piece has taken. Here its runs
are described by what it reads at once: the margin of a line, or one piece. `Run before scanner text
lexemes` says that the scanner, in the state `scanner` and with `before` behind it, reads `text` to
its end without a fault and yields `lexemes`. One equation for each thing that is read ties the two
together.

Main statements: `scanFrom_piece`, `scanFrom_margin`, `run_of_fault_eq_none`.
-/

namespace PythonLint

open Text

variable {comment : Bool} {c : Char} {level : Level} {before rest text : List Char} {size : Nat}
    {scanner : Scanner}

/-! ### Steps -/

theorem scanFrom_drop (offset : Nat) (scanner : Scanner) (skip : Nat) (text : List Char) :
    scanFrom offset scanner skip text =
      scanFrom (offset + byteLength (text.take skip)) scanner 0 (text.drop skip) := by
  induction text generalizing offset skip with
  | nil => rw [List.take_nil, List.drop_nil, byteLength_nil, Nat.add_zero]; rfl
  | cons c rest ih =>
    cases skip with
    | zero => rw [List.take_zero, List.drop_zero, byteLength_nil, Nat.add_zero]
    | succ skip =>
      rw [scanFrom_skip, ih, List.take_succ_cons, List.drop_succ_cons, byteLength_cons,
        Nat.add_assoc]

theorem scanFrom_next (offset : Nat) (scanner : Scanner) (hsize : size ≠ 0) (c : Char)
    (rest : List Char) :
    scanFrom (offset + c.utf8Size) scanner (size - 1) rest =
      scanFrom (offset + byteLength ((c :: rest).take size)) scanner 0 ((c :: rest).drop size) := by
  obtain ⟨htake, hdrop⟩ := take_cons_of_pos c rest hsize
  rw [scanFrom_drop, htake, hdrop, byteLength_cons, Nat.add_assoc]

theorem scanFrom_of_not_lineStart (hstart : scanner.lineStart = false) (offset : Nat) (c : Char)
    (rest : List Char) :
    scanFrom offset scanner 0 (c :: rest) = pieceScan offset scanner c rest := by
  rw [scanFrom_cons, hstart, if_neg Bool.false_ne_true]

/-- Inside a line one piece is read. -/
theorem scanFrom_piece (hstart : scanner.lineStart = false) {tok : Option Tok}
    (hpiece : scanPiece scanner.depth c rest = .ok (tok, size)) (offset : Nat) :
    scanFrom offset scanner 0 (c :: rest) =
      (scanFrom (offset + byteLength ((c :: rest).take size)) (scanner.after tok) 0
        ((c :: rest).drop size)).prepend
        (tok.toList.map fun tok => ⟨tok, offset, offset + byteLength ((c :: rest).take size)⟩) := by
  have hsize := (isPiece_of_scanPiece hpiece).size_bounds.1
  rw [scanFrom_of_not_lineStart hstart, pieceScan, hpiece]
  simp only
  rw [scanFrom_next _ _ (by omega)]

/-- At the start of a line the margin is read, before code. -/
theorem scanFrom_margin (hstart : scanner.lineStart = true)
    (hmargin : readMargin false .zero 0 text = .ok (level, size)) (hcode : size < text.length)
    {change : LineChange} {levels : List Level}
    (henter : enterLine level scanner.levels = .ok (change, levels)) (offset : Nat) :
    scanFrom offset scanner 0 text =
      (scanFrom (offset + byteLength (text.take size)) { scanner with lineStart := false, levels } 0
        (text.drop size)).prepend
        (changeLexemes level (offset + byteLength (text.take size)) change) := by
  cases text with
  | nil => cases hcode
  | cons c rest =>
    have hmore : ¬size = rest.length + 1 := by
      rw [List.length_cons] at hcode
      omega
    rw [scanFrom_cons, if_pos hstart, hmargin]
    simp only [if_neg hmore, henter]
    by_cases hsize : size = 0
    · subst hsize
      rw [if_pos rfl, List.take_zero, List.drop_zero, byteLength_nil, Nat.add_zero,
        scanFrom_of_not_lineStart rfl]
    · rw [if_neg hsize, scanFrom_next _ _ hsize]

/-- A margin that takes all that is left yields nothing. -/
theorem scanFrom_blank (hstart : scanner.lineStart = true) (htext : text ≠ [])
    (hmargin : readMargin false .zero 0 text = .ok (level, text.length)) (offset : Nat) :
    scanFrom offset scanner 0 text = finishScan (offset + byteLength text) scanner := by
  cases text with
  | nil => exact absurd rfl htext
  | cons c rest =>
    have hsize : (c :: rest).length ≠ 0 := by simp
    rw [scanFrom_cons, if_pos hstart, hmargin]
    simp only [List.length_cons, if_true]
    rw [← List.length_cons, scanFrom_next _ _ hsize, List.take_length, List.drop_length]
    rfl

/-- What one character of a margin does to the level that has been measured, inside a comment or
not. -/
inductive MarginStep : (comment : Bool) → Level → Char → (comment' : Bool) → Level → Prop
  | lineEnd {comment : Bool} {level : Level} {c : Char} (hc : isLineEnd c = true) :
      MarginStep comment level c false .zero
  | inComment {level : Level} {c : Char} (hc : isLineEnd c = false) :
      MarginStep true level c true .zero
  | space {level : Level} : MarginStep false level ' ' false ⟨level.tabs, level.spaces + 1⟩
  | tab {level : Level} (hspaces : level.spaces = 0) :
      MarginStep false level '\t' false ⟨level.tabs + 1, level.spaces⟩
  | formFeed {level : Level} : MarginStep false level '\x0c' false .zero
  | comment {level : Level} : MarginStep false level '#' true .zero

theorem readMargin_cons {result : Level × Nat}
    (h : readMargin comment level size (c :: rest) = .ok result) :
    (comment = false ∧ isLineEnd c = false ∧ isSpacing c = false ∧ c ≠ '#' ∧
      result = (level, size)) ∨ ∃ comment' level', MarginStep comment level c comment' level' ∧
        readMargin comment' level' (size + 1) rest = .ok result := by
  unfold readMargin at h
  split at h
  · next hc => exact .inr ⟨_, _, .lineEnd hc, h⟩
  next hline =>
  split at h
  · next hcomment =>
    subst hcomment
    exact .inr ⟨_, _, .inComment (by simpa using hline), h⟩
  next hcomment =>
  obtain rfl : comment = false := by simpa using hcomment
  split at h
  · next hc =>
    subst hc
    exact .inr ⟨_, _, .space, h⟩
  next hspace =>
  split at h
  · next hc =>
    subst hc
    split at h
    · cases h
    · next hspaces => exact .inr ⟨_, _, .tab (by simpa using hspaces), h⟩
  next htab =>
  split at h
  · next hc =>
    subst hc
    exact .inr ⟨_, _, .formFeed, h⟩
  next hfeed =>
  split at h
  · next hc =>
    subst hc
    exact .inr ⟨_, _, .comment, h⟩
  · next hcode =>
    cases h
    exact .inl ⟨rfl, by simpa using hline, by simp [isSpacing, hspace, htab, hfeed], hcode, rfl⟩

theorem MarginStep.readMargin_eq {comment' : Bool} {level' : Level}
    (h : MarginStep comment level c comment' level') (size : Nat) (rest : List Char) :
    readMargin comment level size (c :: rest) = readMargin comment' level' (size + 1) rest := by
  rw [readMargin]
  cases h with
  | lineEnd hc => rw [if_pos hc]
  | inComment hc => rw [if_neg (by simp [hc]), if_pos rfl]
  | space => rfl
  | tab hspaces => simp [hspaces, isLineEnd]
  | formFeed => rfl
  | comment => rfl

theorem readMargin_code (hline : isLineEnd c = false) (hspacing : isSpacing c = false)
    (hcomment : c ≠ '#') (level : Level) (size : Nat) (rest : List Char) :
    readMargin false level size (c :: rest) = .ok (level, size) := by
  simp only [isSpacing, Bool.or_eq_false_iff, decide_eq_false_iff_not] at hspacing
  obtain ⟨⟨hspace, htab⟩, hfeed⟩ := hspacing
  rw [readMargin, hline, if_neg Bool.false_ne_true, if_neg Bool.false_ne_true, if_neg hspace,
    if_neg htab, if_neg hfeed, if_neg hcomment]

theorem readMargin_size {start : Level} {before : Nat}
    (h : readMargin comment start before text = .ok (level, size)) :
    before ≤ size ∧ size ≤ before + text.length := by
  induction text generalizing comment start before with
  | nil =>
    cases h
    exact ⟨Nat.le_refl _, Nat.le_refl _⟩
  | cons c rest ih =>
    rw [List.length_cons]
    rcases readMargin_cons h with ⟨-, -, -, -, hstop⟩ | ⟨comment', level', -, hrest⟩
    · cases hstop
      omega
    · have := ih hrest
      omega

/-! ### Runs -/

/-- The scanner reads `text` to its end without a fault and yields the lexemes, when `before` is
behind it. -/
inductive Run : (before : List Char) → Scanner → (text : List Char) → List Lexeme → Prop
  | finish {before : List Char} {scanner : Scanner} (hdepth : scanner.depth = 0) :
      Run before scanner [] (finishScan (byteLength before) scanner).lexemes
  /-- Lines without code up to the end of the source. -/
  | blank {before : List Char} {scanner : Scanner} {text : List Char} {level : Level}
      (hdepth : scanner.depth = 0) (hstart : scanner.lineStart = true) (htext : text ≠ [])
      (hmargin : readMargin false .zero 0 text = .ok (level, text.length)) :
      Run before scanner text (finishScan (byteLength (before ++ text)) scanner).lexemes
  | margin {before : List Char} {scanner : Scanner} {margin code : List Char} {level : Level}
      {change : LineChange} {levels : List Level} {lexemes : List Lexeme}
      (hstart : scanner.lineStart = true) (hcode : code ≠ [])
      (hmargin : readMargin false .zero 0 (margin ++ code) = .ok (level, margin.length))
      (henter : enterLine level scanner.levels = .ok (change, levels))
      (hrest : Run (before ++ margin) { scanner with lineStart := false, levels } code lexemes) :
      Run before scanner (margin ++ code)
        (changeLexemes level (byteLength (before ++ margin)) change ++ lexemes)
  | piece {before : List Char} {scanner : Scanner} {c : Char} {word rest : List Char}
      {tok : Option Tok} {lexemes : List Lexeme} (hstart : scanner.lineStart = false)
      (hpiece : scanPiece scanner.depth c (word ++ rest) = .ok (tok, word.length + 1))
      (hrest : Run (before ++ c :: word) (scanner.after tok) rest lexemes) :
      Run before scanner (c :: word ++ rest)
        ((tok.toList.map fun tok => ⟨tok, byteLength before, byteLength (before ++ c :: word)⟩) ++
          lexemes)

theorem finishScan_of_depth (h : scanner.depth = 0) (offset : Nat) :
    finishScan offset scanner = ⟨(finishScan offset scanner).lexemes, none⟩ := by
  simp [finishScan, h]

theorem mem_finishScan {offset : Nat} {lexeme : Lexeme}
    (h : lexeme ∈ (finishScan offset scanner).lexemes) :
    lexeme = ⟨.newline, offset, offset⟩ ∨ lexeme = ⟨.dedent, offset, offset⟩ := by
  rw [finishScan] at h
  split at h
  · cases h
  · rcases List.mem_append.1 h with h | h
    · split at h
      · cases h
      · exact .inl (List.mem_singleton.1 h)
    · obtain ⟨_, -, rfl⟩ := List.mem_map.1 h
      exact .inr rfl

theorem fault_prepend (lexemes : List Lexeme) (scan : Scan) :
    (scan.prepend lexemes).fault = scan.fault := rfl

namespace Scan

/-- The scan ends at once in a fault. -/
def Fails (scan : Scan) : Prop :=
  ∃ fault offset, scan = fail fault offset

variable {scan : Scan}

theorem not_fails_of_fault (h : scan.fault = none) : ¬scan.Fails := by
  rintro ⟨fault, offset, rfl⟩
  cases h

theorem not_fails_of_mem {lexeme : Lexeme} (h : lexeme ∈ scan.lexemes) : ¬scan.Fails := by
  rintro ⟨fault, offset, rfl⟩
  cases h

end Scan

/-- Inside a line a scan fails or goes on with a piece. -/
theorem exists_piece (hstart : scanner.lineStart = false)
    (h : ¬(scanFrom (byteLength before) scanner 0 (c :: rest)).Fails) :
    ∃ word tail tok, rest = word ++ tail ∧
      scanPiece scanner.depth c (word ++ tail) = .ok (tok, word.length + 1) ∧
      scanFrom (byteLength before) scanner 0 (c :: rest) =
        (scanFrom (byteLength (before ++ c :: word)) (scanner.after tok) 0 tail).prepend
          (tok.toList.map fun tok => ⟨tok, byteLength before,
            byteLength (before ++ c :: word)⟩) := by
  cases hpiece : scanPiece scanner.depth c rest with
  | error fault =>
    rw [scanFrom_of_not_lineStart hstart, pieceScan, hpiece] at h
    exact absurd ⟨_, _, rfl⟩ h
  | ok result =>
    obtain ⟨tok, size⟩ := result
    obtain ⟨hpos, hle⟩ := (isPiece_of_scanPiece hpiece).size_bounds
    obtain ⟨n, rfl⟩ := Nat.exists_eq_add_of_le' hpos
    rw [List.length_cons] at hle
    have hsplit : rest.take n ++ rest.drop n = rest := List.take_append_drop n rest
    have hword : (rest.take n).length = n := by
      rw [List.length_take]
      omega
    refine ⟨rest.take n, rest.drop n, tok, hsplit.symm, ?_, ?_⟩
    · rw [hsplit, hword]
      exact hpiece
    · rw [scanFrom_piece hstart hpiece, List.drop_succ_cons, List.take_succ_cons,
        ← byteLength_append]

/-- At the start of a line a scan fails, finds no more code, or goes on with the code of a line. -/
theorem blank_or_margin (hstart : scanner.lineStart = true) (htext : text ≠ [])
    (h : ¬(scanFrom (byteLength before) scanner 0 text).Fails) :
    (∃ level, scanner.depth = 0 ∧ readMargin false .zero 0 text = .ok (level, text.length) ∧
        scanFrom (byteLength before) scanner 0 text =
          finishScan (byteLength (before ++ text)) scanner) ∨
      ∃ margin code level change levels, text = margin ++ code ∧ code ≠ [] ∧
        readMargin false .zero 0 (margin ++ code) = .ok (level, margin.length) ∧
        enterLine level scanner.levels = .ok (change, levels) ∧
        scanFrom (byteLength before) scanner 0 text =
          (scanFrom (byteLength (before ++ margin)) { scanner with lineStart := false, levels } 0
            code).prepend
            (changeLexemes level (byteLength (before ++ margin)) change) := by
  obtain ⟨c, rest, rfl⟩ := List.exists_cons_of_ne_nil htext
  cases hmargin : readMargin false .zero 0 (c :: rest) with
  | error fault =>
    rw [scanFrom_cons, if_pos hstart, hmargin] at h
    exact absurd ⟨_, _, rfl⟩ h
  | ok result =>
    obtain ⟨level, size⟩ := result
    have hsize := (readMargin_size hmargin).2
    rw [Nat.zero_add] at hsize
    by_cases hall : size = (c :: rest).length
    · subst hall
      have hblank := scanFrom_blank hstart htext hmargin (byteLength before)
      rw [← byteLength_append] at hblank
      refine .inl ⟨level, ?_, rfl, hblank⟩
      by_contra hdepth
      rw [hblank, finishScan, if_pos hdepth] at h
      exact absurd ⟨_, _, rfl⟩ h
    · have hcode : size < (c :: rest).length := by omega
      cases henter : enterLine level scanner.levels with
      | error fault =>
        rw [List.length_cons] at hall
        rw [scanFrom_cons, if_pos hstart, hmargin] at h
        simp only [if_neg hall, henter] at h
        exact absurd ⟨_, _, rfl⟩ h
      | ok result =>
        obtain ⟨change, levels⟩ := result
        have hsplit := List.take_append_drop size (c :: rest)
        have hlength : ((c :: rest).take size).length = size := by
          rw [List.length_take]
          omega
        refine .inr ⟨(c :: rest).take size, (c :: rest).drop size, level, change, levels,
          hsplit.symm, ?_, ?_, henter, ?_⟩
        · rw [Ne, List.drop_eq_nil_iff]
          omega
        · rw [hsplit, hlength]
          exact hmargin
        · rw [scanFrom_margin hstart hmargin hcode henter, ← byteLength_append]

theorem run_of_fault_eq_none (h : (scanFrom (byteLength before) scanner 0 text).fault = none) :
    Run before scanner text (scanFrom (byteLength before) scanner 0 text).lexemes := by
  -- A piece makes the text shorter; an empty margin does not, but it is followed by a piece.
  induction hmeasure : 2 * text.length + (if scanner.lineStart then 1 else 0)
    using Nat.strong_induction_on generalizing before scanner text with
  | _ measure ih =>
    subst hmeasure
    cases text with
    | nil =>
      refine Run.finish ?_
      by_contra hdepth
      simp [scanFrom, finishScan, hdepth, Scan.fail] at h
    | cons c rest =>
      cases hstart : scanner.lineStart with
      | false =>
        obtain ⟨word, tail, tok, rfl, hpiece, hscan⟩ :=
          exists_piece hstart (Scan.not_fails_of_fault h)
        rw [hscan, fault_prepend] at h
        rw [hscan]
        refine Run.piece hstart hpiece (ih _ ?_ h rfl)
        rw [List.length_cons, List.length_append]
        split <;> omega
      | true =>
        rcases blank_or_margin hstart (List.cons_ne_nil c rest)
          (Scan.not_fails_of_fault h) with ⟨level, hdepth, hmargin, hscan⟩ |
          ⟨margin, code, level, change, levels, htext, hcode, hmargin, henter, hscan⟩
        · rw [hscan]
          exact Run.blank hdepth hstart (List.cons_ne_nil c rest) hmargin
        · rw [hscan, fault_prepend] at h
          rw [hscan, htext]
          refine Run.margin hstart hcode hmargin henter (ih _ ?_ h rfl)
          rw [htext, hstart, List.length_append, if_pos rfl, if_neg Bool.false_ne_true]
          omega

end PythonLint
