import PythonLint.Proofs.Layout
import PythonLint.Proofs.PrintMask.Blanking
import PythonLint.Proofs.PrintMask.Lookahead
import PythonLint.Token.Stream

/-!
# Runs past print statements

Print statements are found by their tokens: a name `print` where a statement may start, up to the
end of that statement. Here the lexemes of a source are read in the same way, and a run of the
scanner is cut so that each print statement is read at once. Between its first word and its end such
a statement has no end of a statement outside brackets, and after it the scanner is in the state in
which it was before.

Main statements: `exists_inside`, `printRun_of_run`.
-/

namespace PythonLint

open Text

variable {atStart : Bool} {c : Char} {before rest text : List Char} {lexemes : List Lexeme}
    {depth : Nat}
  {scanner : Scanner} {tok : Tok}

/-! ### Lexemes of print statements -/

/-- The token ends a statement when it stands outside brackets. -/
def endsStatement : Tok → Bool
  | .newline => true
  | .symbol symbol => symbol == ";"
  | _ => false

/-- The brackets that are open after a token. -/
def depthPast (depth : Nat) : Tok → Nat
  | .symbol symbol =>
    if isOpening symbol then depth + 1 else if isClosing symbol then depth - 1 else depth
  | _ => depth

namespace PrintState

/-- A lexeme ends the statement that is being read. -/
def endsAt (state : PrintState) (lexeme : Lexeme) : Bool :=
  state.depth == 0 && endsStatement lexeme.tok

def startsAt (state : PrintState) (lexeme : Lexeme) : Bool :=
  state.atStart && state.opened.isNone && lexeme.tok == .name "print"

def step (state : PrintState) (lexeme : Lexeme) : PrintState :=
  if state.endsAt lexeme then ⟨none, state.depth, true⟩
  else if (kindOf lexeme.tok).isBlockMark then state
  else if state.depth == 0 && lexeme.tok == .symbol ":" then { state with atStart := true }
  else ⟨if state.startsAt lexeme then some lexeme.start else state.opened,
    depthPast state.depth lexeme.tok, false⟩

end PrintState

/-- What a lexeme is read as: itself, before a lexeme that starts at `code`, or the start of a print
statement. -/
inductive PrintReading where
  | kept (lexeme : Lexeme) (code : Nat)
  | pass (start : Nat)

/-- What a lexeme is read as, if it is not inside a print statement. -/
def PrintState.reading (state : PrintState) (lexeme : Lexeme) (code : Nat) : Option PrintReading :=
  if state.endsAt lexeme then some (.kept lexeme code)
  else if state.startsAt lexeme then some (.pass lexeme.start)
  else if state.opened.isNone then some (.kept lexeme code)
  else none

/-- Where the lexeme after a mark of a block starts, or the mark ends. -/
def codeAt (lexeme : Lexeme) (rest : List Lexeme) : Nat :=
  (rest.head?.map Lexeme.start).getD lexeme.stop

/-- The lexemes outside print statements, and the places of these. -/
def readings (state : PrintState) : List Lexeme → List PrintReading
  | [] => []
  | lexeme :: rest =>
    (state.reading lexeme (codeAt lexeme rest)).toList ++ readings (state.step lexeme) rest

/-- The positions where print statements start and end. -/
def spansOf (state : PrintState) : List Lexeme → List (Nat × Nat)
  | [] => []
  | lexeme :: rest =>
    (if state.endsAt lexeme then state.opened.toList.map fun start => (start, lexeme.start)
      else []) ++
      spansOf (state.step lexeme) rest

def PrintReading.lexeme : PrintReading → Lexeme
  | kept lexeme _ => lexeme
  | pass start => ⟨.keyword "pass", start, start + 4⟩

/-- Outside print statements. -/
abbrev PrintState.closed (depth : Nat) (atStart : Bool) : PrintState := ⟨none, depth, atStart⟩

def keptFrom : List Lexeme → (later : List Lexeme) → List PrintReading
  | [], _ => []
  | lexeme :: rest, later => .kept lexeme (codeAt lexeme (rest ++ later)) :: keptFrom rest later

/-! ### Inside a print statement -/

/-- Lexemes without an end of a statement outside brackets, `depth` of which are open before them
and none after. -/
inductive Inside : (depth : Nat) → List Lexeme → Prop
  | nil : Inside 0 []
  | cons {depth : Nat} {lexeme : Lexeme} {rest : List Lexeme} (hline : endsLine lexeme.tok = false)
      (hend : depth = 0 → endsStatement lexeme.tok = false)
      (h : Inside (depthPast depth lexeme.tok) rest) : Inside depth (lexeme :: rest)

/-- What follows a statement: the end of the source, or a character that ends the statement. -/
def AtEnd (rest : List Char) : Prop :=
  ∀ c ∈ rest.head?, isLineEnd c = true ∨ c = ';'

theorem atEnd_nil : AtEnd [] := by
  intro c hc
  cases hc

/-- The lexemes at the end of a statement, which is at `place`. -/
def StartsWithEnd (place : Nat) (lexemes : List Lexeme) : Prop :=
  ∃ ending later, lexemes = ending :: later ∧ endsStatement ending.tok = true ∧ ending.start = place

theorem depth_after (scanner : Scanner) (tok : Tok) :
    (scanner.after (some tok)).depth = depthPast scanner.depth tok := by
  cases tok with
  | symbol symbol =>
    simp only [Scanner.after, depthPast]
    split
    · rfl
    split
    · rfl
    · rfl
  | _ => rfl

theorem withDepth_eq (h : scanner.depth = depth) : { scanner with depth := depth } = scanner := by
  rw [← h]

/-- A token that ends a statement is read from a character that does. -/
theorem atEnd_of_piece {word : List Char}
    (hpiece : scanPiece depth c (word ++ rest) = .ok (some tok, word.length + 1))
    (htok : endsStatement tok = true) : AtEnd (c :: word ++ rest) := by
  rintro d hd
  obtain rfl : c = d := by simpa using hd
  cases tok with
  | newline =>
    rcases scanPiece_tok hpiece with hline | ⟨-, hending⟩
    · cases hline
    · rw [take_piece] at hending
      left
      rcases hending with h | h | h | h <;> cases h <;> rfl
  | symbol symbol =>
    obtain rfl : symbol = ";" := by simpa [endsStatement] using htok
    have hspelled := (isPiece_of_scanPiece hpiece).spelling (.inr (.inr rfl))
    rw [take_piece] at hspelled
    exact .inr (List.cons.inj hspelled).1
  | _ => cases htok

/-- A statement goes on to its end, outside brackets. -/
theorem exists_inside (h : Run before scanner text lexemes) (hstart : scanner.lineStart = false)
    (hsettles : Settles before scanner text) :
    ∃ body rest inner later, text = body ++ rest ∧ lexemes = inner ++ later ∧
      Inside scanner.depth inner ∧
      Run (before ++ body) { scanner with depth := 0 } rest later ∧ AtEnd rest ∧
      StartsWithEnd (byteLength (before ++ body)) later ∧
      (rest = [] → ∃ init c, before ++ body = init ++ [c] ∧ isLineEnd c = false) := by
  induction h with
  | @finish before scanner hdepth =>
    refine ⟨[], [], [], _, rfl, rfl, ?_, ?_, atEnd_nil, ?_, ?_⟩
    · rw [hdepth]
      exact .nil
    · rw [List.append_nil, withDepth_eq hdepth]
      exact .finish hdepth
    · rw [List.append_nil]
      refine ⟨⟨.newline, byteLength before, byteLength before⟩,
        scanner.levels.map fun _ => ⟨.dedent, byteLength before, byteLength before⟩, ?_, rfl, rfl⟩
      simp [finishScan, hdepth, hstart]
    · intro _
      rw [List.append_nil]
      exact hsettles rfl hdepth
  | blank _ hline =>
    rw [hline] at hstart
    cases hstart
  | margin hline =>
    rw [hline] at hstart
    cases hstart
  | @piece before scanner c word rest tok lexemes hline hpiece hrest ih =>
    by_cases hend : scanner.depth = 0 ∧ ∃ t, tok = some t ∧ endsStatement t = true
    · -- The piece is the end.
      obtain ⟨hdepth, t, rfl, ht⟩ := hend
      refine ⟨[], c :: word ++ rest, [], _, rfl, rfl, ?_, ?_, atEnd_of_piece hpiece ht, ?_,
        fun hnil => ?_⟩
      · rw [hdepth]
        exact .nil
      · rw [List.append_nil, withDepth_eq hdepth]
        exact .piece hline hpiece hrest
      · rw [List.append_nil]
        exact ⟨_, _, rfl, ht, rfl⟩
      · cases hnil
    · have htok : tok ≠ some .newline := by
        rintro rfl
        exact hend ⟨depth_of_newline hpiece, .newline, rfl, rfl⟩
      obtain ⟨body, tail, inner, later, rfl, rfl, hinside, hrun, hatEnd, hfirst, hlast⟩ :=
        ih (lineStart_after_of_ne htok hstart) (settles_after before hpiece htok)
      have hscanner : { scanner.after tok with depth := 0 } = { scanner with depth := 0 } := by
        rw [Scanner.mk.injEq, lineStart_after_of_ne htok hline, levels_after, hline]
        exact ⟨rfl, rfl, rfl⟩
      have hassoc : before ++ c :: word ++ body = before ++ (c :: word ++ body) :=
        List.append_assoc _ _ _
      rw [hassoc] at hrun hfirst hlast
      rw [hscanner] at hrun
      refine ⟨c :: word ++ body, tail, _, later, (List.append_assoc _ _ _).symm,
        (List.append_assoc _ _ _).symm, ?_, hrun, hatEnd, hfirst, hlast⟩
      cases tok with
      | none => exact hinside
      | some t =>
        refine .cons (endsLine_of_mem_toList hpiece htok t (by simp)) ?_ ?_
        · intro hdepth
          by_contra hends
          exact hend ⟨hdepth, t, rfl, by simpa using hends⟩
        · rw [← depth_after]
          exact hinside

/-! ### Print statements read at once -/

/-- A statement may start after what a piece yields. -/
def startsAfter (depth : Nat) (atStart : Bool) : Option Tok → Bool
  | none => atStart
  | some tok => depth == 0 && (endsStatement tok || tok == .symbol ":")

/-- A run without a fault in which print statements are read at once; a statement may start where
`atStart` holds. -/
inductive PrintRun :
    (before : List Char) → Scanner → (atStart : Bool) → (text : List Char) → List Lexeme → Prop
  | finish {before : List Char} {scanner : Scanner} {atStart : Bool} (hdepth : scanner.depth = 0) :
      PrintRun before scanner atStart [] (finishScan (byteLength before) scanner).lexemes
  /-- Lines without code up to the end of the source. -/
  | blank {before : List Char} {scanner : Scanner} {atStart : Bool} {text : List Char}
      {level : Level} (hdepth : scanner.depth = 0) (hstart : scanner.lineStart = true)
      (htext : text ≠ []) (hmargin : readMargin false .zero 0 text = .ok (level, text.length)) :
      PrintRun before scanner atStart text
        (finishScan (byteLength (before ++ text)) scanner).lexemes
  | margin {before : List Char} {scanner : Scanner} {atStart : Bool} {margin code : List Char}
      {level : Level} {change : LineChange} {levels : List Level} {lexemes : List Lexeme}
      (hstart : scanner.lineStart = true) (hcode : code ≠ [])
      (hmargin : readMargin false .zero 0 (margin ++ code) = .ok (level, margin.length))
      (henter : enterLine level scanner.levels = .ok (change, levels))
      (hrest : PrintRun (before ++ margin) { scanner with lineStart := false, levels } atStart
        code lexemes) :
      PrintRun before scanner atStart (margin ++ code)
        (changeLexemes level (byteLength (before ++ margin)) change ++ lexemes)
  | piece {before : List Char} {scanner : Scanner} {atStart : Bool} {c : Char}
      {word rest : List Char} {tok : Option Tok} {lexemes : List Lexeme}
      (hstart : scanner.lineStart = false)
      (hpiece : scanPiece scanner.depth c (word ++ rest) = .ok (tok, word.length + 1))
      (hother : atStart = true → tok ≠ some (.name "print"))
      (hrest : PrintRun (before ++ c :: word) (scanner.after tok)
        (startsAfter scanner.depth atStart tok) rest lexemes) :
      PrintRun before scanner atStart (c :: word ++ rest)
        ((tok.toList.map fun tok => ⟨tok, byteLength before, byteLength (before ++ c :: word)⟩) ++
          lexemes)
  | statement {before : List Char} {scanner : Scanner} {body rest : List Char}
      {inner later : List Lexeme} (hstart : scanner.lineStart = false) (hdepth : scanner.depth = 0)
      (hinside : Inside 0 inner) (hatEnd : AtEnd rest)
      (hlast : rest = [] → body.getLast? ≠ some '\n')
      (hfirst : StartsWithEnd (byteLength (before ++ ("print".toList ++ body))) later)
      (hrest : PrintRun (before ++ ("print".toList ++ body)) scanner false rest later) :
      PrintRun before scanner true ("print".toList ++ body ++ rest)
        (⟨.name "print", byteLength before, byteLength (before ++ "print".toList)⟩ ::
          (inner ++ later))

theorem depthPast_of_endsStatement (h : endsStatement tok = true) (depth : Nat) :
    depthPast depth tok = depth := by
  cases tok with
  | symbol symbol =>
    obtain rfl : symbol = ";" := by simpa [endsStatement] using h
    rfl
  | _ => rfl

theorem depth_of_startsAfter {tok : Option Tok} (hdepth : atStart = true → scanner.depth = 0)
    (h : startsAfter scanner.depth atStart tok = true) : (scanner.after tok).depth = 0 := by
  cases tok with
  | none => exact hdepth h
  | some tok =>
    rw [startsAfter, Bool.and_eq_true, beq_iff_eq, Bool.or_eq_true] at h
    rw [depth_after]
    obtain ⟨hzero, hends | hcolon⟩ := h
    · rw [depthPast_of_endsStatement hends, hzero]
    · rw [beq_iff_eq] at hcolon
      subst hcolon
      exact hzero

/-- Every run is one that reads print statements at once. -/
theorem printRun_of_run (h : Run before scanner text lexemes)
    (hdepth : atStart = true → scanner.depth = 0) :
    PrintRun before scanner atStart text lexemes := by
  -- A margin may be empty, and then only the state of the scanner moves on.
  generalize hmeasure : 2 * text.length + (if scanner.lineStart then 1 else 0) = measure
  induction measure using Nat.strongRecOn generalizing before scanner atStart text lexemes with
  | _ measure ih =>
    cases h with
    | finish hzero => exact .finish hzero
    | blank hzero hstart htext hmargin => exact .blank hzero hstart htext hmargin
    | @margin _ _ margin code level change levels lexemes hstart hcode hmargin henter hrest =>
      refine .margin hstart hcode hmargin henter (ih _ ?_ hrest hdepth rfl)
      rw [← hmeasure, hstart, List.length_append, if_pos rfl, if_neg Bool.false_ne_true]
      omega
    | @piece _ _ c word rest tok lexemes hstart hpiece hrest =>
      have hshorter : ∀ (scanner' : Scanner) (tail : List Char), tail.length ≤ rest.length →
          2 * tail.length + (if scanner'.lineStart then 1 else 0) < measure := by
        intro scanner' tail htail
        rw [← hmeasure, hstart, if_neg Bool.false_ne_true, List.length_append, List.length_cons]
        split <;> omega
      by_cases hprint : atStart = true ∧ tok = some (.name "print")
      · obtain ⟨rfl, rfl⟩ := hprint
        have hzero := hdepth rfl
        have hword : some (Tok.name "print") ≠ some .newline := by simp
        obtain ⟨body, tail, inner, later, rfl, rfl, hinside, hrun, hatEnd, hfirst, hlast⟩ :=
          exists_inside hrest hstart (settles_after before hpiece hword)
        have hspelled : c :: word = "print".toList := by
          have h := (isPiece_of_scanPiece hpiece).spelling (.inl rfl)
          rwa [take_piece] at h
        have hscanner : { scanner.after (some (.name "print")) with depth := 0 } = scanner :=
          withDepth_eq hzero
        have hinside : Inside 0 inner := hzero ▸ hinside
        have htail : tail.length ≤ (body ++ tail).length := by
          rw [List.length_append]
          omega
        rw [hscanner] at hrun
        rw [hspelled, List.append_assoc] at hrun hfirst hlast
        rw [hspelled, ← List.append_assoc]
        change PrintRun before scanner true _
          (⟨.name "print", byteLength before, byteLength (before ++ "print".toList)⟩ ::
            (inner ++ later))
        refine .statement hstart hzero hinside hatEnd ?_ hfirst
          (ih _ (hshorter scanner tail htail) hrun nofun rfl)
        intro hnil hfeed
        obtain ⟨init, last, hinit, hline⟩ := hlast hnil
        have hsame := congrArg List.getLast? hinit
        rw [List.getLast?_append, List.getLast?_append, hfeed, List.getLast?_concat] at hsame
        obtain rfl : '\n' = last := Option.some.inj hsame
        cases hline
      · refine .piece hstart hpiece (fun hat htok => hprint ⟨hat, htok⟩) ?_
        exact ih _ (hshorter _ rest (Nat.le_refl _)) hrest (depth_of_startsAfter hdepth) rfl

/-! ### Spans and readings along a run -/

open PrintState (closed)

theorem isBlockMark_kindOf_iff : (kindOf tok).isBlockMark = true ↔ tok.IsBlockMark := by
  cases tok <;> simp [kindOf, TokenKind.isBlockMark, Tok.IsBlockMark]

theorem endsAt_mark {mark : Lexeme} (h : mark.tok.IsBlockMark) (state : PrintState) :
    state.endsAt mark = false := by
  have hends : endsStatement mark.tok = false := by rcases h with h | h <;> rw [h] <;> rfl
  rw [PrintState.endsAt, hends, Bool.and_false]

theorem step_mark {state : PrintState} {mark : Lexeme} (h : mark.tok.IsBlockMark) :
    state.step mark = state := by
  rw [PrintState.step, endsAt_mark h, if_neg Bool.false_ne_true,
    if_pos (isBlockMark_kindOf_iff.2 h)]

theorem startsAt_eq_false {lexeme : Lexeme} (hother : atStart = true → lexeme.tok ≠ .name "print") :
    (closed depth atStart).startsAt lexeme = false := by
  rw [PrintState.startsAt, Bool.eq_false_iff]
  intro h
  simp only [Bool.and_eq_true, beq_iff_eq] at h
  exact hother h.1.1 h.2

theorem step_piece {lexeme : Lexeme} (hword : ¬lexeme.tok.IsBlockMark)
    (hother : atStart = true → lexeme.tok ≠ .name "print") :
    (closed depth atStart).step lexeme =
      closed (depthPast depth lexeme.tok) (startsAfter depth atStart (some lexeme.tok)) := by
  have hcode : ¬(kindOf lexeme.tok).isBlockMark = true :=
    fun h => hword (isBlockMark_kindOf_iff.1 h)
  simp only [PrintState.step, PrintState.endsAt, startsAt_eq_false hother]
  by_cases hend : (depth == 0 && endsStatement lexeme.tok) = true
  · obtain ⟨hzero, hends⟩ := Bool.and_eq_true_iff.1 hend
    rw [if_pos hend, depthPast_of_endsStatement hends, startsAfter, hzero, hends]
    rfl
  rw [if_neg hend, if_neg hcode]
  by_cases hcolon : (depth == 0 && lexeme.tok == .symbol ":") = true
  · obtain ⟨hzero, htok⟩ := Bool.and_eq_true_iff.1 hcolon
    rw [if_pos hcolon, startsAfter, hzero, htok, beq_iff_eq.1 htok, Bool.or_true]
    rfl
  · rw [if_neg hcolon, if_neg Bool.false_ne_true, startsAfter, Bool.and_or_distrib_left]
    rw [Bool.not_eq_true] at hend hcolon
    rw [hend, hcolon]
    rfl

theorem marks_read {marks : List Lexeme} (h : ∀ mark ∈ marks, mark.tok.IsBlockMark) (depth : Nat)
    (atStart : Bool) (later : List Lexeme) :
    spansOf (closed depth atStart) (marks ++ later) = spansOf (closed depth atStart) later ∧
      readings (closed depth atStart) (marks ++ later) =
        keptFrom marks later ++ readings (closed depth atStart) later := by
  induction marks with
  | nil => exact ⟨rfl, rfl⟩
  | cons mark marks ih =>
    obtain ⟨hmark, hothers⟩ := List.forall_mem_cons.1 h
    have hnot : endsStatement mark.tok = false ∧ mark.tok ≠ .name "print" := by
      rcases hmark with hmark | hmark <;> rw [hmark] <;> exact ⟨rfl, by simp⟩
    rw [List.cons_append, spansOf, readings, step_mark hmark, (ih hothers).1,
      (ih hothers).2, keptFrom]
    simp [PrintState.reading, PrintState.endsAt, PrintState.startsAt, hnot]

theorem piece_reads {lexeme : Lexeme} (hword : ¬lexeme.tok.IsBlockMark)
    (hother : atStart = true → lexeme.tok ≠ .name "print") (later : List Lexeme) :
    spansOf (closed depth atStart) (lexeme :: later) =
        spansOf (closed (depthPast depth lexeme.tok) (startsAfter depth atStart (some lexeme.tok)))
          later ∧
      readings (closed depth atStart) (lexeme :: later) =
        keptFrom [lexeme] later ++
          readings (closed (depthPast depth lexeme.tok)
            (startsAfter depth atStart (some lexeme.tok))) later := by
  rw [spansOf, readings, step_piece hword hother]
  refine ⟨?_, ?_⟩
  · simp
  · simp [PrintState.reading, startsAt_eq_false hother, keptFrom]

theorem map_lexeme_keptFrom (lexemes later : List Lexeme) :
    (keptFrom lexemes later).map PrintReading.lexeme = lexemes := by
  induction lexemes with
  | nil => rfl
  | cons lexeme rest ih =>
    rw [keptFrom, List.map_cons, ih]
    rfl

theorem not_isBlockMark_of_piece {size : Nat} (h : scanPiece depth c rest = .ok (some tok, size)) :
    ¬tok.IsBlockMark := by
  rcases scanPiece_tok h with hline | ⟨rfl, -⟩
  · exact Tok.not_isBlockMark_of_endsLine hline
  · rintro (hmark | hmark) <;> cases hmark

/-- What the lexeme of a piece does, if the piece yields one. -/
theorem toList_reads (before : List Char) {word : List Char} {tok : Option Tok}
    (hpiece : scanPiece scanner.depth c (word ++ rest) = .ok (tok, word.length + 1))
    (hother : atStart = true → tok ≠ some (.name "print")) (later : List Lexeme) :
    spansOf (closed scanner.depth atStart)
          ((tok.toList.map fun tok => ⟨tok, byteLength before, byteLength (before ++ c :: word)⟩) ++
            later) =
        spansOf (closed (scanner.after tok).depth (startsAfter scanner.depth atStart tok)) later ∧
      readings (closed scanner.depth atStart)
          ((tok.toList.map fun tok => ⟨tok, byteLength before, byteLength (before ++ c :: word)⟩) ++
            later) =
        keptFrom (tok.toList.map fun tok =>
          ⟨tok, byteLength before, byteLength (before ++ c :: word)⟩) later ++
          readings (closed (scanner.after tok).depth (startsAfter scanner.depth atStart tok))
            later := by
  cases tok with
  | none => exact ⟨rfl, rfl⟩
  | some tok =>
    rw [depth_after]
    exact piece_reads (not_isBlockMark_of_piece hpiece)
      (fun hat htok => hother hat (by rw [← htok])) later

theorem others_read (h : ∀ lexeme ∈ lexemes, lexeme.tok ≠ .name "print") (depth : Nat)
    (atStart : Bool) :
    (lexemes.foldl PrintState.step (closed depth atStart)).opened = none ∧
    spansOf (closed depth atStart) lexemes = [] ∧
      readings (closed depth atStart) lexemes = keptFrom lexemes [] := by
  induction lexemes generalizing depth atStart with
  | nil => exact ⟨rfl, rfl, rfl⟩
  | cons lexeme rest ih =>
    obtain ⟨hlexeme, hrest⟩ := List.forall_mem_cons.1 h
    obtain ⟨depth', atStart', hstep⟩ : ∃ depth' atStart',
        (closed depth atStart).step lexeme = closed depth' atStart' := by
      by_cases hmark : lexeme.tok.IsBlockMark
      · exact ⟨_, _, step_mark hmark⟩
      · exact ⟨_, _, step_piece hmark fun _ => hlexeme⟩
    obtain ⟨hopened, hspans, hreadings⟩ := ih hrest depth' atStart'
    rw [List.foldl_cons, spansOf, readings, hstep, hspans, hreadings, keptFrom, List.append_nil]
    refine ⟨hopened, ?_, ?_⟩
    · simp
    · simp [PrintState.reading, startsAt_eq_false fun _ => hlexeme]

theorem finish_reads (scanner : Scanner) (offset depth : Nat) (atStart : Bool) :
    ((finishScan offset scanner).lexemes.foldl PrintState.step (closed depth atStart)).opened =
      none ∧ spansOf (closed depth atStart) (finishScan offset scanner).lexemes = [] ∧
      readings (closed depth atStart) (finishScan offset scanner).lexemes =
        keptFrom (finishScan offset scanner).lexemes [] := by
  refine others_read (fun lexeme hmem => ?_) depth atStart
  rcases mem_finishScan hmem with rfl | rfl <;> simp

theorem exists_step_inside {lexeme : Lexeme} (hline : endsLine lexeme.tok = false)
    (hend : depth = 0 → endsStatement lexeme.tok = false) (start : Nat) (atStart : Bool) :
    (PrintState.mk (some start) depth atStart).endsAt lexeme = false ∧
      ∃ next, (PrintState.mk (some start) depth atStart).step lexeme =
        ⟨some start, depthPast depth lexeme.tok, next⟩ := by
  have hnot : (PrintState.mk (some start) depth atStart).endsAt lexeme = false := by
    rw [PrintState.endsAt, Bool.and_eq_false_iff]
    by_cases hzero : depth = 0
    · exact .inr (hend hzero)
    · exact .inl (by simpa using hzero)
  have hcode : ¬(kindOf lexeme.tok).isBlockMark = true :=
    fun h => Tok.not_isBlockMark_of_endsLine hline (isBlockMark_kindOf_iff.1 h)
  refine ⟨hnot, ?_⟩
  rw [PrintState.step, hnot, if_neg Bool.false_ne_true, if_neg hcode]
  split
  · next hcolon =>
    obtain ⟨-, htok⟩ := Bool.and_eq_true_iff.1 hcolon
    rw [beq_iff_eq.1 htok]
    exact ⟨true, rfl⟩
  · exact ⟨false, by simp [PrintState.startsAt]⟩

theorem inside_reads {inner : List Lexeme} (h : Inside depth inner) (start : Nat) (atStart : Bool)
    (later : List Lexeme) :
    ∃ atStart', inner.foldl PrintState.step ⟨some start, depth, atStart⟩ =
      ⟨some start, 0, atStart'⟩ ∧ spansOf ⟨some start, depth, atStart⟩ (inner ++ later) =
        spansOf ⟨some start, 0, atStart'⟩ later ∧
      readings ⟨some start, depth, atStart⟩ (inner ++ later) =
        readings ⟨some start, 0, atStart'⟩ later := by
  induction h generalizing atStart with
  | nil => exact ⟨atStart, rfl, rfl, rfl⟩
  | @cons depth lexeme rest hline hend _ ih =>
    obtain ⟨hnot, next, hstep⟩ := exists_step_inside hline hend start atStart
    obtain ⟨atStart', hfold, hspans, hreadings⟩ := ih next
    refine ⟨atStart', ?_, ?_, ?_⟩
    · rw [List.foldl_cons, hstep, hfold]
    · rw [List.cons_append, spansOf, hnot, hstep, hspans]
      simp
    · rw [List.cons_append, readings, hstep, hreadings]
      simp [PrintState.reading, hnot, PrintState.startsAt]

/-- A print statement is read as its start, and is the first of the spans. -/
theorem statement_reads (start stop : Nat) {place : Nat} {inner later : List Lexeme}
    (hinside : Inside 0 inner) (hfirst : StartsWithEnd place later) :
    spansOf (closed 0 true) (⟨.name "print", start, stop⟩ :: (inner ++ later)) =
        (start, place) :: spansOf (closed 0 false) later ∧
      readings (closed 0 true) (⟨.name "print", start, stop⟩ :: (inner ++ later)) =
        .pass start :: readings (closed 0 false) later := by
  obtain ⟨ending, more, rfl, hends, rfl⟩ := hfirst
  obtain ⟨atStart, -, hspans, hreadings⟩ := inside_reads hinside start false (ending :: more)
  have hstep : (closed 0 true).step ⟨.name "print", start, stop⟩ = ⟨some start, 0, false⟩ := rfl
  have hreading : ∀ code, (closed 0 true).reading ⟨.name "print", start, stop⟩ code =
    some (.pass start) := fun _ => rfl
  rw [spansOf, readings, hstep, hspans, hreadings, hreading]
  simp only [spansOf, readings, PrintState.step, PrintState.reading, PrintState.endsAt, hends]
  exact ⟨rfl, rfl⟩

theorem foldl_marks {marks : List Lexeme} (h : ∀ mark ∈ marks, mark.tok.IsBlockMark)
    (state : PrintState) : marks.foldl PrintState.step state = state := by
  induction marks with
  | nil => rfl
  | cons mark marks ih =>
    obtain ⟨hmark, hothers⟩ := List.forall_mem_cons.1 h
    rw [List.foldl_cons, step_mark hmark, ih hothers]

/-- At the end of a run every print statement has ended. -/
theorem PrintRun.opened_eq_none (h : PrintRun before scanner atStart text lexemes) :
    (lexemes.foldl PrintState.step (closed scanner.depth atStart)).opened = none := by
  induction h with
  | finish => exact (finish_reads _ _ _ _).1
  | blank => exact (finish_reads _ _ _ _).1
  | margin _ _ _ _ _ ih =>
    rw [List.foldl_append, foldl_marks fun mark hmark => (changeLexemes_marks _ _ _ mark hmark).1]
    exact ih
  | @piece before scanner atStart c word rest tok lexemes _ hpiece hother _ ih =>
    cases tok with
    | none => exact ih
    | some tok =>
      rw [depth_after] at ih
      change (lexemes.foldl PrintState.step
        ((closed scanner.depth atStart).step ⟨tok, _, _⟩)).opened = none
      rw [step_piece (not_isBlockMark_of_piece hpiece) fun hat htok => hother hat (by rw [← htok])]
      exact ih
  | @statement before scanner body rest inner later _ hdepth hinside _ _ hfirst _ ih =>
    obtain ⟨ending, more, rfl, hends, -⟩ := hfirst
    obtain ⟨atStart', hfold, -⟩ := inside_reads hinside (byteLength before) false []
    have hstep : ∀ opened atStart, (PrintState.mk opened 0 atStart).step ending =
        closed 0 true := by
      intro opened atStart
      simp only [PrintState.step, PrintState.endsAt, hends]
      rfl
    rw [hdepth] at ih ⊢
    rw [List.foldl_cons, hstep] at ih
    have hopen : (closed 0 true).step ⟨.name "print", byteLength before,
      byteLength (before ++ "print".toList)⟩ =
        ⟨some (byteLength before), 0, false⟩ := rfl
    rw [List.foldl_cons, hopen, List.foldl_append, hfold, List.foldl_cons, hstep]
    exact ih

end PythonLint
