import PythonLint.Proofs.PrintMask.MaskedView

/-!
# The tokens of a mask

The tokens of a source with its print statements replaced are those of the source with `pass` for
each statement, exactly under three conditions. All line ends of the statements can be escaped; an
empty line inside a statement or a lone carriage return cannot. Soft keywords are resolved without
the statements as they are with them. And where a block is opened on a physical line that starts
inside a statement, only spaces of that statement stand on the line.

Main statements: `exists_masking`, `tokenize_maskPrints_iff`.
-/

namespace PythonLint

open Text
open PrintState (closed)

variable {spans : List (Nat × Nat)} {a b text : List Char}

/-- Lexemes with `pass` for those of each print statement. -/
def passLexemes (lexemes : List Lexeme) : List Lexeme :=
  (readings (closed 0 true) lexemes).map PrintReading.lexeme

/-- Soft keywords are resolved without print statements as they are with them. -/
def ResolvesAlike (text : List Char) : Prop :=
  resolveSoftKeywords true (passLexemes (scanAt 0 (untabify text)).lexemes) =
    passLexemes (resolveSoftKeywords true (scanAt 0 (untabify text)).lexemes)

instance (text : List Char) : Decidable (ResolvesAlike text) :=
  inferInstanceAs
    (Decidable (resolveSoftKeywords true (passLexemes (scanAt 0 (untabify text)).lexemes) =
    passLexemes (resolveSoftKeywords true (scanAt 0 (untabify text)).lexemes)))

/-! ### Pieces of a mask -/

theorem reading_cases (state : PrintState) (lexeme : Lexeme) (code : Nat) :
    state.reading lexeme code = none ∨ state.reading lexeme code = some (.pass lexeme.start) ∨
      state.reading lexeme code = some (.kept lexeme code) ∧
      (lexeme.tok.IsBlockMark → state.opened = none) := by
  rw [PrintState.reading]
  split
  · next hend =>
    refine .inr (.inr ⟨rfl, fun hmark => ?_⟩)
    simp [endsAt_mark hmark] at hend
  split
  · exact .inr (.inl rfl)
  split
  · next hopened => exact .inr (.inr ⟨rfl, fun _ => Option.isNone_iff_eq_none.1 hopened⟩)
  · exact .inl rfl

/-- Outside print statements every lexeme is read, at its place. -/
theorem head?_readings {state : PrintState} (hopened : state.opened = none)
    (lexemes : List Lexeme) :
    ((readings state lexemes).map PrintReading.lexeme).head?.map Lexeme.start =
      lexemes.head?.map Lexeme.start := by
  cases lexemes with
  | nil => rfl
  | cons lexeme rest =>
    rw [readings]
    rcases reading_cases state lexeme (codeAt lexeme rest) with h | h | ⟨h, -⟩
    · simp only [PrintState.reading, hopened, Option.isNone_none] at h
      split at h
      · cases h
      · split at h <;> cases h
    · rw [h]
      rfl
    · rw [h]
      rfl

/-- The pieces of the lexemes that are left stand for the readings. -/
theorem map_view_piecesOf (masked : List Char) (lines : List (List Char)) (state : PrintState)
    (lexemes : List Lexeme) :
    (piecesOf masked lines ((readings state lexemes).map PrintReading.lexeme)).map
      (Piece.view masked) =
      (readings state lexemes).map (PrintReading.maskedView masked lines) := by
  induction lexemes generalizing state with
  | nil => rfl
  | cons lexeme rest ih =>
    rw [readings]
    rcases reading_cases state lexeme (codeAt lexeme rest) with h | h | ⟨h, hopened⟩
    · rw [h]
      exact ih _
    · rw [h, Option.toList_some, List.singleton_append, List.map_cons, List.map_cons, piecesOf,
        List.map_cons, ih]
      rfl
    · rw [h, Option.toList_some, List.singleton_append, List.map_cons, List.map_cons, piecesOf,
        List.map_cons, ih]
      congr 1
      rw [PrintReading.maskedView, PrintReading.lexeme]
      by_cases hmark : lexeme.tok.IsBlockMark
      · rw [step_mark hmark, head?_readings (hopened hmark), codeAt]
      · rw [pieceOf_of_not_isBlockMark _ _ hmark, pieceOf_of_not_isBlockMark _ _ hmark]

theorem mem_piecesOf (text : List Char) (lines : List (List Char)) {lexeme : Lexeme}
    {lexemes : List Lexeme} (h : lexeme ∈ lexemes) :
    ∃ code, pieceOf text lines lexeme code ∈ piecesOf text lines lexemes := by
  induction lexemes with
  | nil => cases h
  | cons first rest ih =>
    rcases List.mem_cons.1 h with rfl | h
    · exact ⟨_, List.mem_cons_self⟩
    · obtain ⟨code, hmem⟩ := ih h
      exact ⟨code, List.mem_cons_of_mem _ hmem⟩

theorem map_kind_view_piecesOf (text : List Char) (lines : List (List Char))
    (lexemes : List Lexeme) :
    ((piecesOf text lines lexemes).map (Piece.view text)).map TokenView.kind =
      lexemes.map fun lexeme => kindOf lexeme.tok := by
  rw [List.map_map]
  exact map_kind_piecesOf text lines lexemes

theorem kind_view (text : List Char) (lines : List (List Char)) (reading : PrintReading) :
    (reading.view text lines).kind = kindOf reading.lexeme.tok := by
  cases reading with
  | kept lexeme code => exact kind_pieceOf text lines lexeme code
  | pass start => rfl

/-! ### Places in a source and in its copy -/

theorem Stands.of_softReading {a b : PrintReading} (h : SoftReading a b)
    (hb : Stands [] text spans b) : Stands [] text spans a := by
  cases h with
  | pass start => exact hb
  | @kept a b h code =>
    obtain ⟨gap, word, rest, htext, hplace, hapart⟩ := hb
    refine ⟨gap, word, rest, htext, ?_, hapart⟩
    rw [← hplace]
    by_cases hmark : b.tok.IsBlockMark
    · rw [placeOf_mark hmark, placeOf_mark (h.isBlockMark_iff.2 hmark)]
    · rw [placeOf_word hmark, placeOf_word (fun ha => hmark (h.isBlockMark_iff.1 ha)),
        h.start_eq, h.stop_eq]

theorem Stands.of_copy {copy : List Char} {reading : PrintReading}
    (hcopy : List.Forall₂ SameOrTab text copy) (h : Stands [] copy spans reading) :
    Stands [] text spans reading := by
  cases reading with
  | pass start => exact h
  | kept lexeme code =>
    obtain ⟨gap', word', rest', rfl, hplace, hapart⟩ := h
    obtain ⟨head, rest, rfl, hhead, -⟩ := exists_append_of_forall₂ hcopy
    obtain ⟨gap, word, rfl, hgap, -⟩ := exists_append_of_forall₂ hhead
    rw [List.nil_append, ← byteLength_eq_of_sameOrTab hgap,
      ← byteLength_eq_of_sameOrTab hhead] at hplace hapart
    exact ⟨gap, word, rest, rfl, hplace, hapart⟩

theorem dropBytes_sameOrTab (h : List.Forall₂ SameOrTab a b) (n : Nat) :
    List.Forall₂ SameOrTab (dropBytes n a) (dropBytes n b) := by
  induction h generalizing n with
  | nil =>
    cases n <;> exact .nil
  | @cons c d a b hcd hrest ih =>
    cases n with
    | zero => exact .cons hcd hrest
    | succ n =>
      have hsize : c.utf8Size = d.utf8Size := by rcases hcd with rfl | ⟨rfl, rfl⟩ <;> rfl
      rw [dropBytes, dropBytes, hsize]
      exact ih _

theorem takeBytes_sameOrTab (h : List.Forall₂ SameOrTab a b) (n : Nat) :
    List.Forall₂ SameOrTab (takeBytes n a) (takeBytes n b) := by
  induction h generalizing n with
  | nil =>
    cases n <;> exact .nil
  | @cons c d a b hcd hrest ih =>
    cases n with
    | zero => exact .nil
    | succ n =>
      have hsize : c.utf8Size = d.utf8Size := by rcases hcd with rfl | ⟨rfl, rfl⟩ <;> rfl
      rw [takeBytes, takeBytes, hsize]
      exact .cons hcd (ih _)

theorem eq_of_sameOrTab_left {c d : Char} (h : SameOrTab c d) (hc : c ≠ '\t') : d = c :=
  h.resolve_right fun h => hc h.1

theorem eq_of_sameOrTab_right {c d : Char} (h : SameOrTab c d) (hd : d ≠ ' ') : c = d :=
  (h.resolve_right fun h => hd h.2).symm

theorem escapable_of_sameOrTab (h : List.Forall₂ SameOrTab a b) (blank : Bool) :
    escapable blank a = escapable blank b := by
  fun_induction escapable blank a generalizing b with
  | case1 blank =>
    cases h
    rfl
  | case2 blank rest ih =>
    cases h with
    | cons hc hrest =>
      obtain rfl := eq_of_sameOrTab_left hc (by decide)
      rw [escapable, ih hrest]
  | case3 blank rest ih =>
    cases h with
    | cons hc hrest =>
      cases hrest with
      | cons hd hrest =>
        obtain rfl := eq_of_sameOrTab_left hc (by decide)
        obtain rfl := eq_of_sameOrTab_left hd (by decide)
        rw [escapable, ih hrest]
  | case4 blank rest hother =>
    cases h with
    | cons hc hrest =>
      obtain rfl := eq_of_sameOrTab_left hc (by decide)
      rw [escapable]
      rintro tail rfl
      cases hrest with
      | cons hd _ => exact hother _ (by rw [eq_of_sameOrTab_right hd (by decide)])
  | case5 blank c rest hfeed _ hreturn ih =>
    cases h with
    | @cons _ d _ b hc hrest =>
      have hd : d ≠ '\n' ∧ d ≠ '\r' := by
        rcases hc with rfl | ⟨-, rfl⟩
        · exact ⟨hfeed, hreturn⟩
        · decide
      rw [escapable, ih hrest]
      · exact hd.1
      · exact fun _ hreturn' _ => hd.2 hreturn'
      · exact hd.2

theorem escapes_copy {copy : List Char} (hcopy : List.Forall₂ SameOrTab text copy)
    (spans : List (Nat × Nat)) : Escapes text spans ↔ Escapes copy spans := by
  have hslice : ∀ span : Nat × Nat, escapable false (sliceBytes text span.1 span.2) =
      escapable false (sliceBytes copy span.1 span.2) := by
    intro span
    exact escapable_of_sameOrTab (takeBytes_sameOrTab (dropBytes_sameOrTab hcopy _) _) _
  simp only [Escapes, hslice]

/-! ### The run of a source -/

theorem error_eq_none_iff (text : List Char) :
    (tokenize text).error = none ↔ (scanAt 0 (untabify text)).fault = none := by
  have hfault : (scanModule (untabify text)).fault = (scanAt 0 (untabify text)).fault := rfl
  rw [← hfault]
  simp only [tokenize]
  split
  · next hsome => simp [hsome]
  · next hnone => simp [hnone]

/-- A scan without a fault is a run, after a byte order mark if there is one. A text that starts in
the same way after the mark is scanned from there on as well. -/
theorem exists_run (h : (scanAt 0 text).fault = none) :
    ∃ mark rest, text = mark ++ rest ∧ Run mark .initial rest (scanAt 0 text).lexemes ∧
      ∀ rest', rest.head? = rest'.head? →
        scanAt 0 (mark ++ rest') = scanFrom (byteLength mark) .initial 0 rest' := by
  have hrun : ∀ mark rest, scanAt 0 text = scanFrom (byteLength mark) .initial 0 rest →
      Run mark .initial rest (scanAt 0 text).lexemes := by
    intro mark rest hscan
    rw [hscan] at h ⊢
    exact run_of_fault_eq_none h
  by_cases hmark : text.head? = some byteOrderMark
  · obtain ⟨rest, rfl⟩ := List.head?_eq_some_iff.1 hmark
    have hscan : ∀ rest', scanAt 0 ([byteOrderMark] ++ rest') =
        scanFrom (byteLength [byteOrderMark]) .initial 0 rest' :=
      fun _ => rfl
    exact ⟨[byteOrderMark], rest, rfl, hrun _ _ (hscan rest), fun rest' _ => hscan rest'⟩
  · have hscan : ∀ rest', text.head? = rest'.head? →
        scanAt 0 ([] ++ rest') = scanFrom (byteLength []) .initial 0 rest' := by
      intro rest' hhead
      rw [hhead] at hmark
      rw [List.nil_append, scanAt, if_neg hmark]
      rfl
    exact ⟨[], text, rfl, hrun _ _ (hscan text rfl), hscan⟩

theorem spelled_of_scan (h : (scanAt 0 (untabify text)).fault = none) :
    ∀ lexeme ∈ (scanAt 0 (untabify text)).lexemes, ¬lexeme.tok.IsBlockMark →
      Spelled text lexeme := by
  obtain ⟨mark, rest, htext, hrun, -⟩ := exists_run h
  have hcopy := untabify_sameOrTab text
  rw [htext] at hcopy
  exact spelled_of_run hrun hcopy

/-- The mask of a source, by the lexemes of the source and the scan of the mask. -/
structure Masking (text : List Char) (lexemes : List Lexeme) (masked : List Char) : Prop where
  maskedAs : MaskedAs 0 text (spansOf (closed 0 true) lexemes) masked
  whole : Escapes text (spansOf (closed 0 true) lexemes) →
    scanAt 0 (untabify masked) = ⟨passLexemes lexemes, none⟩
  broken : ¬Escapes text (spansOf (closed 0 true) lexemes) →
    ∃ lexeme ∈ (scanAt 0 (untabify masked)).lexemes, lexeme.tok = .newline ∧
      ∃ span ∈ spansOf (closed 0 true) lexemes, span.1 < lexeme.start ∧ lexeme.start < span.2
  stands : ∀ reading ∈ readings (closed 0 true) lexemes,
    Stands [] text (spansOf (closed 0 true) lexemes) reading
  opened_eq_none : (lexemes.foldl PrintState.step (closed 0 true)).opened = none

theorem exists_masking (h : (scanAt 0 (untabify text)).fault = none) :
    ∃ masked, Masking text (scanAt 0 (untabify text)).lexemes masked := by
  obtain ⟨mark, rest, htext, hrun, hscan⟩ := exists_run h
  have hprint : PrintRun mark .initial true rest (scanAt 0 (untabify text)).lexemes :=
    printRun_of_run hrun fun _ => rfl
  obtain ⟨masked, hmasked, hmaskScan⟩ := hprint.exists_masked
  have hcopy : List.Forall₂ SameOrTab text (mark ++ rest) := by
    rw [← htext]
    exact untabify_sameOrTab text
  have hsame : scanAt 0 (mark ++ masked) = scanFrom (byteLength mark) .initial 0 masked :=
    hscan masked hmasked.sameUpToWord.head?_eq
  have hwide : MaskedAs 0 (mark ++ rest)
      (spansOf (closed 0 true) (scanAt 0 (untabify text)).lexemes) (mark ++ masked) := by
    refine MaskedAs.widen ?_
    rwa [Nat.zero_add]
  rw [untabify_eq_untabifyFrom] at htext
  obtain ⟨source, hsource, huntabify⟩ := hwide.of_untabify htext
  rw [← untabify_eq_untabifyFrom] at huntabify
  refine ⟨source, hsource, ?_, ?_, ?_, hprint.opened_eq_none⟩
  · intro hescapes
    rw [huntabify, hsame]
    exact hmaskScan.whole ((escapes_copy hcopy _).1 hescapes)
  · intro hnot
    rw [huntabify, hsame]
    exact hmaskScan.broken fun hescapes => hnot ((escapes_copy hcopy _).2 hescapes)
  · intro reading hmem
    have hstands : Stands ([] ++ mark) rest _ reading := hprint.stands reading hmem
    exact Stands.of_copy hcopy hstands.widen

/-! ### The tokens of a mask -/

theorem view_endPiece (text : List Char) :
    (endPiece text).view text = ⟨.endMarker, "", byteLength text⟩ := by
  have hplace := locationAt_append text []
  have hoffset := offsetAt_after text []
  rw [List.append_nil] at hplace hoffset
  rw [endPiece, Piece.view, hplace, hoffset]

theorem map_view_tokenize (h : (tokenize text).error = none) :
    ((tokenize text).tokens.map fun token => token.view text) =
      (piecesOf text (lines text) (scanModule (untabify text)).lexemes).map (Piece.view text) ++
        [(endPiece text).view text] := by
  rw [show (fun token : Token => token.view text) = Piece.view text ∘ Token.toPiece from rfl,
    ← List.map_map, toPiece_tokenize h, List.map_append]
  rfl

/-- The end of a source opens no block. -/
theorem forall_mem_concat_blankBefore {readings : List PrintReading} :
    (∀ view ∈ readings.map (PrintReading.view text (lines text)) ++ [(endPiece text).view text],
        BlankBefore text spans view) ↔
      ∀ reading ∈ readings, BlankBefore text spans (reading.view text (lines text)) := by
  rw [List.forall_mem_append, List.forall_mem_map, List.forall_mem_singleton]
  refine and_iff_left fun hindent => ?_
  cases hindent

section

variable {text masked : List Char} {lexemes : List Lexeme}

/-- What is expected of the mask, and where its print statements are, by the lexemes of the
source. -/
theorem withPass_tokenize (h : (tokenize text).error = none)
    (hmasking : Masking text (scanAt 0 (untabify text)).lexemes masked) :
    withPass text ⟨none, 0, true⟩ (tokenize text).tokens =
        (readings (closed 0 true) (scanModule (untabify text)).lexemes).map
          (PrintReading.view text (lines text)) ++
          [(endPiece text).view text] ∧
      printSpans text (tokenize text).tokens =
        spansOf (closed 0 true) (scanAt 0 (untabify text)).lexemes := by
  have hsoft : List.Forall₂ Softened (scanModule (untabify text)).lexemes
      (scanAt 0 (untabify text)).lexemes :=
    resolveSoftKeywords_softened true _
  have hspelled : ∀ lexeme ∈ (scanModule (untabify text)).lexemes, ¬lexeme.tok.IsBlockMark →
      Spelled text lexeme := by
    intro a ha hword
    obtain ⟨b, hb, hab⟩ := exists_of_mem_forall₂ hsoft ha
    exact hab.spelled (spelled_of_scan ((error_eq_none_iff text).1 h) b hb fun hmark =>
      hword (hab.isBlockMark_iff.2 hmark))
  have hopened : ((scanModule (untabify text)).lexemes.foldl PrintState.step (closed 0 true)).opened
      = none := by
    rw [foldl_step_softened hsoft]
    exact hmasking.opened_eq_none
  obtain ⟨hpass, hspans⟩ := withPass_eq (toPiece_tokenize h) hspelled hopened
  refine ⟨hpass, ?_⟩
  rw [← spansOf_softened hsoft]
  exact hspans

theorem Masking.stands_resolved (hmasking : Masking text lexemes masked) :
    ∀ reading ∈ readings (closed 0 true) (resolveSoftKeywords true lexemes),
      Stands [] text (spansOf (closed 0 true) lexemes) reading := by
  intro a ha
  obtain ⟨b, hb, hab⟩ :=
    exists_of_mem_forall₂
      (readings_softened (resolveSoftKeywords_softened true lexemes) (closed 0 true)) ha
  exact (hmasking.stands b hb).of_softReading hab

/-- No newline is expected inside a print statement. -/
theorem not_within_of_newline {reading : PrintReading} (hstands : Stands [] text spans reading)
    (hkind : (reading.view text (lines text)).kind = .newline) {span : Nat × Nat}
    (hspan : span ∈ spans) (hfirst : span.1 < (reading.view text (lines text)).offset) :
    span.2 ≤ (reading.view text (lines text)).offset := by
  cases reading with
  | pass start => cases hkind
  | kept lexeme code =>
    obtain ⟨a, word, b, htext, hplace, hapart⟩ := hstands
    rw [List.nil_append] at hplace hapart
    have hword : ¬lexeme.tok.IsBlockMark := by
      rw [kind_view] at hkind
      rintro (htok | htok) <;> rw [PrintReading.lexeme, htok] at hkind <;> cases hkind
    rw [placeOf_word hword] at hplace
    obtain ⟨hstart, hstop⟩ := Prod.mk.inj hplace
    have hview : (PrintReading.kept lexeme code).view text (lines text) =
        ⟨kindOf lexeme.tok, String.ofList word, byteLength a⟩ := by
      rw [PrintReading.view, htext]
      exact view_word hword hstart hstop _ _
    rw [hview] at hfirst ⊢
    rcases hapart span hspan with hle | hle
    · rw [byteLength_append] at hle
      simp only at hfirst
      omega
    · exact hle

theorem exists_view_newline (h : (tokenize text).error = none) {lexeme : Lexeme}
    (hmem : lexeme ∈ (scanAt 0 (untabify text)).lexemes) (htok : lexeme.tok = .newline) :
    ∃ view ∈ (tokenize text).tokens.map fun token => token.view text, view.kind = .newline ∧
      view.offset = lexeme.start := by
  have hword : ¬lexeme.tok.IsBlockMark := by
    rw [htok]
    rintro (hmark | hmark) <;> cases hmark
  have hoffset := (spelled_of_scan ((error_eq_none_iff text).1 h) lexeme hmem hword).offset_eq
  obtain ⟨a, ha, hab⟩ : ∃ a ∈ (scanModule (untabify text)).lexemes, Softened a lexeme :=
    exists_of_mem_forall₂ (resolveSoftKeywords_softened true _).flip hmem
  obtain rfl : a = lexeme := by
    rcases hab with rfl | ⟨word, -, hkeyword, -⟩
    · rfl
    · rw [htok] at hkeyword
      cases hkeyword
  obtain ⟨code, hpiece⟩ := mem_piecesOf text (lines text) ha
  refine ⟨(pieceOf text (lines text) a code).view text, ?_, ?_, ?_⟩
  · rw [map_view_tokenize h]
    exact List.mem_append_left _ (List.mem_map_of_mem hpiece)
  · rw [Piece.view, kind_pieceOf, htok]
    rfl
  · rw [pieceOf_of_not_isBlockMark _ _ hword, Piece.view, hoffset]

/-- When a line end of a print statement is not escaped, the mask has a newline inside the
statement. -/
theorem Masking.map_view_ne (hmasking : Masking text lexemes masked)
    (hescapes : ¬Escapes text (spansOf (closed 0 true) lexemes))
    (hnone : (tokenize masked).error = none) :
    ((tokenize masked).tokens.map fun token => token.view masked) ≠
      (readings (closed 0 true) (resolveSoftKeywords true lexemes)).map
        (PrintReading.view text (lines text)) ++
        [(endPiece text).view text] := by
  intro hsame
  obtain ⟨lexeme, hlexeme, htok, span, hspan, hfirst, hlast⟩ := hmasking.broken hescapes
  obtain ⟨view, hview, hkind, hoffset⟩ := exists_view_newline hnone hlexeme htok
  rw [hsame] at hview
  rcases List.mem_append.1 hview with hview | hview
  · obtain ⟨reading, hreading, rfl⟩ := List.mem_map.1 hview
    rw [← hoffset] at hfirst hlast
    have hle := not_within_of_newline (hmasking.stands_resolved reading hreading) hkind hspan hfirst
    omega
  · rw [List.mem_singleton.1 hview] at hkind
    cases hkind

/-- The tokens of a mask that reads as `pass` for each print statement. -/
theorem map_view_eq_iff (hmasking : Masking text lexemes masked)
    (hescapes : Escapes text (spansOf (closed 0 true) lexemes)) :
    (piecesOf masked (lines masked) (resolveSoftKeywords true (passLexemes lexemes))).map
      (Piece.view masked) =
        (readings (closed 0 true) (resolveSoftKeywords true lexemes)).map
          (PrintReading.view text (lines text)) ↔
      resolveSoftKeywords true (passLexemes lexemes) =
        passLexemes (resolveSoftKeywords true lexemes) ∧
        ∀ reading ∈ readings (closed 0 true) (resolveSoftKeywords true lexemes),
          BlankBefore text (spansOf (closed 0 true) lexemes) (reading.view text (lines text)) := by
  have hviews : resolveSoftKeywords true (passLexemes lexemes) =
    passLexemes (resolveSoftKeywords true lexemes) →
      ((piecesOf masked (lines masked) (resolveSoftKeywords true (passLexemes lexemes))).map
        (Piece.view masked) =
          (readings (closed 0 true) (resolveSoftKeywords true lexemes)).map
          (PrintReading.view text (lines text)) ↔
        ∀ reading ∈ readings (closed 0 true) (resolveSoftKeywords true lexemes),
          BlankBefore text (spansOf (closed 0 true) lexemes) (reading.view text (lines text))) := by
    intro hresolve
    rw [hresolve, passLexemes, map_view_piecesOf, List.map_inj_left]
    exact forall₂_congr fun reading hmem =>
      maskedView_eq_iff hmasking.maskedAs hescapes (hmasking.stands_resolved reading hmem)
  refine ⟨fun h => ?_, fun h => (hviews h.1).2 h.2⟩
  -- The kinds of the tokens tell how soft keywords have been resolved.
  have hresolve : resolveSoftKeywords true (passLexemes lexemes) =
      passLexemes (resolveSoftKeywords true lexemes) := by
    refine eq_of_map_kind (resolveSoftKeywords_softened true (passLexemes lexemes))
      (softened_map_lexeme
        (readings_softened (resolveSoftKeywords_softened true lexemes) (closed 0 true))) ?_
    have hkinds := congrArg (List.map TokenView.kind) h
    rw [map_kind_view_piecesOf, List.map_map] at hkinds
    rw [hkinds, passLexemes, List.map_map]
    exact List.map_congr_left fun reading _ => kind_view text (lines text) reading
  exact ⟨hresolve, (hviews hresolve).1 h⟩

end

/-- The tokens of a source with its print statements replaced are those of the source with `pass`
for each statement, exactly if all line ends of the statements can be escaped, soft keywords are
resolved without the statements as with them, and no more than spaces of a statement stand on the
line of a token that opens a block. -/
theorem tokenize_maskPrints_iff {text : List Char} (h : (tokenize text).error = none) :
    let tokens := (tokenize text).tokens
    let spans := printSpans text tokens
    let masked := maskPrints text spans
    let expected := withPass text ⟨none, 0, true⟩ tokens
    (tokenize masked).error = none ∧
        ((tokenize masked).tokens.map fun token => token.view masked) = expected ↔
      (∀ span ∈ spans, escapable false (sliceBytes text span.1 span.2) = true) ∧
        ResolvesAlike text ∧ ∀ view ∈ expected, BlankBefore text spans view := by
  intro tokens spans masked expected
  obtain ⟨mask, hmasking⟩ := exists_masking ((error_eq_none_iff text).1 h)
  obtain ⟨hexpected, hspans⟩ := withPass_tokenize h hmasking
  obtain rfl : masked = mask := by
    rw [show masked = maskFrom 0 text (printSpans text (tokenize text).tokens) from rfl, hspans]
    exact hmasking.maskedAs.mask_eq
  rw [show spans = _ from hspans, show expected = _ from hexpected]
  by_cases hescapes : Escapes text (spansOf (closed 0 true) (scanAt 0 (untabify text)).lexemes)
  · have hscan := hmasking.whole hescapes
    have hnone : (tokenize masked).error = none := by
      rw [error_eq_none_iff, hscan]
    have hend : (endPiece masked).view masked = (endPiece text).view text := by
      rw [view_endPiece, view_endPiece, hmasking.maskedAs.byteLength_eq]
    have hlexemes : (scanModule (untabify masked)).lexemes =
        resolveSoftKeywords true (passLexemes (scanAt 0 (untabify text)).lexemes) := by
      rw [scanModule, hscan]
      rfl
    rw [map_view_tokenize hnone, hend, List.append_cancel_right_eq, hlexemes,
      forall_mem_concat_blankBefore]
    refine ⟨fun h => ⟨hescapes, (map_view_eq_iff hmasking hescapes).1 h.2⟩, fun h => ⟨hnone, ?_⟩⟩
    exact (map_view_eq_iff hmasking hescapes).2 h.2
  · refine ⟨fun h => absurd h.2 ?_, fun h => absurd h.1 hescapes⟩
    exact hmasking.map_view_ne hescapes h.1

/-- Statements over several lines by brackets, a literal and a backslash, in a block and before
other statements. -/
theorem tokenize_maskPrints_mixed :
    let text :=
      ("if a:\r\n\tprint (1,\r\n  2), 'é'; match = 3\r\n\tprint \"\"\"b\n c\"\"\"; " ++
        "\\\n x\nprint \\\n >>f; print\n").toList
    let spans := printSpans text (tokenize text).tokens
    let masked := maskPrints text spans
    (tokenize text).error = none ∧ spans = [(8, 29), (43, 59), (66, 78), (80, 85)] ∧
      (tokenize masked).error = none ∧
      ((tokenize masked).tokens.map fun token => token.view masked) =
        withPass text ⟨none, 0, true⟩ (tokenize text).tokens := by
  intro text spans masked
  have herror : (tokenize text).error = none := by decide +kernel
  have hconditions : (∀ span ∈ spans, escapable false (sliceBytes text span.1 span.2) = true) ∧
    ResolvesAlike text ∧
      ∀ view ∈ withPass text ⟨none, 0, true⟩ (tokenize text).tokens,
        BlankBefore text spans view := by decide +kernel
  obtain ⟨hnone, htokens⟩ := (tokenize_maskPrints_iff herror).2 hconditions
  exact ⟨herror, by decide +kernel, hnone, htokens⟩

/-- An empty line in a literal is not escaped, so that the mask has a newline where the source has
none. -/
theorem newline_inside_print :
    let text := "print \"\"\"a\n\nb\"\"\"; import os, sys\n".toList
    let masked := maskPrints text (printSpans text (tokenize text).tokens)
    (tokenize text).error = none ∧ (tokenize masked).error = none ∧
      ⟨.newline, "\n", 11⟩ ∈ (tokenize masked).tokens.map (fun token => token.view masked) ∧
      ⟨.newline, "\n", 11⟩ ∉ withPass text ⟨none, 0, true⟩ (tokenize text).tokens := by
  decide +kernel

end PythonLint
