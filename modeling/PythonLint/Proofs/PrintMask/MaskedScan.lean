import PythonLint.Proofs.PrintMask.Masked

/-!
# The scan of a mask

The scanner reads a text with its print statements replaced as it reads the text, but for `pass` in
the place of each statement. This holds as long as all line ends of the statements can be escaped.
Where one of them cannot, a newline is read inside a statement.

Main statements: `PrintRun.exists_masked`, `PrintRun.stands`.
-/

namespace PythonLint

open Text
open PrintState (closed)

/-- All line ends of the statements at the given positions can be escaped. -/
def Escapes (text : List Char) (spans : List (Nat × Nat)) : Prop :=
  ∀ span ∈ spans, escapable false (sliceBytes text span.1 span.2) = true

/-- The scan of a text from position `here` of the mask on, where `kept` is what is left of the
lexemes of the text. -/
structure MaskScan (text : List Char) (here : Nat) (scanner : Scanner) (spans : List (Nat × Nat))
    (kept : List Lexeme)
    (masked : List Char) : Prop where
  whole : Escapes text spans → scanFrom here scanner 0 masked = ⟨kept, none⟩
  broken : ¬Escapes text spans → ∃ lexeme ∈ (scanFrom here scanner 0 masked).lexemes,
    lexeme.tok = .newline ∧ ∃ span ∈ spans, span.1 < lexeme.start ∧ lexeme.start < span.2

namespace MaskScan

variable {text : List Char} {here here' : Nat} {scanner scanner' : Scanner}
    {spans : List (Nat × Nat)} {kept : List Lexeme}
  {masked masked' : List Char}

theorem of_kept (h : scanFrom here scanner 0 masked = ⟨kept, none⟩) :
    MaskScan text here scanner [] kept masked :=
  ⟨fun _ => h, fun hnot => absurd nofun hnot⟩

theorem prepend (h : MaskScan text here' scanner' spans kept masked') {lexemes : List Lexeme}
    (hscan : scanFrom here scanner 0 masked = (scanFrom here' scanner' 0 masked').prepend lexemes) :
    MaskScan text here scanner spans (lexemes ++ kept) masked where
  whole hescapes := by
    rw [hscan, h.whole hescapes]
    rfl
  broken hnot := by
    obtain ⟨lexeme, hmem, hlexeme⟩ := h.broken hnot
    refine ⟨lexeme, ?_, hlexeme⟩
    rw [hscan]
    exact List.mem_append_right _ hmem

/-- A statement is read as `pass`, or ends inside. -/
theorem statement {before body rest : List Char} {scanner : Scanner}
    (hstart : scanner.lineStart = false) (hdepth : scanner.depth = 0)
    (hlast : rest = [] → body.getLast? ≠ some '\n') (hsame : SameUpToWord rest masked)
    (h : MaskScan (before ++ ("print".toList ++ body) ++ rest)
      (byteLength (before ++ ("print".toList ++ body))) scanner spans kept masked) :
    MaskScan (before ++ ("print".toList ++ body) ++ rest) (byteLength before) scanner
      ((byteLength before, byteLength (before ++ ("print".toList ++ body))) :: spans)
      (⟨.keyword "pass", byteLength before, byteLength before + 4⟩ :: kept)
      (blankStatement ("print".toList ++ body) ++ masked) := by
  have hlast' : masked = [] → body.getLast? ≠ some '\n' := by
    intro hnil
    refine hlast ?_
    have := hsame.head?_eq
    rwa [hnil, List.head?_nil, List.head?_eq_none_iff] at this
  have hfirst : Escapes (before ++ ("print".toList ++ body) ++ rest)
      ((byteLength before, byteLength (before ++ ("print".toList ++ body))) :: spans) ↔
      escapable true body = true ∧ Escapes (before ++ ("print".toList ++ body) ++ rest) spans := by
    rw [Escapes, List.forall_mem_cons, sliceBytes_append]
    rfl
  by_cases hbody : escapable true body = true
  · have hscan := scanFrom_blankStatement hstart hbody hlast' (byteLength before)
    rw [← byteLength_append] at hscan
    have hrest := h.prepend hscan
    refine ⟨fun hescapes => hrest.whole (hfirst.1 hescapes).2, fun hnot => ?_⟩
    obtain ⟨lexeme, hmem, htok, span, hspan, hinside⟩ :=
      hrest.broken fun hlater => hnot (hfirst.2 ⟨hbody, hlater⟩)
    exact ⟨lexeme, hmem, htok, span, List.mem_cons_of_mem _ hspan, hinside⟩
  · refine ⟨fun hescapes => absurd (hfirst.1 hescapes).1 hbody, fun _ => ?_⟩
    obtain ⟨place, stop, scan, hafter, hbefore, hscan⟩ :=
      scanFrom_interrupted hstart hdepth (by simpa using hbody) masked (byteLength before)
    rw [← byteLength_append] at hbefore
    refine ⟨⟨.newline, place, stop⟩, ?_, rfl, _, List.mem_cons_self, hafter, hbefore⟩
    rw [hscan]
    simp [Scan.prepend]

end MaskScan

theorem PrintRun.exists_masked {before : List Char} {scanner : Scanner} {atStart : Bool}
    {text : List Char} {lexemes : List Lexeme} (h : PrintRun before scanner atStart text lexemes) :
    ∃ masked,
      MaskedAs (byteLength before) text (spansOf (closed scanner.depth atStart) lexemes) masked ∧
      MaskScan (before ++ text) (byteLength before) scanner
        (spansOf (closed scanner.depth atStart) lexemes)
        ((readings (closed scanner.depth atStart) lexemes).map PrintReading.lexeme) masked := by
  induction h with
  | @finish before scanner atStart hdepth =>
    obtain ⟨-, hspans, hreadings⟩ := finish_reads scanner (byteLength before) scanner.depth atStart
    rw [hspans, hreadings, map_lexeme_keptFrom]
    exact ⟨[], .done _ _, .of_kept (finishScan_of_depth hdepth _)⟩
  | @blank before scanner atStart text level hdepth hstart htext hmargin =>
    obtain ⟨-, hspans, hreadings⟩ :=
      finish_reads scanner (byteLength (before ++ text)) scanner.depth atStart
    rw [hspans, hreadings, map_lexeme_keptFrom]
    refine ⟨text, .done _ _, .of_kept ?_⟩
    rw [scanFrom_blank hstart htext hmargin, ← byteLength_append]
    exact finishScan_of_depth hdepth _
  | @margin before scanner atStart margin code level change levels lexemes hstart hcode hmargin
      henter _ ih =>
    obtain ⟨masked, hmasked, hscan⟩ := ih
    obtain ⟨hspans, hreadings⟩ := marks_read
      (fun mark hmark =>
        (changeLexemes_marks level (byteLength (before ++ margin)) change mark hmark).1)
      scanner.depth atStart lexemes
    have hhead := hmasked.sameUpToWord.head?_eq
    rw [byteLength_append] at hmasked
    rw [hspans, hreadings, List.map_append, map_lexeme_keptFrom]
    refine ⟨margin ++ masked, hmasked.widen, ?_⟩
    rw [List.append_assoc] at hscan
    refine hscan.prepend ?_
    have hsize : margin.length < (margin ++ masked).length := by
      have hne : masked ≠ [] := by
        rintro rfl
        rw [List.head?_nil, List.head?_eq_none_iff] at hhead
        exact hcode hhead
      rw [List.length_append]
      have := List.length_pos_iff.2 hne
      omega
    have hmargin' : readMargin false .zero 0 (margin ++ masked) = .ok (level, 0 + margin.length) :=
      readMargin_congr hcode (by rwa [Nat.zero_add]) hhead
    rw [Nat.zero_add] at hmargin'
    rw [scanFrom_margin hstart hmargin' hsize henter, List.take_left, List.drop_left,
      ← byteLength_append]
  | @piece before scanner atStart c word rest tok lexemes hstart hpiece hother _ ih =>
    obtain ⟨masked, hmasked, hscan⟩ := ih
    obtain ⟨hspans, hreadings⟩ := toList_reads before hpiece hother lexemes
    have hpiece' := scanPiece_congr hpiece hmasked.sameUpToWord
    rw [byteLength_append] at hmasked
    rw [hspans, hreadings, List.map_append, map_lexeme_keptFrom]
    refine ⟨c :: word ++ masked, hmasked.widen, ?_⟩
    rw [List.append_assoc] at hscan
    refine hscan.prepend ?_
    have hdrop : (c :: (word ++ masked)).drop (word.length + 1) = masked := by
      rw [List.drop_succ_cons, List.drop_left]
    rw [List.cons_append, scanFrom_piece hstart hpiece', take_piece, hdrop, ← byteLength_append]
  | @statement before scanner body rest inner later hstart hdepth hinside hatEnd hlast
      hfirst _ ih =>
    obtain ⟨masked, hmasked, hscan⟩ := ih
    obtain ⟨hspans, hreadings⟩ :=
      statement_reads (byteLength before) (byteLength (before ++ "print".toList)) hinside hfirst
    rw [hdepth] at hmasked hscan ⊢
    have hassoc : before ++ ("print".toList ++ body ++ rest) =
        before ++ ("print".toList ++ body) ++ rest :=
      (List.append_assoc _ _ _).symm
    rw [hspans, hreadings, hassoc]
    refine ⟨blankStatement ("print".toList ++ body) ++ masked, ?_,
      .statement hstart hdepth hlast hmasked.sameUpToWord hscan⟩
    rw [byteLength_append] at hmasked ⊢
    exact .statement [] body hatEnd hmasked

/-! ### Places -/

/-- The place of a lexeme, when a mark of a block stands at `code`. -/
def placeOf (lexeme : Lexeme) (code : Nat) : Nat × Nat :=
  if (kindOf lexeme.tok).isBlockMark then (code, code) else (lexeme.start, lexeme.stop)

/-- What is kept has a place in the text `before ++ text` that is apart from the statements, and
`pass` has the place of one. -/
def Stands (before text : List Char) (spans : List (Nat × Nat)) : PrintReading → Prop
  | .kept lexeme code => ∃ gap word rest, text = gap ++ word ++ rest ∧
      placeOf lexeme code = (byteLength (before ++ gap), byteLength (before ++ gap ++ word)) ∧
      ∀ span ∈ spans, byteLength (before ++ gap ++ word) ≤ span.1 ∨
        span.2 ≤ byteLength (before ++ gap)
  | .pass start => ∃ stop, (start, stop) ∈ spans

theorem placeOf_mark {lexeme : Lexeme} (h : lexeme.tok.IsBlockMark) (code : Nat) :
    placeOf lexeme code = (code, code) :=
  if_pos (isBlockMark_kindOf_iff.2 h)

theorem placeOf_word {lexeme : Lexeme} (h : ¬lexeme.tok.IsBlockMark) (code : Nat) :
    placeOf lexeme code = (lexeme.start, lexeme.stop) :=
  if_neg fun hmark => h (isBlockMark_kindOf_iff.1 hmark)

namespace Stands

variable {before text : List Char} {spans : List (Nat × Nat)} {reading : PrintReading}

theorem widen {first : List Char} (h : Stands (before ++ first) text spans reading) :
    Stands before (first ++ text) spans reading := by
  cases reading with
  | pass start => exact h
  | kept lexeme code =>
    obtain ⟨gap, word, rest, rfl, hplace, hapart⟩ := h
    rw [List.append_assoc before first gap] at hplace hapart
    exact ⟨first ++ gap, word, rest, by simp only [List.append_assoc], hplace, hapart⟩

theorem later {span : Nat × Nat} (h : Stands before text spans reading)
    (hspan : span.2 ≤ byteLength before) : Stands before text (span :: spans) reading := by
  cases reading with
  | pass start =>
    obtain ⟨stop, hmem⟩ := h
    exact ⟨stop, List.mem_cons_of_mem _ hmem⟩
  | kept lexeme code =>
    obtain ⟨gap, word, rest, rfl, hplace, hapart⟩ := h
    refine ⟨gap, word, rest, rfl, hplace, List.forall_mem_cons.2 ⟨.inr ?_, hapart⟩⟩
    rw [byteLength_append]
    omega

/-- A place without characters, before all statements. -/
theorem of_place {gap rest : List Char} {lexeme : Lexeme} {code : Nat} (htext : text = gap ++ rest)
    (hplace : placeOf lexeme code = (byteLength (before ++ gap), byteLength (before ++ gap)))
    (hapart : ∀ span ∈ spans, byteLength (before ++ gap) ≤ span.1) :
    Stands before text spans (.kept lexeme code) := by
  refine ⟨gap, [], rest, by rw [htext, List.append_nil], ?_, ?_⟩
  · rw [hplace, List.append_nil]
  · intro span hspan
    rw [List.append_nil]
    exact .inl (hapart span hspan)

end Stands

theorem mem_keptFrom {lexemes later : List Lexeme} {reading : PrintReading}
    (h : reading ∈ keptFrom lexemes later) :
    ∃ lexeme ∈ lexemes, ∃ code, reading = .kept lexeme code ∧
      (code = codeAt lexeme later ∨ ∃ next ∈ lexemes.tail, code = next.start) := by
  induction lexemes with
  | nil => cases h
  | cons lexeme rest ih =>
    rcases List.mem_cons.1 h with rfl | hmem
    · refine ⟨lexeme, List.mem_cons_self, _, rfl, ?_⟩
      cases rest with
      | nil => exact .inl rfl
      | cons next rest => exact .inr ⟨next, List.mem_cons_self, rfl⟩
    · obtain ⟨lexeme', hlexeme', code, rfl, hcode⟩ := ih hmem
      refine ⟨lexeme', List.mem_cons_of_mem _ hlexeme', code, rfl, hcode.imp_right ?_⟩
      rintro ⟨next, hnext, rfl⟩
      exact ⟨next, List.mem_of_mem_tail hnext, rfl⟩

/-- All marks of a line but the first are ends of blocks, which stand where its code starts. -/
theorem start_of_mem_tail {level : Level} {offset : Nat} {change : LineChange} {mark : Lexeme}
    (h : mark ∈ (changeLexemes level offset change).tail) : mark.start = offset := by
  cases change with
  | same => cases h
  | opens => cases h
  | closes count =>
    rw [changeLexemes, List.tail_replicate] at h
    rw [List.eq_of_mem_replicate h]

namespace PrintRun

variable {before : List Char} {scanner : Scanner} {atStart : Bool} {text : List Char}
    {lexemes : List Lexeme}

theorem le_of_mem_spans (h : PrintRun before scanner atStart text lexemes) {span : Nat × Nat}
    (hspan : span ∈ spansOf (closed scanner.depth atStart) lexemes) :
    byteLength before ≤ span.1 := by
  obtain ⟨_, hmasked, -⟩ := h.exists_masked
  exact hmasked.le_of_mem hspan

/-- Inside a line the first lexeme starts before all statements. -/
theorem exists_first (h : PrintRun before scanner atStart text lexemes)
    (hstart : scanner.lineStart = false) :
    ∃ gap rest first later, text = gap ++ rest ∧ lexemes = first :: later ∧
      first.start = byteLength (before ++ gap) ∧
      ∀ span ∈ spansOf (closed scanner.depth atStart) lexemes,
        byteLength (before ++ gap) ≤ span.1 := by
  have hle : ∀ {span}, span ∈ spansOf (closed scanner.depth atStart) lexemes →
      byteLength (before ++ []) ≤ span.1 := by
    intro span hspan
    rw [List.append_nil]
    exact h.le_of_mem_spans hspan
  induction h with
  | @finish before scanner atStart hdepth =>
    refine ⟨[], [], ⟨.newline, byteLength before, byteLength before⟩,
      scanner.levels.map fun _ => ⟨.dedent, byteLength before, byteLength before⟩, rfl, ?_, ?_,
      fun _ => hle⟩
    · simp [finishScan, hdepth, hstart]
    · rw [List.append_nil]
  | blank _ hline =>
    rw [hline] at hstart
    cases hstart
  | margin hline =>
    rw [hline] at hstart
    cases hstart
  | @piece before scanner atStart c word rest tok lexemes hline hpiece hother hrest ih =>
    cases tok with
    | some tok => exact ⟨[], _, _, _, rfl, rfl, by rw [List.append_nil], fun _ => hle⟩
    | none =>
      obtain ⟨gap, tail, first, later, rfl, rfl, hfirst, hspans⟩ :=
        ih hstart fun hspan => (List.append_nil (before ++ c :: word)).symm ▸
          hrest.le_of_mem_spans hspan
      rw [List.append_assoc] at hfirst hspans
      exact ⟨c :: word ++ gap, tail, first, later, (List.append_assoc _ _ _).symm, rfl,
        hfirst, hspans⟩
  | statement => exact ⟨[], _, _, _, rfl, rfl, by rw [List.append_nil], fun _ => hle⟩

theorem stands_finish (before : List Char) (scanner : Scanner) {reading : PrintReading}
    (text : List Char)
    (h : reading ∈ keptFrom (finishScan (byteLength (before ++ text)) scanner).lexemes []) :
    Stands before text [] reading := by
  have hall : ∀ lexeme ∈ (finishScan (byteLength (before ++ text)) scanner).lexemes,
      lexeme.start = byteLength (before ++ text) ∧ lexeme.stop = byteLength (before ++ text) := by
    intro lexeme hmem
    rcases mem_finishScan hmem with rfl | rfl <;> exact ⟨rfl, rfl⟩
  obtain ⟨lexeme, hlexeme, code, rfl, hcode⟩ := mem_keptFrom h
  have hcode : code = byteLength (before ++ text) := by
    rcases hcode with rfl | ⟨next, hnext, rfl⟩
    · exact (hall lexeme hlexeme).2
    · exact (hall next (List.mem_of_mem_tail hnext)).1
  refine .of_place (List.append_nil text).symm ?_ nofun
  rw [placeOf, hcode, (hall lexeme hlexeme).1, (hall lexeme hlexeme).2, ite_self]

/-- What is kept stands apart from the statements. -/
theorem stands (h : PrintRun before scanner atStart text lexemes) :
    ∀ reading ∈ readings (closed scanner.depth atStart) lexemes,
      Stands before text (spansOf (closed scanner.depth atStart) lexemes) reading := by
  induction h with
  | @finish before scanner atStart hdepth =>
    obtain ⟨-, hspans, hreadings⟩ := finish_reads scanner (byteLength before) scanner.depth atStart
    rw [hspans, hreadings]
    intro reading hmem
    exact stands_finish before scanner [] (by rwa [List.append_nil])
  | @blank before scanner atStart text level hdepth hstart htext hmargin =>
    obtain ⟨-, hspans, hreadings⟩ :=
      finish_reads scanner (byteLength (before ++ text)) scanner.depth atStart
    rw [hspans, hreadings]
    intro reading hmem
    exact stands_finish before scanner text hmem
  | @margin before scanner atStart margin code level change levels lexemes hstart hcode hmargin
      henter hrest ih =>
    obtain ⟨hspans, hreadings⟩ := marks_read
      (fun mark hmark =>
        (changeLexemes_marks level (byteLength (before ++ margin)) change mark hmark).1)
      scanner.depth atStart lexemes
    rw [hspans, hreadings]
    intro reading hmem
    rcases List.mem_append.1 hmem with hmem | hmem
    · obtain ⟨mark, hmark, place, rfl, hplace⟩ := mem_keptFrom hmem
      obtain ⟨hmark, hstop⟩ :=
        changeLexemes_marks level (byteLength (before ++ margin)) change mark hmark
      obtain ⟨gap, rest, first, later, rfl, rfl, hfirst, hle⟩ := hrest.exists_first rfl
      rcases hplace with rfl | ⟨next, hnext, rfl⟩
      · -- The last mark stands at the first lexeme of the line.
        refine Stands.widen (.of_place rfl ?_ hle)
        rw [placeOf_mark hmark, codeAt, List.head?_cons, Option.map_some, Option.getD_some, hfirst]
      · -- The others stand where the margin ends.
        refine Stands.widen (.of_place (List.nil_append _).symm ?_ ?_)
        · rw [placeOf_mark hmark, start_of_mem_tail hnext, List.append_nil]
        · intro span hspan
          rw [List.append_nil]
          exact hrest.le_of_mem_spans hspan
    · exact (ih reading hmem).widen
  | @piece before scanner atStart c word rest tok lexemes hstart hpiece hother hrest ih =>
    obtain ⟨hspans, hreadings⟩ := toList_reads before hpiece hother lexemes
    rw [hspans, hreadings]
    intro reading hmem
    rcases List.mem_append.1 hmem with hmem | hmem
    · obtain ⟨lexeme, hlexeme, code, rfl, -⟩ := mem_keptFrom hmem
      obtain ⟨t, ht, rfl⟩ := List.mem_map.1 hlexeme
      obtain rfl : tok = some t := by simpa using ht
      refine ⟨[], c :: word, rest, rfl, ?_, ?_⟩
      · rw [placeOf_word (not_isBlockMark_of_piece hpiece), List.append_nil]
      · intro span hspan
        rw [List.append_nil]
        exact .inl (hrest.le_of_mem_spans hspan)
    · exact (ih reading hmem).widen
  | @statement before scanner body rest inner later hstart hdepth hinside hatEnd hlast
      hfirst _ ih =>
    obtain ⟨hspans, hreadings⟩ :=
      statement_reads (byteLength before) (byteLength (before ++ "print".toList)) hinside hfirst
    rw [hdepth] at ih ⊢
    rw [hspans, hreadings]
    intro reading hmem
    rcases List.mem_cons.1 hmem with rfl | hmem
    · exact ⟨_, List.mem_cons_self⟩
    · exact ((ih reading hmem).later (Nat.le_refl _)).widen

end PrintRun

end PythonLint
