import PythonLint.Proofs.LinePartition
import PythonLint.Proofs.Statements

/-!
# Statements stand on lines of their own

The scanner ends a statement at a line feed, at a carriage return, or at both together, while a
physical line ends at a line feed only. So two statements share a physical line exactly where a
carriage return alone stands between them. Apart from that, the starts of tokens never decrease, the
logical lines of statements stand in order and apart, and the line map of a source gives every
physical line of a statement the range of that statement.

Main statements: `inSequence_of_stacked`, `rangeOf_of_first`, `standApart_tokenize`.
-/

namespace PythonLint

open Text

variable {tail : List Piece} {statements : List Statement} {after before : List Token}
    {piece : Piece} {token : Token}

/-! ### Ranges of pieces -/

section Range

variable {pieces : List Piece}

theorem foldl_min_le (f : Piece → Nat) (pieces : List Piece) (n : Nat) :
    pieces.foldl (fun line piece => min line (f piece)) n ≤ n ∧
      ∀ piece ∈ pieces, pieces.foldl (fun line piece => min line (f piece)) n ≤ f piece := by
  induction pieces generalizing n with
  | nil => exact ⟨Nat.le_refl n, List.forall_mem_nil _⟩
  | cons piece pieces ih =>
    obtain ⟨hstart, hrest⟩ := ih (min n (f piece))
    rw [List.foldl_cons]
    refine ⟨by omega, List.forall_mem_cons.2 ⟨by omega, hrest⟩⟩

theorem le_foldl_max (f : Piece → Nat) (pieces : List Piece) (n : Nat) :
    n ≤ pieces.foldl (fun line piece => max line (f piece)) n ∧
      ∀ piece ∈ pieces, f piece ≤ pieces.foldl (fun line piece => max line (f piece)) n := by
  induction pieces generalizing n with
  | nil => exact ⟨Nat.le_refl n, List.forall_mem_nil _⟩
  | cons piece pieces ih =>
    obtain ⟨hstart, hrest⟩ := ih (max n (f piece))
    rw [List.foldl_cons]
    refine ⟨by omega, List.forall_mem_cons.2 ⟨by omega, hrest⟩⟩

theorem le_foldl_min {f : Piece → Nat} {bound n : Nat} (hn : bound ≤ n)
    (h : ∀ piece ∈ pieces, bound ≤ f piece) :
    bound ≤ pieces.foldl (fun line piece => min line (f piece)) n := by
  induction pieces generalizing n with
  | nil => exact hn
  | cons piece pieces ih =>
    obtain ⟨hpiece, hrest⟩ := List.forall_mem_cons.1 h
    exact ih (Nat.le_min.2 ⟨hn, hpiece⟩) hrest

theorem foldl_max_le {f : Piece → Nat} {bound n : Nat} (hn : n ≤ bound)
    (h : ∀ piece ∈ pieces, f piece ≤ bound) :
    pieces.foldl (fun line piece => max line (f piece)) n ≤ bound := by
  induction pieces generalizing n with
  | nil => exact hn
  | cons piece pieces ih =>
    obtain ⟨hpiece, hrest⟩ := List.forall_mem_cons.1 h
    exact ih (Nat.max_le.2 ⟨hn, hpiece⟩) hrest

theorem rangeOf_covers (h : piece ∈ pieces) :
    (rangeOf pieces).first ≤ piece.start.line ∧ piece.stop.line ≤ (rangeOf pieces).last := by
  cases pieces with
  | nil => cases h
  | cons first rest =>
    obtain ⟨hfirst, hstarts⟩ := foldl_min_le (fun piece => piece.start.line) rest first.start.line
    obtain ⟨hlast, hstops⟩ := le_foldl_max (fun piece => piece.stop.line) rest first.stop.line
    rcases List.mem_cons.1 h with rfl | h
    · exact ⟨hfirst, hlast⟩
    · exact ⟨hstarts piece h, hstops piece h⟩

/-- The range of pieces starts with a line that none of them starts before. -/
theorem le_rangeOf_first (hne : pieces ≠ []) {first : Nat}
    (h : ∀ piece ∈ pieces, first ≤ piece.start.line) : first ≤ (rangeOf pieces).first := by
  obtain ⟨piece, rest, rfl⟩ := List.exists_cons_of_ne_nil hne
  obtain ⟨hstart, hstarts⟩ := List.forall_mem_cons.1 h
  exact le_foldl_min hstart hstarts

theorem rangeOf_last_le (hne : pieces ≠ []) {last : Nat}
    (h : ∀ piece ∈ pieces, piece.stop.line ≤ last) : (rangeOf pieces).last ≤ last := by
  obtain ⟨piece, rest, rfl⟩ := List.exists_cons_of_ne_nil hne
  obtain ⟨hstop, hstops⟩ := List.forall_mem_cons.1 h
  exact foldl_max_le hstop hstops

end Range

/-! ### Single statements -/

/-- A statement ends here with a carriage return alone, which ends no physical line. -/
def Piece.IsReturn (piece : Piece) : Prop :=
  piece.kind = .newline ∧ piece.lexeme = "\r"

instance (piece : Piece) : Decidable piece.IsReturn :=
  inferInstanceAs (Decidable (_ ∧ _))

namespace Statement

/-- The first statement ends before the second one starts, on an earlier line unless a carriage
return alone ends it. -/
def Precedes (a b : Statement) : Prop :=
  a.stop ≤ b.margin ∧ (¬a.newline.IsReturn → a.stop.line < b.margin.line)

variable {statement : Statement} {lines : List (List Char)}

theorem mem_pieces (h : piece ∈ statement.pieces lines) :
    piece ∈ statement.marks lines ∨ piece ∈ statement.words ∨ piece = statement.newline := by
  rcases List.mem_append.1 h with h | h
  · rcases List.mem_append.1 h with h | h
    · exact .inl h
    · exact .inr (.inl h)
  · exact .inr (.inr (List.mem_singleton.1 h))

namespace Valid

variable (hvalid : statement.Valid)

include hvalid

theorem start_le_stop (h : piece ∈ statement.pieces lines) : piece.start ≤ statement.stop := by
  rcases mem_pieces h with h | h | rfl
  · rcases mem_marks h with ⟨rfl, -⟩ | rfl | rfl
    · refine Location.le_trans ?_ hvalid.start_le
      exact Location.le_iff.2 (.inr ⟨rfl, Nat.zero_le _⟩)
    · exact Location.le_trans hvalid.margin_le hvalid.start_le
    · exact hvalid.start_le
  · exact (hvalid.within piece h).2.1
  · rw [hvalid.newline_start]
    exact Location.le_refl _

theorem stop_line_le (h : piece ∈ statement.pieces lines) :
    piece.stop.line ≤ statement.stop.line := by
  have hmargin := Location.line_le_of_le hvalid.margin_le
  have hstart := Location.line_le_of_le hvalid.start_le
  rcases mem_pieces h with h | h | rfl
  · rcases mem_marks h with ⟨rfl, -⟩ | rfl | rfl
    · exact hstart
    · exact Nat.le_trans hmargin hstart
    · exact hstart
  · exact Location.line_le_of_le (hvalid.within piece h).2.2
  · exact Nat.le_of_eq hvalid.newline_line

/-- A piece of a statement stands after its margin, but for an indentation, which stands at the
start of its line. -/
theorem margin_le_start (h : piece ∈ statement.pieces lines) :
    statement.margin ≤ piece.start ∨ piece.kind = .indent ∧
    piece.start.line = statement.start.line := by
  rcases mem_pieces h with h | h | rfl
  · rcases mem_marks h with ⟨rfl, -⟩ | rfl | rfl
    · exact .inr ⟨rfl, rfl⟩
    · exact .inl (Location.le_refl _)
    · exact .inl hvalid.margin_le
  · exact .inl (Location.le_trans hvalid.margin_le (hvalid.within piece h).1)
  · rw [hvalid.newline_start]
    exact .inl (Location.le_trans hvalid.margin_le hvalid.start_le)

theorem margin_line_le (h : piece ∈ statement.pieces lines) :
    statement.margin.line ≤ piece.start.line := by
  rcases hvalid.margin_le_start h with h | ⟨-, h⟩
  · exact Location.line_le_of_le h
  · rw [h]
    exact Location.line_le_of_le hvalid.margin_le

theorem kind_eq_newline (h : piece ∈ statement.pieces lines) (hkind : piece.kind = .newline) :
    piece = statement.newline := by
  rcases mem_pieces h with h | h | rfl
  · rcases kind_of_mem_marks h with h | h <;> rw [hkind] at h <;> cases h
  · exact absurd hkind (hvalid.isCode piece h).1
  · rfl

theorem kind_ne_newline (h : piece ∈ statement.marks lines ++ statement.words) :
    piece.kind ≠ .newline := by
  rcases List.mem_append.1 h with h | h
  · rcases kind_of_mem_marks h with h | h <;> rw [h] <;> exact fun h => by cases h
  · exact (hvalid.isCode piece h).1

/-- The range of a statement starts between the line of its margin and that of its code, and ends
with its newline. -/
theorem range_eq (lines : List (List Char)) :
    statement.margin.line ≤ (rangeOf (statement.pieces lines)).first ∧
      (rangeOf (statement.pieces lines)).first ≤ statement.start.line ∧
        (rangeOf (statement.pieces lines)).last = statement.stop.line := by
  have hne : statement.pieces lines ≠ [] := by simp [pieces]
  have hfirst := le_rangeOf_first hne fun piece h => hvalid.margin_line_le h
  have hlast := rangeOf_last_le hne fun piece h => hvalid.stop_line_le h
  have hnewline : statement.newline ∈ statement.pieces lines := by simp [pieces]
  refine ⟨hfirst, ?_, Nat.le_antisymm hlast ?_⟩
  · -- The first word, or else the newline, stands where the code starts.
    obtain ⟨piece, hhead, hstart⟩ := Option.map_eq_some_iff.1 hvalid.first
    have hmem : piece ∈ statement.pieces lines := by
      rw [pieces, List.append_assoc]
      exact List.mem_append_right _ (List.mem_of_head? hhead)
    rw [← hstart]
    exact (rangeOf_covers hmem).1
  · rw [← hvalid.newline_line]
    exact (rangeOf_covers hnewline).2

end Valid

end Statement

/-! ### Statements in sequence -/

/-- Statements one after the other, each of them on lines of the source, and then only ends of
blocks. -/
structure InSequence (text : List Char) (statements : List Statement) (tail : List Piece)
    (last : Location) : Prop where
  valid : ∀ statement ∈ statements, statement.Valid
  inSource : ∀ statement ∈ statements, 1 ≤ statement.margin.line ∧
    statement.stop.line ≤ (lines text).length
  apart : statements.Pairwise Statement.Precedes
  stop_le : ∀ statement ∈ statements, statement.stop ≤ last
  tail_eq : ∀ piece ∈ tail, piece = dedentAt last

/-- A line end other than a carriage return alone leads to the next line. -/
theorem line_lt_of_isLineEnding {before ending : List Char} (hending : IsLineEnding ending)
    (hne : ending ≠ []) (hreturn : ending ≠ ['\r']) :
    (Location.origin.after before).line < (Location.origin.after (before ++ ending)).line := by
  rw [Location.after_line, Location.after_line, List.count_append]
  have hcount : 1 ≤ ending.count '\n' := by
    rcases hending with rfl | rfl | rfl | rfl
    · exact absurd rfl hne
    · decide
    · exact absurd rfl hreturn
    · decide
  omega

theorem inSequence_of_stacked {text : List Char} {levels : List Level} {before rest : List Char}
    (h : Stacked text levels before rest statements tail) :
    InSequence text statements tail (Location.origin.after (before ++ rest)) ∧
      (∀ statement ∈ statements, Location.origin.after before ≤ statement.margin) ∧
      (rest = [] → statements = []) := by
  induction h with
  | done levels before rest =>
    refine ⟨⟨List.forall_mem_nil _, List.forall_mem_nil _, .nil, List.forall_mem_nil _, ?_⟩,
      List.forall_mem_nil _, fun _ => rfl⟩
    intro piece hmem
    obtain ⟨_, -, rfl⟩ := List.mem_map.1 hmem
    rfl
  | @line levels inner before margin gap body ending rest level statement later tail hmargin henter
      hgap hjoined hcode
      hending hatEnd hvalid hmarginAt hstartAt hstopAt hlexeme hline _ ih =>
    obtain ⟨hsequence, hafter, hnone⟩ := ih
    have hassoc : before ++ (margin ++ gap ++ body ++ ending ++ rest) =
        before ++ margin ++ gap ++ body ++ ending ++ rest := by
      simp only [List.append_assoc]
    have hbefore : Location.origin.after before ≤ statement.margin := by
      rw [hmarginAt]
      exact Location.after_le_append _ _ _
    have hstop : statement.stop ≤ Location.origin.after
        (before ++ margin ++ gap ++ body ++ ending) := by
      rw [hstopAt]
      exact Location.after_le_append _ _ _
    have hpast : Location.origin.after before ≤
        Location.origin.after (before ++ margin ++ gap ++ body ++ ending) :=
      Location.le_trans hbefore
        (Location.le_trans hvalid.margin_le (Location.le_trans hvalid.start_le hstop))
    have hprecedes : ∀ other ∈ later, statement.Precedes other := by
      intro other hmem
      refine ⟨Location.le_trans hstop (hafter other hmem), fun hreturn => ?_⟩
      have hne : ending ≠ [] := by
        intro hnil
        rw [hnone (hatEnd hnil)] at hmem
        cases hmem
      have hlone : ending ≠ ['\r'] := by
        rintro rfl
        exact hreturn ⟨hvalid.newline_kind, hlexeme⟩
      rw [hstopAt]
      exact Nat.lt_of_lt_of_le (line_lt_of_isLineEnding hending hne hlone)
        (Location.line_le_of_le (hafter other hmem))
    rw [hassoc]
    refine ⟨⟨?_, ?_, ?_, ?_, hsequence.tail_eq⟩, ?_, ?_⟩
    · exact List.forall_mem_cons.2 ⟨hvalid, hsequence.valid⟩
    · refine List.forall_mem_cons.2 ⟨⟨?_, hline⟩, hsequence.inSource⟩
      rw [hmarginAt]
      exact Location.one_le_line_after _
    · exact List.pairwise_cons.2 ⟨hprecedes, hsequence.apart⟩
    · exact List.forall_mem_cons.2 ⟨Location.le_trans hstop (Location.after_le_append _ _ _),
        hsequence.stop_le⟩
    · exact List.forall_mem_cons.2 ⟨hbefore,
        fun other hmem => Location.le_trans hpast (hafter other hmem)⟩
    · intro hnil
      simp only [List.append_eq_nil_iff] at hnil
      simp [hnil] at hcode

namespace Statement.Valid

variable {statement : Statement} (hvalid : statement.Valid)

include hvalid

theorem pairwise_pieces (lines : List (List Char)) :
    (statement.pieces lines).Pairwise fun a b => a.start ≤ b.start := by
  rw [pieces, List.append_assoc]
  have hnewline : statement.newline.start = statement.stop := hvalid.newline_start
  have hlater : ∀ piece ∈ statement.words ++ [statement.newline],
      statement.start ≤ piece.start := by
    intro piece hmem
    rcases List.mem_append.1 hmem with hmem | hmem
    · exact (hvalid.within piece hmem).1
    · rw [List.mem_singleton.1 hmem, hnewline]
      exact hvalid.start_le
  refine List.pairwise_append.2 ⟨?_,
    List.pairwise_append.2 ⟨hvalid.ordered, List.pairwise_singleton _ _, ?_⟩, ?_⟩
  · unfold marks
    split
    · exact .nil
    · exact List.pairwise_singleton _ _
    · exact .nil
    · refine List.pairwise_append.2 ⟨?_, List.pairwise_singleton _ _, ?_⟩
      · exact List.pairwise_replicate.2 (.inr (Location.le_refl _))
      · intro a ha b hb
        rw [List.eq_of_mem_replicate ha, List.mem_singleton.1 hb]
        exact hvalid.margin_le
  · intro word hword newline hmem
    rw [List.mem_singleton.1 hmem, hnewline]
    exact (hvalid.within word hword).2.1
  · intro mark hmark piece hmem
    refine Location.le_trans ?_ (hlater piece hmem)
    rcases mem_marks hmark with ⟨rfl, -⟩ | rfl | rfl
    · exact Location.le_iff.2 (.inr ⟨rfl, Nat.zero_le _⟩)
    · exact hvalid.margin_le
    · exact Location.le_refl _

/-- Only the first piece of a statement can be an indentation. -/
theorem kind_ne_indent_of_mem_tail {lines : List (List Char)}
    (h : piece ∈ (statement.pieces lines).tail) : piece.kind ≠ .indent := by
  have hcode : ∀ piece ∈ statement.words ++ [statement.newline], piece.kind ≠ .indent := by
    intro piece hmem
    rcases List.mem_append.1 hmem with hmem | hmem
    · exact (hvalid.isCode piece hmem).2.1
    · rw [List.mem_singleton.1 hmem, hvalid.newline_kind]
      exact fun h => by cases h
  rw [pieces, List.append_assoc] at h
  unfold marks at h
  split at h
  · exact hcode piece (List.mem_of_mem_tail h)
  · exact hcode piece h
  · exact hcode piece (List.mem_of_mem_tail h)
  · rcases List.mem_append.1 (List.mem_of_mem_tail h) with h | h
    · have hkind : piece.kind = .dedent := by
        rcases List.mem_append.1 h with h | h
        · rw [List.eq_of_mem_replicate h]
          rfl
        · rw [List.mem_singleton.1 h]
          rfl
      rw [hkind]
      exact fun h => by cases h
    · exact hcode piece h

theorem line_of_indent {lines : List (List Char)} (h : piece ∈ statement.pieces lines)
    (hkind : piece.kind = .indent) : piece.start.line = statement.start.line := by
  rcases mem_pieces h with h | h | rfl
  · rcases mem_marks h with ⟨rfl, -⟩ | rfl | rfl
    · rfl
    · cases hkind
    · cases hkind
  · exact absurd hkind (hvalid.isCode piece h).2.1
  · rw [hvalid.newline_kind] at hkind
    cases hkind

end Statement.Valid

/-! ### Starts of tokens -/

theorem getLast?_pieces (lines : List (List Char)) (statement : Statement) :
    (statement.pieces lines).getLast? = some statement.newline := by
  rw [Statement.pieces, List.getLast?_concat]

/-- An indentation is the first piece of its statement. -/
theorem exists_statement_of_indent (hvalid : ∀ statement ∈ statements, statement.Valid)
    {lines : List (List Char)} (htail : ∀ piece ∈ tail, piece.kind ≠ .indent)
    {before after : List Piece}
    (h : statements.flatMap (Statement.pieces lines) ++ tail = before ++ piece :: after)
    (hkind : piece.kind = .indent) :
    ∃ earlier statement later, statements = earlier ++ statement :: later ∧
      before = earlier.flatMap (Statement.pieces lines) ∧
      piece.start.line = statement.start.line := by
  induction statements generalizing before with
  | nil =>
    rw [List.flatMap_nil, List.nil_append] at h
    exact absurd hkind (htail piece (by simp [h]))
  | cons statement statements ih =>
    obtain ⟨hfirst, hothers⟩ := List.forall_mem_cons.1 hvalid
    rw [List.flatMap_cons, List.append_assoc] at h
    rcases List.append_eq_append_iff.1 h with ⟨inner, rfl, hrest⟩ | ⟨inner, hpieces, hrest⟩
    · obtain ⟨earlier, found, later, rfl, rfl, hline⟩ := ih hothers hrest
      exact ⟨statement :: earlier, found, later, rfl, rfl, hline⟩
    · cases inner with
      | nil =>
        -- The piece starts the next statement.
        rw [List.append_nil] at hpieces
        have hnext : statements.flatMap (Statement.pieces lines) ++ tail =
          [] ++ piece :: after := hrest.symm
        obtain ⟨earlier, found, later, rfl, hnil, hline⟩ := ih hothers hnext
        refine ⟨statement :: earlier, found, later, rfl, ?_, hline⟩
        rw [List.flatMap_cons, ← hnil, List.append_nil, hpieces]
      | cons first inner =>
        obtain ⟨rfl, -⟩ := List.cons.inj hrest
        cases before with
        | nil =>
          have hmem : piece ∈ statement.pieces lines := by
            rw [hpieces]
            exact List.mem_cons_self
          exact ⟨[], statement, statements, rfl, rfl, hfirst.line_of_indent hmem hkind⟩
        | cons head before =>
          have hmem : piece ∈ (statement.pieces lines).tail := by
            rw [hpieces]
            exact List.mem_append_right _ List.mem_cons_self
          exact absurd hkind (hfirst.kind_ne_indent_of_mem_tail hmem)

namespace InSequence

variable {text : List Char} {statements : List Statement} {tail : List Piece} {last : Location}
  (h : InSequence text statements tail last) (hlast : (endPiece text).start = last)
      (lines : List (List Char))

include h hlast

/-- The starts of pieces never decrease before a piece that is no indentation. -/
theorem pairwise_start :
    (statements.flatMap (Statement.pieces lines) ++ (tail ++ [endPiece text])).Pairwise
      fun a b => b.kind ≠ .indent → a.start ≤ b.start := by
  have hends : ∀ piece ∈ tail ++ [endPiece text], piece.start = last := by
    intro piece hmem
    rcases List.mem_append.1 hmem with hmem | hmem
    · rw [h.tail_eq piece hmem]
      rfl
    · rw [List.mem_singleton.1 hmem, hlast]
  refine List.pairwise_append.2 ⟨List.pairwise_flatMap.2 ⟨?_, ?_⟩, ?_, ?_⟩
  · intro statement hmem
    refine ((h.valid statement hmem).pairwise_pieces lines).imp ?_
    intro a b hle _
    exact hle
  · refine h.apart.imp_of_mem ?_
    intro a b ha hb hprecedes p hp q hq hkind
    rcases (h.valid b hb).margin_le_start hq with hmargin | ⟨hindent, -⟩
    · exact Location.le_trans ((h.valid a ha).start_le_stop hp)
        (Location.le_trans hprecedes.1 hmargin)
    · exact absurd hindent hkind
  · refine List.pairwise_of_forall_mem_list fun a ha b hb _ => ?_
    rw [hends a ha, hends b hb]
    exact Location.le_refl _
  · intro piece hpiece other hother _
    obtain ⟨statement, hmem, hin⟩ := List.mem_flatMap.1 hpiece
    rw [hends other hother]
    exact Location.le_trans ((h.valid statement hmem).start_le_stop hin) (h.stop_le statement hmem)

/-- No piece starts before those that precede it, unless it is an indentation right after a carriage
return. -/
theorem start_le {before after : List Piece}
    (hsplit : statements.flatMap (Statement.pieces lines) ++ (tail ++ [endPiece text]) =
      before ++ piece :: after)
    (hreturn : piece.kind = .indent → ∀ previous, before.getLast? = some previous →
      ¬previous.IsReturn) :
    ∀ earlier ∈ before, earlier.start ≤ piece.start := by
  intro earlier hearlier
  by_cases hkind : piece.kind = .indent
  · have htail : ∀ piece ∈ tail ++ [endPiece text], piece.kind ≠ .indent := by
      intro piece hmem
      rcases List.mem_append.1 hmem with hmem | hmem
      · rw [h.tail_eq piece hmem]
        exact fun h => by cases h
      · rw [List.mem_singleton.1 hmem]
        exact fun h => by cases h
    obtain ⟨others, statement, later, rfl, rfl, hline⟩ :=
      exists_statement_of_indent h.valid htail hsplit hkind
    -- The statement right before ends on an earlier line, and all others before that.
    rcases List.eq_nil_or_concat others with rfl | ⟨init, previous, rfl⟩
    · cases hearlier
    rw [List.concat_eq_append] at hearlier hreturn h
    have hprevious : ((init ++ [previous]).flatMap (Statement.pieces lines)).getLast? =
        some previous.newline := by
      rw [List.flatMap_append, List.flatMap_singleton, List.getLast?_append, getLast?_pieces]
      rfl
    have happart := h.apart
    rw [List.append_assoc, List.pairwise_append] at happart
    obtain ⟨-, hrest, hcross⟩ := happart
    obtain ⟨hnext, -⟩ := List.pairwise_cons.1 hrest
    have hless := (hnext statement (by simp)).2 (hreturn hkind _ hprevious)
    obtain ⟨owner, howner, hin⟩ := List.mem_flatMap.1 hearlier
    have hvalid := h.valid owner (List.mem_append_left _ howner)
    have howned : owner.stop.line ≤ previous.stop.line := by
      rcases List.mem_append.1 howner with hmem | hmem
      · have hprevious := h.valid previous (by simp)
        have hle := Location.line_le_of_le (hcross owner hmem previous (by simp)).1
        have hmargin := Location.line_le_of_le hprevious.margin_le
        have hstart := Location.line_le_of_le hprevious.start_le
        omega
      · rw [List.mem_singleton.1 hmem]
    have hstart := Location.line_le_of_le (hvalid.start_le_stop hin)
    have hcode := Location.line_le_of_le (h.valid statement (by simp)).margin_le
    exact Location.le_of_line_lt (by omega)
  · have hpairwise := h.pairwise_start hlast lines
    rw [hsplit] at hpairwise
    exact (List.pairwise_append.1 hpairwise).2.2 earlier hearlier piece List.mem_cons_self hkind

end InSequence

/-! ### Logical lines of statements -/

theorem mem_tokensOfLine {lines : List (List Char)} {pieces : List Piece}
    (h : token ∈ tokensOfLine lines pieces) :
    token.toPiece ∈ pieces ∧ token.range = rangeOf pieces := by
  obtain ⟨piece, hmem, rfl⟩ := List.mem_map.1 h
  exact ⟨hmem, rfl⟩

/-- The tokens of statements, of ends of blocks and of the end of a source. -/
def tokensOf (text : List Char) (lines : List (List Char)) (statements : List Statement)
    (tail : List Piece) : List Token :=
  (statements.map (Statement.pieces lines) ++ [tail ++ [endPiece text]]).flatMap
    (tokensOfLine lines)

theorem tokensOf_cons (text : List Char) (lines : List (List Char)) (statement : Statement)
    (statements : List Statement) (tail : List Piece) :
    tokensOf text lines (statement :: statements) tail =
      tokensOfLine lines (statement.pieces lines) ++ tokensOf text lines statements tail := rfl

namespace InSequence

variable {text : List Char} {statements : List Statement} {tail : List Piece} {last : Location}
  (h : InSequence text statements tail last) {lines : List (List Char)}

include h

theorem tail_kind (htoken : token ∈ tokensOfLine lines (tail ++ [endPiece text])) :
    token.kind ≠ .newline := by
  have hmem := (mem_tokensOfLine htoken).1
  rcases List.mem_append.1 hmem with hmem | hmem
  · rw [h.tail_eq _ hmem]
    exact fun h => by cases h
  · rw [List.mem_singleton.1 hmem]
    exact fun h => by cases h

theorem exists_statement_of_newline (htoken : token ∈ tokensOf text lines statements tail)
    (hkind : token.kind = .newline) :
    ∃ statement ∈ statements, token.toPiece = statement.newline ∧
      token.range = rangeOf (statement.pieces lines) := by
  obtain ⟨group, hgroup, hin⟩ := List.mem_flatMap.1 htoken
  rcases List.mem_append.1 hgroup with hgroup | hgroup
  · obtain ⟨statement, hmem, rfl⟩ := List.mem_map.1 hgroup
    obtain ⟨hpiece, hrange⟩ := mem_tokensOfLine hin
    exact ⟨statement, hmem, (h.valid statement hmem).kind_eq_newline hpiece hkind, hrange⟩
  · rw [List.mem_singleton] at hgroup
    subst hgroup
    exact absurd hkind (h.tail_kind hin)

/-- The ranges of newlines stand in order, and apart unless a carriage return alone stands between
them. -/
theorem pairwise_range : (tokensOf text lines statements tail).Pairwise fun a b =>
    a.kind = .newline → b.kind = .newline →
      a.range.last ≤ b.range.first ∧ (¬a.IsReturn → a.range.last < b.range.first) := by
  refine List.pairwise_flatMap.2 ⟨?_, List.pairwise_append.2 ⟨?_, List.pairwise_singleton _ _, ?_⟩⟩
  · intro group hgroup
    rcases List.mem_append.1 hgroup with hgroup | hgroup
    · -- The only newline of a statement is its last piece.
      obtain ⟨statement, hmem, rfl⟩ := List.mem_map.1 hgroup
      refine List.pairwise_map.2 (List.pairwise_append.2 ⟨?_, List.pairwise_singleton _ _, ?_⟩)
      · refine List.pairwise_of_forall_mem_list fun a ha b _ hkind => ?_
        exact absurd hkind ((h.valid statement hmem).kind_ne_newline ha)
      · intro a ha b _ hkind
        exact absurd hkind ((h.valid statement hmem).kind_ne_newline ha)
    · rw [List.mem_singleton] at hgroup
      subst hgroup
      refine List.pairwise_of_forall_mem_list fun a ha b _ hkind => ?_
      exact absurd hkind (h.tail_kind ha)
  · refine List.pairwise_map.2 (h.apart.imp_of_mem ?_)
    intro s t hs ht hprecedes a ha b hb hkind _
    obtain ⟨hpiece, harange⟩ := mem_tokensOfLine ha
    obtain ⟨-, hbrange⟩ := mem_tokensOfLine hb
    obtain ⟨-, -, hlast⟩ := (h.valid s hs).range_eq lines
    obtain ⟨hfirst, -, -⟩ := (h.valid t ht).range_eq lines
    have hnewline := (h.valid s hs).kind_eq_newline hpiece hkind
    have hstop := Location.line_le_of_le hprecedes.1
    rw [harange, hbrange, hlast, hnewline]
    refine ⟨Nat.le_trans hstop hfirst, fun hreturn => ?_⟩
    exact Nat.lt_of_lt_of_le (hprecedes.2 hreturn) hfirst
  · intro group _ others hothers a _ b hb _ hkind
    rw [List.mem_singleton] at hothers
    subst hothers
    exact absurd hkind (h.tail_kind hb)

/-- The range of every token covers at least one line. -/
theorem proper_range (hlast : 1 ≤ last.line) (hend : (endPiece text).start = last) :
    ∀ token ∈ tokensOf text lines statements tail, token.range.Proper := by
  intro token htoken
  obtain ⟨group, hgroup, hin⟩ := List.mem_flatMap.1 htoken
  rw [(mem_tokensOfLine hin).2]
  rcases List.mem_append.1 hgroup with hgroup | hgroup
  · obtain ⟨statement, hmem, rfl⟩ := List.mem_map.1 hgroup
    obtain ⟨hfirst, hstart, hstop⟩ := (h.valid statement hmem).range_eq lines
    have hone := (h.inSource statement hmem).1
    have hle := Location.line_le_of_le (h.valid statement hmem).start_le
    exact ⟨by omega, by omega⟩
  · rw [List.mem_singleton] at hgroup
    subst hgroup
    have hpieces : ∀ piece ∈ tail ++ [endPiece text], piece.start = last ∧ piece.stop = last := by
      intro piece hmem
      rcases List.mem_append.1 hmem with hmem | hmem
      · rw [h.tail_eq piece hmem]
        exact ⟨rfl, rfl⟩
      · rw [List.mem_singleton.1 hmem]
        exact ⟨hend, hend⟩
    have hfirst : 1 ≤ (rangeOf (tail ++ [endPiece text])).first := by
      refine le_rangeOf_first (by simp) fun piece hmem => ?_
      rw [(hpieces piece hmem).1]
      exact hlast
    have hmem : endPiece text ∈ tail ++ [endPiece text] := by simp
    obtain ⟨hstart, hstop⟩ := rangeOf_covers hmem
    have hline : (endPiece text).stop.line = (endPiece text).start.line := rfl
    exact ⟨hfirst, by omega⟩

end InSequence

/-- Before a newline stand the other tokens of its statement, and those of statements with newlines
of their own. -/
theorem range_before_newline {text : List Char} {lines : List (List Char)}
    (hvalid : ∀ statement ∈ statements, statement.Valid)
    (htail : ∀ token ∈ tokensOfLine lines (tail ++ [endPiece text]), token.kind ≠ .newline)
    {newline : Token} (hsplit : tokensOf text lines statements tail = before ++ newline :: after)
    (hkind : newline.kind = .newline) :
    ∀ earlier ∈ before, earlier.range = newline.range ∨
      ∃ other ∈ before, other.kind = .newline ∧ other.range = earlier.range := by
  induction statements generalizing before with
  | nil =>
    have hmem : newline ∈ tokensOf text lines [] tail := by simp [hsplit]
    exact absurd hkind (htail newline (by simpa [tokensOf] using hmem))
  | cons statement statements ih =>
    obtain ⟨hfirst, hothers⟩ := List.forall_mem_cons.1 hvalid
    rw [tokensOf_cons] at hsplit
    obtain ⟨own, hown, hownKind⟩ : ∃ own ∈ tokensOfLine lines (statement.pieces lines),
        own.kind = .newline := by
      refine ⟨_, List.mem_map_of_mem (a := statement.newline) ?_, hfirst.newline_kind⟩
      simp [Statement.pieces]
    have hsame : ∀ earlier ∈ tokensOfLine lines (statement.pieces lines),
        own.range = earlier.range := by
      intro earlier hmem
      rw [(mem_tokensOfLine hown).2, (mem_tokensOfLine hmem).2]
    have hpast : ∀ inner, tokensOf text lines statements tail = inner ++ newline :: after →
        ∀ earlier ∈ tokensOfLine lines (statement.pieces lines) ++ inner,
          earlier.range = newline.range ∨
          ∃ other ∈ tokensOfLine lines (statement.pieces lines) ++ inner,
            other.kind = .newline ∧ other.range = earlier.range := by
      intro inner hinner earlier hmem
      rcases List.mem_append.1 hmem with hmem | hmem
      · exact .inr ⟨own, List.mem_append_left _ hown, hownKind, hsame earlier hmem⟩
      · rcases ih hothers hinner earlier hmem with hrange | ⟨other, hother, hrest⟩
        · exact .inl hrange
        · exact .inr ⟨other, List.mem_append_right _ hother, hrest⟩
    rcases List.append_eq_append_iff.1 hsplit with ⟨inner, rfl, hrest⟩ | ⟨inner, htokens, hrest⟩
    · exact hpast inner hrest
    · cases inner with
      | nil =>
        have h := hpast [] hrest.symm
        rwa [htokens, List.append_nil, List.append_nil] at h
      | cons first inner =>
        obtain ⟨rfl, -⟩ := List.cons.inj hrest
        intro earlier hmem
        have hnewline : newline ∈ tokensOfLine lines (statement.pieces lines) := by simp [htokens]
        have hearlier : earlier ∈ tokensOfLine lines (statement.pieces lines) := by
          simp [htokens, hmem]
        rw [← hsame earlier hearlier, ← hsame newline hnewline]
        exact .inl rfl

/-- A token starts a statement of the line map when no token before it covers its lines, but for
those with the same range. -/
theorem exists_statement_of_range {count : Nat} (hcount : token.range.first ≤ count)
    (hbefore : ∀ earlier ∈ before, earlier.range = token.range ∨
      earlier.range.last < token.range.first)
    {covered : Nat} (hcovered : covered < token.range.first) :
    ∃ logical ∈ statementsFrom count covered (before ++ token :: after),
      logical.range = ⟨token.range.first, min token.range.last count⟩ := by
  induction before generalizing covered with
  | nil =>
    rw [List.nil_append, statementsFrom, if_pos ⟨hcovered, hcount⟩]
    exact ⟨_, List.mem_cons_self, rfl⟩
  | cons earlier before ih =>
    obtain ⟨hearlier, hothers⟩ := List.forall_mem_cons.1 hbefore
    rw [List.cons_append, statementsFrom]
    split
    · rcases hearlier with hrange | hless
      · exact ⟨_, List.mem_cons_self, by rw [hrange]⟩
      · obtain ⟨logical, hmem, hrange⟩ := ih hothers hless
        exact ⟨logical, List.mem_cons_of_mem _ hmem, hrange⟩
    · exact ih hothers hcovered

/-! ### The tokens of a source -/

/-- What the tokens of a source say about its lines. -/
structure StandApart (text : List Char) (tokens : List Token) : Prop where
  /-- Starts never decrease, but for an indentation on a line that a carriage return has ended a
  statement on. -/
  start_le : ∀ before token after, tokens = before ++ token :: after →
    (token.kind = .indent → ∀ previous, before.getLast? = some previous → ¬previous.IsReturn) →
      ∀ earlier ∈ before, earlier.start ≤ token.start
  /-- The logical lines of statements stand in order, and apart unless a carriage return alone
  stands between them. -/
  apart : tokens.Pairwise fun a b => a.kind = .newline → b.kind = .newline →
    a.range.last ≤ b.range.first ∧ (¬a.IsReturn → a.range.last < b.range.first)
  /-- The line map has the logical line of a statement that shares no line with an earlier one,
  unless both have the same lines. -/
  kept : ∀ before newline after, tokens = before ++ newline :: after → newline.kind = .newline →
    (∀ earlier ∈ before, earlier.kind = .newline →
      earlier.range = newline.range ∨ earlier.range.last < newline.range.first) →
      ∀ line ∈ newline.range, (LineMap.ofTokens (physicalLines text) tokens).rangeOf line =
        newline.range

namespace InSequence

variable {text : List Char} {statements : List Statement} {tail : List Piece} {last : Location}
  (h : InSequence text statements tail last)

include h

/-- The line map keeps a statement that shares no line with an earlier one, unless both have the
same lines. -/
theorem rangeOf_newline
    (hproper : ∀ token ∈ tokensOf text (lines text) statements tail, token.range.Proper)
    {newline : Token}
    (hsplit : tokensOf text (lines text) statements tail = before ++ newline :: after)
    (hkind : newline.kind = .newline)
    (hbefore : ∀ earlier ∈ before, earlier.kind = .newline → earlier.range = newline.range ∨
      earlier.range.last < newline.range.first) :
    ∀ line ∈ newline.range,
      (LineMap.ofTokens (physicalLines text) (tokensOf text (lines text) statements tail)).rangeOf
        line =
        newline.range := by
  have hmem : newline ∈ tokensOf text (lines text) statements tail := by simp [hsplit]
  obtain ⟨statement, hstatement, -, hrange⟩ := h.exists_statement_of_newline hmem hkind
  have hlast : newline.range.last ≤ (physicalLines text).length := by
    rw [hrange, ((h.valid statement hstatement).range_eq (lines text)).2.2,
      LineMap.length_physicalLines]
    exact (h.inSource statement hstatement).2
  have hnewline := hproper newline hmem
  have hothers : ∀ earlier ∈ before, earlier.range = newline.range ∨
      earlier.range.last < newline.range.first := by
    intro earlier hearlier
    rcases range_before_newline h.valid (fun _ => h.tail_kind) hsplit hkind earlier hearlier with
      hsame | ⟨other, hother, hotherKind, hotherRange⟩
    · exact .inl hsame
    · rw [← hotherRange]
      exact hbefore other hother hotherKind
  obtain ⟨logical, hlogical, hlogicalRange⟩ :
      ∃ logical ∈ statementsFrom (physicalLines text).length 0 (before ++ newline :: after),
        logical.range = ⟨newline.range.first, min newline.range.last (physicalLines text).length⟩ :=
    exists_statement_of_range (Nat.le_trans hnewline.2 hlast) hothers hnewline.1
  rw [Nat.min_eq_left hlast] at hlogicalRange
  rw [← hsplit] at hlogical
  intro line hline
  have hordered := LineMap.ordered_ofTokens (physicalLines text) hproper
  have hin : logical ∈ (LineMap.ofTokens (physicalLines text)
      (tokensOf text (lines text) statements tail)).logicalLines :=
    LineMap.mem_logicalLines_ofStatements_iff.2 (.inl hlogical)
  rw [hordered.rangeOf_eq hin (by rw [hlogicalRange]; exact hline), hlogicalRange]

theorem standApart (hlast : 1 ≤ last.line) (hend : (endPiece text).start = last) :
    StandApart text (tokensOf text (lines text) statements tail) where
  start_le before token after hsplit hreturn := by
    have hpieces := congrArg (List.map Token.toPiece) hsplit
    rw [tokensOf, toPiece_flatMap_tokensOfLine, List.flatten_append, List.flatten_singleton,
      ← List.flatMap_def, List.map_append, List.map_cons] at hpieces
    intro earlier hearlier
    refine h.start_le hend (lines text) hpieces ?_ earlier.toPiece (List.mem_map_of_mem hearlier)
    intro hkind previous hprevious
    rw [List.getLast?_map] at hprevious
    obtain ⟨other, hother, rfl⟩ := Option.map_eq_some_iff.1 hprevious
    exact hreturn hkind other hother
  apart := h.pairwise_range
  kept _ _ _ hsplit hkind hbefore :=
    h.rangeOf_newline (h.proper_range hlast hend) hsplit hkind hbefore

end InSequence

theorem pairwise_of_forall_split {α : Type} {R : α → α → Prop} {l : List α}
    (h : ∀ before x after, l = before ++ x :: after → ∀ y ∈ before, R y x) : l.Pairwise R := by
  refine List.pairwise_iff_getElem.2 fun i j hi hj hij => ?_
  refine h (l.take j) l[j] (l.drop (j + 1)) ?_ l[i] ?_
  · rw [List.getElem_cons_drop, List.take_append_drop]
  · exact List.mem_take_iff_getElem.2 ⟨i, by omega, rfl⟩

/-- Statements stand on lines of their own, unless a carriage return alone ends one of them. So
without such a carriage return the starts of tokens never decrease, the logical lines of statements
stand apart, and the line map has them all. -/
theorem standApart_tokenize {text : List Char} (h : (tokenize text).error = none) :
    StandApart text (tokenize text).tokens ∧
      ((∀ token ∈ (tokenize text).tokens, ¬token.IsReturn) →
        (tokenize text).tokens.Pairwise (fun a b => a.start ≤ b.start) ∧
        (tokenize text).tokens.Pairwise (fun a b => a.kind = .newline → b.kind = .newline →
          a.range.last < b.range.first) ∧
        ∀ newline ∈ (tokenize text).tokens, newline.kind = .newline → ∀ line ∈ newline.range,
          (LineMap.ofTokens (physicalLines text) (tokenize text).tokens).rangeOf line =
            newline.range) := by
  obtain ⟨mark, rest, statements, tail, hsplit, -, hstacked, htokens⟩ := stacked_of_tokenize h
  have hsequence := (inSequence_of_stacked hstacked).1
  have hend : (endPiece text).start = Location.origin.after (mark ++ rest) := by
    have hcopy := untabify_sameOrTab text
    rw [hsplit] at hcopy
    have hlocation := locationAt_append text []
    rw [List.append_nil, Location.after_of_sameOrTab hcopy] at hlocation
    exact hlocation
  have hapart : StandApart text (tokenize text).tokens := by
    rw [htokens]
    exact hsequence.standApart (Location.one_le_line_after _) hend
  refine ⟨hapart, fun hreturn => ?_⟩
  have hranges : (tokenize text).tokens.Pairwise fun a b => a.kind = .newline → b.kind = .newline →
      a.range.last < b.range.first := by
    refine hapart.apart.imp_of_mem fun ha _ hab hakind hbkind => ?_
    exact (hab hakind hbkind).2 (hreturn _ ha)
  refine ⟨?_, hranges, ?_⟩
  · refine pairwise_of_forall_split fun before token after hsplit earlier hearlier => ?_
    refine hapart.start_le before token after hsplit (fun _ previous hprevious => ?_)
      earlier hearlier
    refine hreturn previous ?_
    rw [hsplit]
    exact List.mem_append_left _ (List.mem_of_getLast? hprevious)
  · intro newline hmem hkind
    obtain ⟨before, after, hsplit⟩ := List.append_of_mem hmem
    refine hapart.kept before newline after hsplit hkind fun earlier hearlier hearlierKind => ?_
    rw [hsplit] at hranges
    right
    exact (List.pairwise_append.1 hranges).2.2 earlier hearlier newline List.mem_cons_self
      hearlierKind hkind

/-- Line ends of two kinds, a block, brackets and a literal over two lines, a joined line and a
comment. -/
theorem standApart_tokenize_mixed :
    let text := "if a:\r\n\tf(x,\n [1]) # c\r\n\ty = 'b\\\nc'; \\\n  z\n\n".toList
    (tokenize text).error = none ∧ StandApart text (tokenize text).tokens ∧
      (∀ token ∈ (tokenize text).tokens, ¬token.IsReturn) ∧
      ∀ newline ∈ (tokenize text).tokens, newline.kind = .newline → ∀ line ∈ newline.range,
        (LineMap.ofTokens (physicalLines text) (tokenize text).tokens).rangeOf line =
          newline.range := by
  intro text
  have herror : (tokenize text).error = none := by decide +kernel
  have hreturn : ∀ token ∈ (tokenize text).tokens, ¬token.IsReturn := by decide +kernel
  obtain ⟨hapart, hall⟩ := standApart_tokenize herror
  exact ⟨herror, hapart, hreturn, (hall hreturn).2.2⟩

/-- A statement after a carriage return alone is not found by its lines, and an indentation after
one stands before tokens that precede it. -/
theorem shared_line_of_return :
    let bracketed := "a\rb = (1,\n2)\n".toList
    let indented := "if a:\r  y\n".toList
    ((tokenize bracketed).error = none ∧ ∃ newline ∈ (tokenize bracketed).tokens,
      newline.kind = .newline ∧ 2 ∈ newline.range ∧
        (LineMap.ofTokens (physicalLines bracketed) (tokenize bracketed).tokens).rangeOf 2 ≠
        newline.range) ∧
      (tokenize indented).error = none ∧
        ¬(tokenize indented).tokens.Pairwise fun a b => a.start ≤ b.start := by
  decide +kernel

end PythonLint
