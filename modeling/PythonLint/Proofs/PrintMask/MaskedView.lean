import PythonLint.Proofs.PrintMask.PrintTokens

/-!
# Tokens of a mask one by one

A token outside print statements is seen in the mask as it is seen in the text, with one exception.
The token that opens a block is seen as the blanks of a physical line, and that line may start
inside a print statement that ends with a lone carriage return. Then the rest of the statement on
that line has to be blanks already.

Main statements: `view_word`, `view_dedent`, `view_indent`, `maskedView_eq_iff`.
-/

namespace PythonLint

open Text

variable {lexeme : Lexeme} {above line rest : List Char}

/-- What is seen in a mask of the token that a reading stands for. -/
def PrintReading.maskedView (masked : List Char) (lines : List (List Char)) :
    PrintReading → TokenView
  | kept lexeme code => (pieceOf masked lines lexeme code).view masked
  | pass start => (pieceOf masked lines ⟨.keyword "pass", start, start + 4⟩ start).view masked

/-- A token opens no block, or no part of a print statement but spaces stands between its position
and the end of that statement. -/
def BlankBefore (text : List Char) (spans : List (Nat × Nat)) (view : TokenView) : Prop :=
  view.kind = .indent → ∀ span ∈ spans, span.1 < view.offset → view.offset < span.2 →
    ∀ c ∈ sliceBytes text view.offset span.2, c = ' '

instance (text : List Char) (spans : List (Nat × Nat)) (view : TokenView) :
    Decidable (BlankBefore text spans view) :=
  decidable_of_iff (view.kind = .indent → ∀ span ∈ spans, span.1 < view.offset →
    view.offset < span.2 →
    (sliceBytes text view.offset span.2).all (· == ' ') = true) (by simp [BlankBefore])

/-! ### The start of a line -/

theorem takeWhile_stop {p : Char → Bool} {c : Char} (hc : p c = false) (a b : List Char) :
    (a ++ c :: b).takeWhile p = a.takeWhile p := by
  induction a with
  | nil => exact List.takeWhile_cons_of_neg (by simp [hc])
  | cons d a ih => simp only [List.cons_append, List.takeWhile_cons, ih]

theorem takeWhile_dropReturn (line : List Char) :
    (dropReturn line).takeWhile isSpacing = line.takeWhile isSpacing := by
  unfold dropReturn
  split
  · next hlast =>
    obtain ⟨init, rfl⟩ := List.getLast?_eq_some_iff.1 hlast
    rw [List.dropLast_concat, takeWhile_stop rfl]
  · rfl

/-- The blanks of the first line of a text are those that the text starts with. -/
theorem takeWhile_head?_lines (text : List Char) :
    ((lines text).head?.getD []).takeWhile isSpacing = text.takeWhile isSpacing := by
  by_cases hmem : '\n' ∈ text
  · obtain ⟨line, rest, rfl, hline⟩ := List.eq_append_cons_of_mem hmem
    rw [lines_lineFeed hline, takeWhile_stop rfl]
    exact takeWhile_dropReturn line
  · by_cases hnil : text = []
    · rw [hnil]
      rfl
    · rw [lines_of_not_mem hmem hnil]
      rfl

/-- Where a line starts, by the line feeds before it. -/
def lineStartOf (feeds : List Nat) : Nat :=
  (feeds.getLast?.map (· + 1)).getD 0

theorem lineFeeds_of_not_mem (h : '\n' ∉ line) (here : Nat) : lineFeeds here line = [] := by
  rw [← List.length_eq_zero_iff, length_lineFeeds, List.count_eq_zero_of_not_mem h]

theorem byteLength_eq_lineStartOf (habove : StartsLine above) (hline : '\n' ∉ line) :
    byteLength above = lineStartOf (lineFeeds 0 (above ++ line)) := by
  rw [lineFeeds_append, lineFeeds_of_not_mem hline, List.append_nil]
  rcases habove with rfl | ⟨init, rfl⟩
  · rfl
  · have hlast : lineFeeds 0 (init ++ ['\n']) = lineFeeds 0 init ++ [byteLength init] := by
      rw [lineFeeds_append, Nat.zero_add]
      rfl
    rw [hlast, lineStartOf, List.getLast?_concat, byteLength_append]
    rfl

/-! ### What is seen of a token -/

theorem view_word {a word b : List Char} (hword : ¬lexeme.tok.IsBlockMark)
    (hstart : lexeme.start = byteLength a) (hstop : lexeme.stop = byteLength (a ++ word))
    (lines : List (List Char)) (code : Nat) :
    (pieceOf (a ++ word ++ b) lines lexeme code).view (a ++ word ++ b) =
      ⟨kindOf lexeme.tok, String.ofList word, byteLength a⟩ := by
  have hoffset : offsetAt (a ++ word ++ b) (locationAt (a ++ word ++ b) (byteLength a)) =
      byteLength a := by
    rw [List.append_assoc, locationAt_append, offsetAt_after]
  rw [pieceOf_of_not_isBlockMark _ _ hword, Piece.view, hstart, hstop, sliceBytes_append, hoffset]

theorem view_dedent (htok : lexeme.tok = .dedent) (a b : List Char) (lines : List (List Char)) :
    (pieceOf (a ++ b) lines lexeme (byteLength a)).view (a ++ b) = ⟨.dedent, "", byteLength a⟩ := by
  simp only [pieceOf, htok, Piece.view]
  rw [locationAt_append, offsetAt_after]

theorem view_indent (htok : lexeme.tok = .indent) (habove : StartsLine above) (hline : '\n' ∉ line)
    (b : List Char) :
    (pieceOf (above ++ line ++ b) (lines (above ++ line ++ b)) lexeme
      (byteLength (above ++ line))).view (above ++ line ++ b) =
      ⟨.indent, String.ofList ((line ++ b).takeWhile isSpacing), byteLength above⟩ := by
  have hplace : (⟨(Location.origin.after (above ++ line)).line, 0⟩ : Location) =
      Location.origin.after above := by
    have hcolumn : (Location.origin.after (above ++ [])).column = 0 :=
      column_after habove List.not_mem_nil
    rw [List.append_nil] at hcolumn
    rw [Location.after_append, Location.after_of_not_mem _ hline, ← hcolumn]
  have hoffset : offsetAt (above ++ line ++ b) (Location.origin.after above) =
      byteLength above := by
    rw [List.append_assoc, offsetAt_after]
  simp only [pieceOf, htok, indentPiece, Piece.view]
  rw [locationAt_append, hplace, hoffset, getElem?_lines habove hline, takeWhile_head?_lines]

/-! ### Blanks at the end of a statement -/

theorem AtEnd.takeWhile_eq (h : AtEnd rest) : rest.takeWhile isSpacing = [] := by
  cases rest with
  | nil => rfl
  | cons c rest =>
    refine List.takeWhile_cons_of_neg ?_
    rcases h c rfl with hline | rfl
    · rcases isLineEnd_iff.1 hline with rfl | rfl <;> decide
    · decide

theorem takeWhile_spaces {blanks : List Char} (hblanks : ∀ c ∈ blanks, c = ' ')
    (hatEnd : AtEnd rest) : (blanks ++ rest).takeWhile isSpacing = blanks := by
  have hspacing : ∀ c ∈ blanks, isSpacing c = true := by
    intro c hc
    rw [hblanks c hc]
    rfl
  rw [List.takeWhile_append_of_pos hspacing, hatEnd.takeWhile_eq, List.append_nil]

theorem eq_replicate_of_spaces {blanks : List Char} (h : ∀ c ∈ blanks, c = ' ') :
    blanks = List.replicate (byteLength blanks) ' ' := by
  have hlength := List.eq_replicate_of_mem h
  have hbytes := congrArg byteLength hlength
  rw [byteLength_replicate_space] at hbytes
  rw [hbytes]
  exact hlength

theorem escapable_return (h : rest.head? ≠ some '\n') (blank : Bool) (first : List Char) :
    escapable blank (first ++ '\r' :: rest) = false := by
  fun_induction escapable blank first with
  | case1 blank =>
    cases rest with
    | nil => rfl
    | cons c rest =>
      rw [List.nil_append, escapable]
      intro tail htail
      exact h (by rw [htail]; rfl)
  | case2 blank first ih => rw [List.cons_append, escapable, ih, Bool.and_false]
  | case3 blank first ih => rw [List.cons_append, List.cons_append, escapable, ih, Bool.and_false]
  | case4 blank first hother =>
    rw [List.cons_append, escapable]
    intro tail htail
    cases first with
    | nil => cases htail
    | cons c first =>
      cases htail
      exact hother first rfl
  | case5 blank c first hfeed hpair hreturn ih =>
    rw [List.cons_append, escapable, ih]
    · exact hfeed
    · intro tail hc _
      exact hreturn hc
    · exact hreturn

/-- The last line of a statement whose line ends can be escaped has no line ends. -/
theorem not_isLineEnd_of_escapable {first : List Char} {blank : Bool}
    (h : escapable blank (first ++ line) = true) (hline : '\n' ∉ line) :
    ∀ c ∈ line, ¬(c = '\n' ∨ c = '\r') := by
  rintro c hc (rfl | rfl)
  · exact hline hc
  · obtain ⟨a, b, rfl⟩ := List.append_of_mem hc
    have hb : b.head? ≠ some '\n' := by
      intro hhead
      obtain ⟨tail, rfl⟩ := List.head?_eq_some_iff.1 hhead
      exact hline (by simp)
    rw [← List.append_assoc, escapable_return hb] at h
    cases h

theorem blanked_line (h : ∀ c ∈ line, ¬(c = '\n' ∨ c = '\r')) :
    blanked false line = List.replicate (byteLength line) ' ' := by
  have hblanks : line.flatMap blankChar = List.replicate (byteLength line) ' ' := by
    induction line with
    | nil => rfl
    | cons c line ih =>
      obtain ⟨hc, hline⟩ := List.forall_mem_cons.1 h
      rw [List.flatMap_cons, ih hline, blankChar, if_neg hc, ← List.replicate_add, byteLength_cons]
  rw [blanked, if_neg Bool.false_ne_true, List.nil_append, hblanks]
  cases byteLength line with
  | zero => rfl
  | succ n => rw [List.replicate_succ', escapeLineEnds_replicate]; rfl

/-- The blanks of a line that starts outside all statements are the same. -/
theorem takeWhile_outside {text masked : List Char} {spans : List (Nat × Nat)}
    (hmasked : MaskedAs 0 text spans masked) {below above' below' : List Char}
    (htext : text = above ++ below) (hmask : masked = above' ++ below')
    (hlength : byteLength above' = byteLength above)
    (hout : ∀ span ∈ spans, byteLength above ≤ span.1 ∨ span.2 ≤ byteLength above) :
    below'.takeWhile isSpacing = below.takeWhile isSpacing := by
  have htext' : text = above ++ [] ++ below := by rwa [List.append_nil]
  obtain ⟨above₂, below₂, hmask₂, hlength₂, -, hsame⟩ := hmasked.apart htext' (by simpa using hout)
  rw [List.append_nil] at hmask₂
  obtain ⟨-, rfl⟩ :=
    append_inj_of_byteLength (hmask₂.symm.trans hmask) (hlength₂.trans hlength.symm)
  rcases hsame with rfl | ⟨gap, u, v, rfl, rfl, -, -⟩
  · rfl
  · rw [takeWhile_stop rfl, takeWhile_stop rfl]

section

variable {text masked : List Char} {spans : List (Nat × Nat)}
    (hmasked : MaskedAs 0 text spans masked)
  (hescapes : Escapes text spans)

include hmasked hescapes

/-- The blanks of a line that starts inside a statement are the same if the rest of the statement is
spaces. -/
theorem takeWhile_within {b above' below' : List Char} (htext : text = above ++ (line ++ b))
    (habove : StartsLine above) (hline : '\n' ∉ line) (hmask : masked = above' ++ below')
    (hlength : byteLength above' = byteLength above) {span : Nat × Nat} (hspan : span ∈ spans)
    (hfirst : span.1 < byteLength above) (hlast : byteLength above < span.2)
    (hcode : span.2 ≤ byteLength (above ++ line)) :
    below'.takeWhile isSpacing = (line ++ b).takeWhile isSpacing ↔
      ∀ c ∈ sliceBytes text (byteLength above) span.2, c = ' ' := by
  obtain ⟨first, inner, rest, tail, above₂, tail', rfl, hbelow, hstart, hstop, htail, hmask₂,
      hlength₂, hhead⟩ :=
    hmasked.within htext habove hspan (by rwa [Nat.zero_add]) (by rwa [Nat.zero_add])
  rw [Nat.zero_add] at hstart hstop
  obtain ⟨rfl, rfl⟩ :=
    append_inj_of_byteLength (hmask₂.symm.trans hmask) (hlength₂.trans hlength.symm)
  -- The statement ends before the code, so that the rest of it is part of the line.
  have hshort : byteLength rest ≤ byteLength line := by
    rw [← hstop, byteLength_append _ rest, byteLength_append _ line] at hcode
    omega
  obtain ⟨more, rfl, -⟩ := exists_append_of_byteLength_le hbelow.symm hshort
  have hfeed : '\n' ∉ rest := fun hmem => hline (List.mem_append_left _ hmem)
  have hslice : sliceBytes text (byteLength (first ++ inner)) span.2 = rest := by
    rw [htext, hbelow, ← hstop, ← List.append_assoc, sliceBytes_append]
  have hstatement : sliceBytes text span.1 span.2 = inner ++ rest := by
    rw [htext, hbelow, ← hstart, ← hstop, ← List.append_assoc, List.append_assoc first,
      sliceBytes_append]
  have hescapable := hescapes span hspan
  rw [hstatement] at hescapable
  have htail' : AtEnd tail' := by
    intro c hc
    rw [← hhead] at hc
    exact htail c hc
  rw [hslice, hbelow, blanked_line (not_isLineEnd_of_escapable hescapable hfeed),
    takeWhile_spaces (fun c hc => List.eq_of_mem_replicate hc) htail']
  refine ⟨fun h => ?_, fun h => ?_⟩
  · have hcut : (rest ++ tail).takeWhile isSpacing ++ (rest ++ tail).dropWhile isSpacing =
        rest ++ tail :=
      List.takeWhile_append_dropWhile
    rw [← h] at hcut
    obtain ⟨hrest, -⟩ := append_inj_of_byteLength hcut (byteLength_replicate_space _)
    rw [← hrest]
    exact fun c hc => List.eq_of_mem_replicate hc
  · rw [takeWhile_spaces h htail, ← eq_replicate_of_spaces h]

/-- The token that opens a block is seen in the mask as it is in the text if no more than spaces of
a statement stand on its line before its code. -/
theorem maskedView_indent_iff (htok : lexeme.tok = .indent) {code : Nat}
    (hstands : Stands [] text spans (.kept lexeme code)) :
    (PrintReading.kept lexeme code).maskedView masked (lines masked) =
        (PrintReading.kept lexeme code).view text (lines text) ↔
      BlankBefore text spans ((PrintReading.kept lexeme code).view text (lines text)) := by
  obtain ⟨a, word, b, htext, hplace, hapart⟩ := hstands
  rw [placeOf_mark (.inl htok)] at hplace
  obtain ⟨rfl, hword⟩ := Prod.mk.inj hplace
  rw [List.nil_append] at hword hapart ⊢
  obtain rfl := eq_nil_of_byteLength_le (Nat.le_of_eq hword.symm)
  obtain ⟨a', b', hmask, hlength, hfeeds, -⟩ := hmasked.apart htext (by simpa using hapart)
  rw [List.append_nil] at htext hmask hapart
  -- Both lines start at the same position.
  obtain ⟨above, line, rfl, habove, hline⟩ := exists_startsLine a
  obtain ⟨above', line', rfl, habove', hline'⟩ := exists_startsLine a'
  have hstarts : byteLength above' = byteLength above := by
    rw [byteLength_eq_lineStartOf habove' hline', byteLength_eq_lineStartOf habove hline, hfeeds]
  have hview : (PrintReading.kept lexeme (byteLength (above ++ line))).view text (lines text) =
      ⟨.indent, String.ofList ((line ++ b).takeWhile isSpacing), byteLength above⟩ := by
    rw [PrintReading.view, htext]
    exact view_indent htok habove hline b
  have hmaskedView : (PrintReading.kept lexeme (byteLength (above ++ line))).maskedView masked
    (lines masked) =
      ⟨.indent, String.ofList ((line' ++ b').takeWhile isSpacing), byteLength above⟩ := by
    rw [PrintReading.maskedView, hmask, ← hlength, ← hstarts]
    exact view_indent htok habove' hline' b'
  have hsame : (PrintReading.kept lexeme (byteLength (above ++ line))).maskedView masked
    (lines masked) =
        (PrintReading.kept lexeme (byteLength (above ++ line))).view text (lines text) ↔
      (line' ++ b').takeWhile isSpacing = (line ++ b).takeWhile isSpacing := by
    rw [hview, hmaskedView, TokenView.mk.injEq, String.ofList_inj]
    simp
  rw [List.append_assoc] at htext hmask
  have hinside : ∀ span ∈ spans, span.1 < byteLength above → byteLength above < span.2 →
      ((line' ++ b').takeWhile isSpacing = (line ++ b).takeWhile isSpacing ↔
        ∀ c ∈ sliceBytes text (byteLength above) span.2, c = ' ') := by
    intro span hspan hfirst hlast
    refine takeWhile_within hmasked hescapes htext habove hline hmask hstarts hspan hfirst hlast ?_
    rcases hapart span hspan with hle | hle
    · rw [byteLength_append] at hle
      omega
    · exact hle
  rw [hsame, hview]
  by_cases hsome : ∃ span ∈ spans, span.1 < byteLength above ∧ byteLength above < span.2
  · obtain ⟨span, hspan, hfirst, hlast⟩ := hsome
    refine ⟨fun h _ span hspan hfirst hlast => (hinside span hspan hfirst hlast).1 h, fun h => ?_⟩
    exact (hinside span hspan hfirst hlast).2 (h rfl span hspan hfirst hlast)
  · refine ⟨fun _ _ span hspan hfirst hlast => absurd ⟨span, hspan, hfirst, hlast⟩ hsome,
      fun _ => ?_⟩
    refine takeWhile_outside hmasked htext hmask hstarts fun span hspan => ?_
    by_contra hnot
    exact hsome ⟨span, hspan, by omega, by omega⟩

/-- When a token is seen in the mask as it is in the text. -/
theorem maskedView_eq_iff {reading : PrintReading} (hstands : Stands [] text spans reading) :
    reading.maskedView masked (lines masked) = reading.view text (lines text) ↔
      BlankBefore text spans (reading.view text (lines text)) := by
  cases reading with
  | pass start =>
    obtain ⟨stop, hspan⟩ := hstands
    obtain ⟨a, b, rfl, hstart⟩ := hmasked.pass_of_mem hspan
    have hplace : start = byteLength a := by
      rw [Nat.zero_add] at hstart
      exact hstart.symm
    subst hplace
    have hword : ¬(Tok.keyword "pass").IsBlockMark := by
      rintro (hmark | hmark) <;> cases hmark
    refine ⟨fun _ hindent => ?_, fun _ => ?_⟩
    · cases hindent
    rw [PrintReading.maskedView, view_word hword rfl (by rw [byteLength_append]; rfl)]
    rfl
  | kept lexeme code =>
    by_cases hindent : lexeme.tok = .indent
    · exact maskedView_indent_iff hmasked hescapes hindent hstands
    -- Any other token is seen in the same way.
    have hkind : ((PrintReading.kept lexeme code).view text (lines text)).kind ≠ .indent := by
      rw [PrintReading.view, Piece.view, kind_pieceOf]
      cases htok : lexeme.tok with
      | indent => exact absurd htok hindent
      | _ => simp [kindOf]
    refine ⟨fun _ h => absurd h hkind, fun _ => ?_⟩
    obtain ⟨a, word, b, htext, hplace, hapart⟩ := hstands
    rw [List.nil_append] at hplace hapart
    obtain ⟨a', b', hmask, hlength, -, -⟩ := hmasked.apart htext (by simpa using hapart)
    rw [PrintReading.maskedView, PrintReading.view, hmask, htext]
    by_cases hdedent : lexeme.tok = .dedent
    · rw [placeOf_mark (.inr hdedent)] at hplace
      obtain ⟨hcode, -⟩ := Prod.mk.inj hplace
      have hcode' : code = byteLength a' := hcode.trans hlength.symm
      rw [List.append_assoc, List.append_assoc]
      nth_rewrite 1 [hcode']
      rw [hcode, view_dedent hdedent, view_dedent hdedent, hlength]
    · have hword : ¬lexeme.tok.IsBlockMark := fun h => h.elim hindent hdedent
      rw [placeOf_word hword] at hplace
      obtain ⟨hstart, hstop⟩ := Prod.mk.inj hplace
      have hstop' : lexeme.stop = byteLength (a' ++ word) := by
        rw [hstop, byteLength_append, byteLength_append, hlength]
      rw [view_word hword hstart hstop, view_word hword (hstart.trans hlength.symm) hstop', hlength]

end

end PythonLint
