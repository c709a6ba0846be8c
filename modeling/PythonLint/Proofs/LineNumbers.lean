import PythonLint.Check.LineLength
import PythonLint.Proofs.MixedMargins
import Mathlib.Data.List.DropRight

/-!
# Two ways to count lines

A position in bytes has a location, which counts the line feeds before it and the characters since
the last one. A text has a list of lines, without their ends. A character that is not part of a line
end stands in this list where its location says, and nothing else stands there. What the passes do
with the list keeps that: the physical lines and the lines of a statement lose blanks at their ends
only, and the pass over lines numbers them as locations do.

Main statements: `standsAt_iff`, `exists_mem_checkLines_iff`, `charAt?_logicalLine`,
`locationAt_names_line`.
-/

namespace PythonLint

open Text

variable {c : Char} {row start text : List Char} {here : Location}

/-- The character is part of a line end when `after` comes after it: a line feed, or a carriage
return right before one. -/
def IsLineEnd (c : Char) (after : List Char) : Prop :=
  c = '\n' ∨ c = '\r' ∧ after.head? = some '\n'

/-- The character stands at a position with the given location, and it is not part of a line end. -/
def StandsAt (text : List Char) (c : Char) (here : Location) : Prop :=
  ∃ before after, text = before ++ c :: after ∧ ¬IsLineEnd c after ∧
    locationAt text (byteLength before) = here

/-- The character at a location of a list of lines. -/
def charAt? (lines : List (List Char)) (here : Location) : Option Char :=
  if here.line = 0 then none else lines[here.line - 1]?.bind (·[here.column]?)

theorem not_isLineEnd_of_not_isBlank (h : isBlank c = false) (after : List Char) :
    ¬IsLineEnd c after := by
  rintro (rfl | ⟨rfl, -⟩)
  · cases h
  · cases h

theorem charAt?_eq_some_iff {lines : List (List Char)} :
    charAt? lines here = some c ↔
      1 ≤ here.line ∧ ∃ row, lines[here.line - 1]? = some row ∧ row[here.column]? = some c := by
  unfold charAt?
  split
  · next hzero => simp [hzero]
  · next hpos =>
    rw [Option.bind_eq_some_iff]
    exact ⟨fun h => ⟨by omega, h⟩, fun h => h.2⟩

/-! ### The lines of a text -/

theorem getElem?_dropReturn {more : List Char} (h : c = '\r' → more ≠ []) :
    (dropReturn (start ++ c :: more))[start.length]? = some c := by
  unfold dropReturn
  split
  · next hlast =>
    rcases List.eq_nil_or_concat' more with rfl | ⟨init, last, rfl⟩
    · have hc : c = '\r' := by simpa using hlast
      exact absurd rfl (h hc)
    · rw [← List.cons_append, ← List.append_assoc, List.dropLast_concat]
      simp
  · simp

/-- The first line of a text holds every character before the first line end. -/
theorem exists_head?_lines (hstart : '\n' ∉ start) {after : List Char} (hc : ¬IsLineEnd c after) :
    ∃ row, (lines (start ++ c :: after)).head? = some row ∧ row[start.length]? = some c := by
  have hfeed : c ≠ '\n' := fun h => hc (.inl h)
  have hline : ∀ more : List Char, '\n' ∉ more → '\n' ∉ start ++ c :: more := by
    intro more hmore
    simp [hstart, hmore, hfeed.symm]
  by_cases hmem : '\n' ∈ after
  · obtain ⟨more, rest, rfl, hmore⟩ := List.eq_append_cons_of_mem hmem
    have hassoc : start ++ c :: (more ++ '\n' :: rest) =
      start ++ c :: more ++ '\n' :: rest := by simp
    rw [hassoc, lines_lineFeed (hline more hmore)]
    refine ⟨_, rfl, getElem?_dropReturn ?_⟩
    rintro rfl rfl
    exact hc (.inr ⟨rfl, rfl⟩)
  · rw [lines_of_not_mem (hline after hmem) (by simp)]
    exact ⟨_, rfl, by simp⟩

/-- A line does not end with a carriage return that a line feed follows. -/
theorem not_isLineEnd_of_head?_lines {more rest : List Char} (hline : '\n' ∉ start ++ c :: more)
    (h : (lines (start ++ c :: more ++ rest)).head? = some (start ++ c :: more)) :
    ¬IsLineEnd c (more ++ rest) := by
  rintro (rfl | ⟨rfl, hfeed⟩)
  · exact hline (by simp)
  · cases more with
    | cons d more =>
      obtain rfl : d = '\n' := by simpa using hfeed
      exact hline (by simp)
    | nil =>
      obtain ⟨others, rfl⟩ : ∃ others, rest = '\n' :: others := by
        cases rest with
        | nil => cases hfeed
        | cons d others =>
          obtain rfl : d = '\n' := by simpa using hfeed
          exact ⟨others, rfl⟩
      rw [lines_lineFeed hline] at h
      simp [dropReturn] at h

/-- The location of a place in a line counts the lines above and the characters before it. -/
theorem locationAt_line {above : List Char} (habove : StartsLine above) (hstart : '\n' ∉ start)
    (rest : List Char) :
    locationAt (above ++ start ++ rest) (byteLength (above ++ start)) =
      ⟨above.count '\n' + 1, start.length⟩ := by
  rw [locationAt_append, Location.mk.injEq, column_after habove hstart, Location.after_line,
    List.count_append, List.count_eq_zero_of_not_mem hstart]
  refine ⟨?_, rfl⟩
  change 1 + _ = _
  omega

theorem exists_eq_append_cons {column : Nat} (h : row[column]? = some c) :
    ∃ start more, row = start ++ c :: more ∧ start.length = column := by
  obtain ⟨hbound, rfl⟩ := List.getElem?_eq_some_iff.1 h
  exact ⟨row.take column, row.drop (column + 1), by simp, by simp; omega⟩

/-- The location of a character is its place in the list of lines. -/
theorem standsAt_iff : StandsAt text c here ↔ charAt? (lines text) here = some c := by
  rw [charAt?_eq_some_iff]
  constructor
  · rintro ⟨before, after, rfl, hc, rfl⟩
    obtain ⟨above, start, rfl, habove, hstart⟩ := exists_startsLine before
    obtain ⟨line, hline, hget⟩ := exists_head?_lines hstart hc
    have hlines := getElem?_lines habove hstart (c :: after)
    rw [← locationAt_append _ (c :: after), locationAt_line habove hstart] at hlines
    rw [locationAt_line habove hstart]
    exact ⟨Nat.succ_pos _, line, hlines.trans hline, hget⟩
  · rintro ⟨hpos, line, hline, hget⟩
    obtain ⟨above, rest, rfl, habove, hcount, hfeed⟩ := exists_startsLine_of_getElem? hline
    obtain ⟨start, more, rfl, hlength⟩ := exists_eq_append_cons hget
    have hstart : '\n' ∉ start := fun hmem => hfeed (List.mem_append_left _ hmem)
    have hfirst := getElem?_lines habove (show '\n' ∉ [] by simp) (start ++ c :: more ++ rest)
    rw [List.append_nil, List.nil_append, habove.after_eq, hcount, Nat.add_sub_cancel,
      ← List.append_assoc, hline] at hfirst
    refine ⟨above ++ start, more ++ rest, by simp,
      not_isLineEnd_of_head?_lines hfeed hfirst.symm, ?_⟩
    have hsplit : above ++ (start ++ c :: more) ++ rest =
      above ++ start ++ (c :: more ++ rest) := by simp
    rw [hsplit, locationAt_line habove hstart, hcount, hlength, Location.mk.injEq]
    exact ⟨Nat.sub_add_cancel hpos, rfl⟩

/-! ### Lines without the blanks at their ends -/

theorem trimEnd_isPrefix (line : List Char) : trimEnd line <+: line :=
  List.rdropWhile_prefix isBlank line

/-- Only blanks are cut off at the end of a line. -/
theorem getElem?_trimEnd (hc : isBlank c = false) {column : Nat} :
    (trimEnd row)[column]? = some c ↔ row[column]? = some c := by
  constructor
  · intro h
    obtain ⟨blanks, hblanks⟩ := trimEnd_isPrefix row
    rw [← hblanks, List.getElem?_append_left (List.getElem?_eq_some_iff.1 h).1, h]
  · intro h
    obtain ⟨start, more, rfl, rfl⟩ := exists_eq_append_cons h
    rw [trimEnd_append_cons start hc]
    simp

/-- The physical lines hold all but blanks where the lines of the text hold it. -/
theorem charAt?_physicalLines (hc : isBlank c = false) :
    charAt? ((physicalLines text).map String.toList) here = some c ↔
    charAt? (lines text) here = some c := by
  simp only [charAt?_eq_some_iff, physicalLines, List.map_map, List.getElem?_map,
    Option.map_eq_some_iff]
  refine and_congr_right fun _ => ⟨?_, ?_⟩
  · rintro ⟨_, ⟨line, hline, rfl⟩, hget⟩
    exact ⟨line, hline, (getElem?_trimEnd hc).1 (by simpa using hget)⟩
  · rintro ⟨line, hline, hget⟩
    exact ⟨_, ⟨line, hline, rfl⟩, by simpa using (getElem?_trimEnd hc).2 hget⟩

/-! ### Long lines -/

/-- The pass over lines counts them from the given number on. -/
theorem mem_longLinesFrom_iff {file : String} {number : Nat} {lines : List (List Char)}
    {warning : Warning} :
    warning ∈ longLinesFrom file number lines ↔
      ∃ n line, lines[n]? = some line ∧ maxLineLength < (trimEnd line).length ∧
        warning = longLine file (number + n) line := by
  induction lines generalizing number with
  | nil => simp [longLinesFrom]
  | cons first rest ih =>
    have hothers : warning ∈ longLinesFrom file (number + 1) rest ↔
        ∃ n line, (first :: rest)[n + 1]? = some line ∧ maxLineLength < (trimEnd line).length ∧
          warning = longLine file (number + (n + 1)) line := by
      simp only [ih, List.getElem?_cons_succ, Nat.add_assoc, Nat.add_comm 1]
    rw [longLinesFrom]
    constructor
    · intro hmem
      have hcases : maxLineLength < (trimEnd first).length ∧ warning = longLine file number first ∨
          warning ∈ longLinesFrom file (number + 1) rest := by
        split at hmem
        · next hlong =>
          exact (List.mem_cons.1 hmem).imp_left fun h => ⟨hlong, h⟩
        · exact .inr hmem
      rcases hcases with ⟨hlong, rfl⟩ | hmem
      · exact ⟨0, first, rfl, hlong, rfl⟩
      · obtain ⟨n, line, h⟩ := hothers.1 hmem
        exact ⟨n + 1, line, h⟩
    · rintro ⟨n, line, hline, hlong, rfl⟩
      cases n with
      | zero =>
        obtain rfl : first = line := by simpa using hline
        rw [if_pos hlong]
        exact List.mem_cons_self
      | succ n =>
        have hmem := hothers.2 ⟨n, line, hline, hlong, rfl⟩
        split
        · exact List.mem_cons_of_mem _ hmem
        · exact hmem

/-- A line is longer than it may be when something other than a blank stands past the last column
allowed. -/
theorem maxLineLength_lt_iff :
    maxLineLength < (trimEnd row).length ↔
      ∃ c column, isBlank c = false ∧ maxLineLength ≤ column ∧ row[column]? = some c := by
  constructor
  · intro hlong
    have hne : trimEnd row ≠ [] := List.length_pos_iff.1 (Nat.zero_lt_of_lt hlong)
    have hlast : isBlank ((trimEnd row).getLast hne) = false :=
      Bool.eq_false_iff.2 (List.rdropWhile_last_not isBlank row hne)
    refine ⟨_, (trimEnd row).length - 1, hlast, by omega, (getElem?_trimEnd hlast).1 ?_⟩
    rw [← List.getLast?_eq_getElem?, List.getLast?_eq_getLast_of_ne_nil hne]
  · rintro ⟨c, column, hc, hle, hget⟩
    exact Nat.lt_of_le_of_lt hle (List.getElem?_eq_some_iff.1 ((getElem?_trimEnd hc).2 hget)).1

/-- The pass over lines warns about the lines that hold something other than a blank too far to the
right. -/
theorem exists_mem_checkLines_iff {file : String} {number : Nat} :
    (∃ warning ∈ checkLines file text, warning.start.line = number) ↔
      ∃ c column, isBlank c = false ∧ maxLineLength ≤ column ∧
        StandsAt text c ⟨number, column⟩ := by
  simp only [checkLines, mem_longLinesFrom_iff, standsAt_iff, charAt?_eq_some_iff,
    maxLineLength_lt_iff]
  constructor
  · rintro ⟨_, ⟨n, line, hline, ⟨c, column, hc, hle, hget⟩, rfl⟩, rfl⟩
    refine ⟨c, column, hc, hle, Nat.le_add_right 1 n, line, ?_, hget⟩
    rw [show (longLine file (1 + n) line).start.line - 1 = n from Nat.add_sub_cancel_left 1 n]
    exact hline
  · rintro ⟨c, column, hc, hle, hpos, line, hline, hget⟩
    exact ⟨_, ⟨number - 1, line, hline, ⟨c, column, hc, hle, hget⟩, rfl⟩, Nat.add_sub_cancel' hpos⟩

/-! ### The lines of a statement -/

/-- Lines that are joined stand one below the other. -/
theorem exists_startsLine_of_unlines {lines : List (List Char)}
    (hlines : ∀ line ∈ lines, '\n' ∉ line) {n : Nat} {line : List Char}
    (h : lines[n]? = some line) :
    ∃ above rest, unlines lines = above ++ line ++ rest ∧ StartsLine above ∧
      above.count '\n' = n := by
  induction lines generalizing n with
  | nil => cases h
  | cons first others ih =>
    obtain ⟨hfirst, hothers⟩ := List.forall_mem_cons.1 hlines
    cases n with
    | zero =>
      obtain rfl : first = line := by simpa using h
      cases others with
      | nil => exact ⟨[], [], by simp [unlines], .inl rfl, rfl⟩
      | cons second others => exact ⟨[], '\n' :: unlines (second :: others), rfl, .inl rfl, rfl⟩
    | succ n =>
      obtain ⟨above, rest, hjoined, habove, hcount⟩ := ih hothers (by simpa using h)
      cases others with
      | nil => simp at h
      | cons second others =>
        refine ⟨first ++ '\n' :: above, rest, ?_, habove.append_lineFeed first, ?_⟩
        · rw [unlines, hjoined]
          · simp
          · simp
        · rw [count_lineFeed hfirst, hcount]

/-- What is not a blank stands in the text of its statement as far below the first line as in the
source. -/
theorem charAt?_logicalLine {token : Token} (hmem : token ∈ (tokenize text).tokens)
    (hc : isBlank c = false) (hin : here.line ∈ token.range) (h : StandsAt text c here) :
    charAt? (lines token.logicalLine.toList) ⟨here.line + 1 - token.range.first, here.column⟩ =
      some c := by
  obtain ⟨hfirst, -⟩ := proper_of_mem_tokenize hmem
  obtain ⟨hpos, line, hline, hget⟩ := charAt?_eq_some_iff.1 (standsAt_iff.1 h)
  obtain ⟨hge, hle⟩ := LineRange.mem_iff.1 hin
  have hpicked : (((lines text).take token.range.last).drop (token.range.first - 1))[here.line -
    token.range.first]? =
      some line := by
    rw [List.getElem?_drop, List.getElem?_take_of_lt (by omega), ← hline]
    congr 1
    omega
  have hfeeds : ∀ line ∈ ((lines text).take token.range.last).drop (token.range.first - 1),
      '\n' ∉ line := by
    intro line hmem
    obtain ⟨n, hn⟩ := List.mem_iff_getElem?.1 (List.mem_of_mem_take (List.mem_of_mem_drop hmem))
    obtain ⟨_, _, -, -, -, hfeed⟩ := exists_startsLine_of_getElem? hn
    exact hfeed
  obtain ⟨above, rest, hjoined, habove, hcount⟩ := exists_startsLine_of_unlines hfeeds hpicked
  have hfeed := hfeeds line (List.mem_of_getElem? hpicked)
  obtain ⟨start, more, rfl, hlength⟩ := exists_eq_append_cons hget
  have hstart : '\n' ∉ start := fun hmem => hfeed (List.mem_append_left _ hmem)
  -- Nothing that is cut off at the end of the text stands before the character.
  have htext : token.logicalLine.toList = above ++ start ++ c :: trimEnd (more ++ rest) := by
    have hsplit : above ++ (start ++ c :: more) ++ rest =
      above ++ start ++ c :: (more ++ rest) := by simp
    rw [LineMap.logicalLine_of_mem_tokenize hmem, logicalText, String.toList_ofList,
      hjoined, hsplit, trimEnd_append_cons _ hc]
  rw [← standsAt_iff]
  refine ⟨above ++ start, _, htext, not_isLineEnd_of_not_isBlank hc _, ?_⟩
  rw [htext, locationAt_line habove hstart, hcount, hlength, Location.mk.injEq]
  exact ⟨by omega, rfl⟩

/-! ### The same lines -/

/-- A character that is not part of a line end stands in the list of lines at the line and column of
its position, and the list holds no others. The physical lines, the numbers of long lines and the
texts of statements go by the same lines, up to blanks at their ends. -/
theorem locationAt_names_line (text : List Char) :
    (∀ before c after, text = before ++ c :: after → ¬IsLineEnd c after →
      (locationAt text (byteLength before)).line ≤ (lines text).length ∧
        charAt? (lines text) (locationAt text (byteLength before)) = some c) ∧
    (∀ here c, charAt? (lines text) here = some c ↔ StandsAt text c here) ∧
    (∀ here c, isBlank c = false →
      (charAt? ((physicalLines text).map String.toList) here = some c ↔ StandsAt text c here)) ∧
    (∀ file number, (∃ warning ∈ checkLines file text, warning.start.line = number) ↔
      ∃ c column, isBlank c = false ∧ 79 ≤ column ∧ StandsAt text c ⟨number, column⟩) ∧
    ∀ token ∈ (tokenize text).tokens, ∀ here c, isBlank c = false → here.line ∈ token.range →
      StandsAt text c here →
      charAt? (lines token.logicalLine.toList) ⟨here.line + 1 - token.range.first, here.column⟩ =
        some c := by
  refine ⟨fun before c after htext hc => ?_, fun here c => standsAt_iff.symm,
    fun here c hc => (charAt?_physicalLines hc).trans standsAt_iff.symm,
    fun file number => exists_mem_checkLines_iff,
    fun token hmem here c hc hin hstands => charAt?_logicalLine hmem hc hin hstands⟩
  have hfound := standsAt_iff.1 ⟨before, after, htext, hc, rfl⟩
  obtain ⟨hpos, line, hline, -⟩ := charAt?_eq_some_iff.1 hfound
  have hbound := (List.getElem?_eq_some_iff.1 hline).1
  exact ⟨by omega, hfound⟩

/-- A carriage return that does not end its line, after a character of two bytes, and a statement of
two lines, the last of which has no end. -/
theorem locationAt_names_line_returns :
    let text := "é\r\r\n\nb = (\n  1)\r".toList
    (¬IsLineEnd '\r' "\r\n\nb = (\n  1)\r".toList ∧ isBlank '1' = false ∧
      StandsAt text '1' ⟨4, 2⟩) ∧
      locationAt text 2 = ⟨1, 1⟩ ∧ charAt? (lines text) ⟨1, 1⟩ = some '\r' ∧
      charAt? ((physicalLines text).map String.toList) ⟨4, 2⟩ = some '1' ∧
      ∃ token ∈ (tokenize text).tokens, token.range = ⟨3, 4⟩ ∧
        charAt? (lines token.logicalLine.toList) ⟨2, 2⟩ = some '1' := by
  intro text
  obtain ⟨hnames, hlines, hphysical, -, htokens⟩ := locationAt_names_line text
  have hinner : ¬IsLineEnd '\r' "\r\n\nb = (\n  1)\r".toList := by simp [IsLineEnd]
  have hstands : StandsAt text '1' ⟨4, 2⟩ := (hlines _ _).1 (by decide)
  have hfound := (hnames ['é'] '\r' _ (by decide) hinner).2
  have hplace : locationAt text 2 = ⟨1, 1⟩ := by decide
  obtain ⟨token, hmem, hrange⟩ : ∃ token ∈ (tokenize text).tokens, token.range = ⟨3, 4⟩ := by
    simpa using (by decide +kernel : (tokenize text).tokens.any
      (fun token => token.range = ⟨3, 4⟩) = true)
  have hin : (⟨4, 2⟩ : Location).line ∈ token.range := by
    rw [hrange]
    decide
  have hstatement := htokens token hmem ⟨4, 2⟩ '1' (by decide) hin hstands
  rw [hrange] at hstatement
  exact ⟨⟨hinner, by decide, hstands⟩, hplace, hplace ▸ hfound,
    (hphysical _ _ (by decide)).2 hstands, token, hmem, hrange, hstatement⟩

end PythonLint
