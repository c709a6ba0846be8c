import PythonLint.Proofs.Position
import PythonLint.Text.Lines

/-!
# Cutting a text into lines

A line feed cuts a text in two, and the lines of the text are those of its two parts. So a text that
ends with a line feed has as many lines as line feeds, and the line after it is the first line of
what follows.

Main statements: `lines_lineFeed`, `lines_append_lineFeed`, `length_lines_lineFeed`,
`count_lt_length_lines`, `getElem?_lines`, `exists_startsLine_of_getElem?`.
-/

namespace PythonLint.Text

variable {above line : List Char}

theorem segments_of_not_mem (h : '\n' ∉ line) : segments line = [line] := by
  induction line with
  | nil => rfl
  | cons c line ih =>
    rw [List.mem_cons, not_or] at h
    rw [segments, if_neg (Ne.symm h.1), ih h.2]

theorem segments_lineFeed (h : '\n' ∉ line) (rest : List Char) :
    segments (line ++ '\n' :: rest) = line :: segments rest := by
  induction line with
  | nil => rw [List.nil_append, segments, if_pos rfl]
  | cons c line ih =>
    rw [List.mem_cons, not_or] at h
    rw [List.cons_append, segments, if_neg (Ne.symm h.1), ih h.2]

theorem segments_ne_nil (text : List Char) : segments text ≠ [] := by
  cases text with
  | nil => exact List.cons_ne_nil _ _
  | cons c text =>
    rw [segments]
    split
    · exact List.cons_ne_nil _ _
    · split <;> exact List.cons_ne_nil _ _

theorem lines_lineFeed (h : '\n' ∉ line) (rest : List Char) :
    lines (line ++ '\n' :: rest) = dropReturn line :: lines rest := by
  obtain ⟨first, others, hrest⟩ := List.exists_cons_of_ne_nil (segments_ne_nil rest)
  rw [lines, segments_lineFeed h, hrest, linesOfSegments, lines, hrest]
  intro hnil
  cases hnil

theorem lines_of_not_mem (h : '\n' ∉ line) (hne : line ≠ []) : lines line = [line] := by
  rw [lines, segments_of_not_mem h, linesOfSegments, if_neg]
  simpa using hne

@[elab_as_elim]
theorem lines_induction {motive : List Char → Prop} (last : ∀ line, '\n' ∉ line → motive line)
    (line : ∀ line rest, '\n' ∉ line → motive rest → motive (line ++ '\n' :: rest))
    (text : List Char) : motive text := by
  induction hlength : text.length using Nat.strongRecOn generalizing text with
  | _ n ih =>
    by_cases hmem : '\n' ∈ text
    · obtain ⟨first, rest, rfl, hfirst⟩ := List.eq_append_cons_of_mem hmem
      refine line first rest hfirst (ih rest.length ?_ rest rfl)
      rw [← hlength, List.length_append, List.length_cons]
      omega
    · exact last text hmem

/-- A line feed cuts the lines of a text in two. -/
theorem lines_append_lineFeed (a b : List Char) :
    lines (a ++ '\n' :: b) = lines (a ++ ['\n']) ++ lines b := by
  induction a using lines_induction with
  | last a ha =>
    have hnil : lines [] = [] := rfl
    rw [lines_lineFeed ha, lines_lineFeed ha, hnil, List.singleton_append]
  | line first rest hfirst ih =>
    rw [List.append_assoc, List.append_assoc, List.cons_append, List.cons_append,
      lines_lineFeed hfirst, lines_lineFeed hfirst, ih, List.cons_append]

theorem count_lineFeed (h : '\n' ∉ line) (rest : List Char) :
    (line ++ '\n' :: rest).count '\n' = rest.count '\n' + 1 := by
  rw [List.count_append, List.count_cons_self, List.count_eq_zero_of_not_mem h, Nat.zero_add]

theorem length_lines_lineFeed (a : List Char) :
    (lines (a ++ ['\n'])).length = a.count '\n' + 1 := by
  induction a using lines_induction with
  | last a ha =>
    rw [lines_lineFeed ha, List.count_eq_zero_of_not_mem ha]
    rfl
  | line first rest hfirst ih =>
    rw [List.append_assoc, List.cons_append, lines_lineFeed hfirst, List.length_cons, ih,
      count_lineFeed hfirst]

theorem count_lt_length_lines (a : List Char) (c : Char) (b : List Char) :
    a.count '\n' < (lines (a ++ c :: b)).length := by
  induction a using lines_induction with
  | last a ha =>
    rw [List.count_eq_zero_of_not_mem ha]
    by_cases hmem : '\n' ∈ a ++ c :: b
    · obtain ⟨first, rest, htext, hfirst⟩ := List.eq_append_cons_of_mem hmem
      rw [htext, lines_lineFeed hfirst]
      exact Nat.succ_pos _
    · rw [lines_of_not_mem hmem (by simp)]
      exact Nat.one_pos
  | line first rest hfirst ih =>
    rw [List.append_assoc, List.cons_append, lines_lineFeed hfirst, List.length_cons,
      count_lineFeed hfirst]
    omega

end PythonLint.Text

namespace PythonLint

open Text

/-! ### The start of a physical line -/

/-- A place where a physical line starts. -/
def StartsLine (before : List Char) : Prop :=
  before = [] ∨ ∃ init, before = init ++ ['\n']

/-- Every place lies on a physical line, after some characters of it. -/
theorem exists_startsLine (before : List Char) :
    ∃ above line, before = above ++ line ∧ StartsLine above ∧ '\n' ∉ line := by
  rcases lastLine_cases before with h | ⟨above, line, rfl, hline⟩
  · exact ⟨[], before, rfl, .inl rfl, h⟩
  · exact ⟨above ++ ['\n'], line, by simp, .inr ⟨above, rfl⟩, hline⟩

theorem column_after (habove : StartsLine above) (hline : '\n' ∉ line) :
    (Location.origin.after (above ++ line)).column = line.length := by
  rcases habove with rfl | ⟨init, rfl⟩
  · rw [List.nil_append, Location.after_of_not_mem _ hline]
    exact Nat.zero_add _
  · rw [List.append_assoc, List.singleton_append, Location.after_lineFeed _ _ hline]

/-- The physical line of a place is the first line of what follows its start. -/
theorem getElem?_lines (habove : StartsLine above) (hline : '\n' ∉ line) (rest : List Char) :
    (lines (above ++ line ++ rest))[(Location.origin.after (above ++ line)).line - 1]? =
      (lines (line ++ rest)).head? := by
  rcases habove with rfl | ⟨init, rfl⟩
  · rw [List.nil_append, Location.after_of_not_mem _ hline, List.head?_eq_getElem?]
    rfl
  · have hcut := lines_append_lineFeed init (line ++ rest)
    have hlength := length_lines_lineFeed init
    have hplace : (Location.origin.after (init ++ ['\n'] ++ line)).line - 1 =
        (lines (init ++ ['\n'])).length := by
      rw [List.append_assoc, List.singleton_append, Location.after_lineFeed _ _ hline, hlength]
      change 1 + _ + 1 - 1 = _
      omega
    rw [hplace, List.append_assoc, List.append_assoc, List.singleton_append, hcut,
      List.getElem?_append_right
      (Nat.le_refl _), Nat.sub_self, List.head?_eq_getElem?]

theorem dropReturn_isPrefix (line : List Char) : dropReturn line <+: line := by
  unfold dropReturn
  split
  · exact List.dropLast_prefix line
  · exact List.prefix_refl line

theorem head?_lines_isPrefix (text : List Char) : (lines text).head?.getD [] <+: text := by
  by_cases hmem : '\n' ∈ text
  · obtain ⟨line, rest, rfl, hline⟩ := List.eq_append_cons_of_mem hmem
    rw [lines_lineFeed hline]
    exact (dropReturn_isPrefix line).trans (List.prefix_append line _)
  · by_cases hnil : text = []
    · rw [hnil]
      exact List.nil_prefix
    · rw [lines_of_not_mem hmem hnil]
      exact List.prefix_refl text

theorem StartsLine.append_lineFeed (h : StartsLine above) (first : List Char) :
    StartsLine (first ++ '\n' :: above) := by
  rcases h with rfl | ⟨init, rfl⟩
  · exact .inr ⟨first, rfl⟩
  · exact .inr ⟨first ++ '\n' :: init, by simp⟩

theorem StartsLine.after_eq (h : StartsLine above) :
    Location.origin.after above = ⟨above.count '\n' + 1, 0⟩ := by
  rcases h with rfl | ⟨init, rfl⟩
  · rfl
  · rw [Location.after_lineFeed _ _ (by simp), List.count_append, Location.mk.injEq]
    refine ⟨?_, rfl⟩
    change 1 + _ + 1 = _ + 1 + 1
    omega

/-- A line stands in its text after as many line feeds as there are lines before it. -/
theorem exists_startsLine_of_getElem? {text : List Char} {n : Nat}
    (h : (lines text)[n]? = some line) :
    ∃ above rest, text = above ++ line ++ rest ∧ StartsLine above ∧ above.count '\n' = n ∧
      '\n' ∉ line := by
  induction text using lines_induction generalizing n with
  | last text htext =>
    by_cases hnil : text = []
    · rw [hnil] at h
      cases h
    · rw [lines_of_not_mem htext hnil] at h
      cases n with
      | zero =>
        obtain rfl : text = line := Option.some.inj h
        exact ⟨[], [], by simp, .inl rfl, rfl, htext⟩
      | succ n => simp at h
  | line first rest hfirst ih =>
    rw [lines_lineFeed hfirst] at h
    cases n with
    | zero =>
      obtain rfl : dropReturn first = line := Option.some.inj h
      obtain ⟨ending, hending⟩ := dropReturn_isPrefix first
      refine ⟨[], ending ++ '\n' :: rest, ?_, .inl rfl, rfl, fun hmem => ?_⟩
      · rw [List.nil_append, ← List.append_assoc, hending]
      · exact hfirst ((dropReturn_isPrefix first).subset hmem)
    | succ n =>
      obtain ⟨above, after, rfl, habove, rfl, hline⟩ := ih (by simpa using h)
      refine ⟨first ++ '\n' :: above, after, by simp, habove.append_lineFeed first, ?_, hline⟩
      exact count_lineFeed hfirst above

end PythonLint
