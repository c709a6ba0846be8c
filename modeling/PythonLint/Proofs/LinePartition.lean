import PythonLint.LogicalLine
import PythonLint.Token.Stream
import Mathlib.Data.List.Pairwise

/-!
# Logical lines split the physical lines

The logical lines of a line map are its statements and, for every physical line that no statement
covers, that line alone. When the tokens that the map is made of carry proper ranges, every physical
line lies on exactly one of them: a statement is only taken when it starts after all lines that are
covered already, so that statements stand in order and apart, and a range that runs past the last
line is cut there. The slot of a line then leads to the statement that covers it, or to the line
alone.

Main statements: `LineMap.ordered_ofTokens`, `LineMap.Ordered.get?_eq_some_iff`,
`LineMap.get?_ofTokens`, `LineMap.text_of_mem_logicalLines`.
-/

namespace PythonLint

open Text

variable {map : LineMap} {logical : LogicalLine} {line : Nat}

/-- The range covers at least one line, counted from one. -/
def LineRange.Proper (range : LineRange) : Prop :=
  1 ≤ range.first ∧ range.first ≤ range.last

instance (range : LineRange) : Decidable range.Proper :=
  inferInstanceAs (Decidable (_ ∧ _))

/-- No line belongs to both ranges. -/
def LineRange.Disjoint (a b : LineRange) : Prop :=
  ∀ line ∈ a, line ∉ b

namespace LineRange

theorem mem_iff {range : LineRange} : line ∈ range ↔ range.first ≤ line ∧ line ≤ range.last :=
  Iff.rfl

theorem mem_single {other : Nat} : other ∈ (⟨line, line⟩ : LineRange) ↔ other = line := by
  rw [mem_iff]
  exact ⟨fun h => Nat.le_antisymm h.2 h.1, fun h => by simp [h]⟩

theorem Disjoint.symm {a b : LineRange} (h : a.Disjoint b) : b.Disjoint a :=
  fun line hb ha => h line ha hb

theorem disjoint_of_lt {a b : LineRange} (h : a.last < b.first) : a.Disjoint b := by
  intro line ha hb
  rw [mem_iff] at ha hb
  omega

end LineRange

/-! ### Statements -/

section Statements

variable {count covered : Nat} {tokens : List Token}

/-- All statements start after the lines that are covered already, and end on a line that exists. -/
theorem range_of_mem_statementsFrom (htokens : ∀ token ∈ tokens, token.range.Proper)
    (h : logical ∈ statementsFrom count covered tokens) :
    covered < logical.range.first ∧ logical.range.first ≤ logical.range.last ∧
      logical.range.last ≤ count := by
  induction tokens generalizing covered with
  | nil => cases h
  | cons token tokens ih =>
    have hproper := htokens token List.mem_cons_self
    have hrest : ∀ other ∈ tokens, other.range.Proper :=
      fun other hmem => htokens other (List.mem_cons_of_mem _ hmem)
    rw [statementsFrom] at h
    split at h
    · next hstarts =>
      rcases List.mem_cons.1 h with rfl | hlater
      · refine ⟨hstarts.1, ?_, Nat.min_le_right _ _⟩
        exact Nat.le_min.2 ⟨hproper.2, hstarts.2⟩
      · obtain ⟨hfirst, hlast⟩ := ih hrest hlater
        have hcovered := hstarts.1
        have := hproper.2
        exact ⟨by omega, hlast⟩
    · exact ih hrest h

theorem pairwise_statementsFrom (htokens : ∀ token ∈ tokens, token.range.Proper) :
    (statementsFrom count covered tokens).Pairwise fun a b => a.range.last < b.range.first := by
  induction tokens generalizing covered with
  | nil => exact .nil
  | cons token tokens ih =>
    have hrest : ∀ other ∈ tokens, other.range.Proper :=
      fun other hmem => htokens other (List.mem_cons_of_mem _ hmem)
    rw [statementsFrom]
    split
    · refine List.pairwise_cons.2 ⟨fun later hmem => ?_, ih hrest⟩
      -- The cut at the last line only makes the range shorter than what counts as covered.
      have hcovered := (range_of_mem_statementsFrom hrest hmem).1
      exact Nat.lt_of_le_of_lt (Nat.min_le_left _ _) hcovered
    · exact ih hrest

/-- The text of a statement is that of a token, whose range it has up to the cut. -/
theorem exists_token_of_mem_statementsFrom (h : logical ∈ statementsFrom count covered tokens) :
    ∃ token ∈ tokens, logical.range = ⟨token.range.first, min token.range.last count⟩ ∧
      logical.text = token.logicalLine := by
  induction tokens generalizing covered with
  | nil => cases h
  | cons token tokens ih =>
    rw [statementsFrom] at h
    split at h
    · rcases List.mem_cons.1 h with rfl | hlater
      · exact ⟨token, List.mem_cons_self, rfl, rfl⟩
      · obtain ⟨other, hmem, hother⟩ := ih hlater
        exact ⟨other, List.mem_cons_of_mem _ hmem, hother⟩
    · obtain ⟨other, hmem, hother⟩ := ih h
      exact ⟨other, List.mem_cons_of_mem _ hmem, hother⟩

end Statements

namespace LineMap

/-! ### Lines without a statement -/

/-- A line that no statement covers, as a logical line of its own. -/
def IsLone (physical : List String) (statements : List LogicalLine) (logical : LogicalLine) :
    Prop :=
  ∃ n, physical[n]? = some logical.text ∧ logical.range = ⟨n + 1, n + 1⟩ ∧
    ∀ statement ∈ statements, n + 1 ∉ statement.range

theorem mem_fillSlots_iff {rows : List (String × Option Nat)} {next : Nat} :
    logical ∈ (fillSlots next line rows).1 ↔
      ∃ n, rows[n]? = some (logical.text, none) ∧ logical.range = ⟨line + n, line + n⟩ := by
  induction rows generalizing next line with
  | nil => exact ⟨fun h => absurd h List.not_mem_nil, fun ⟨_, h, _⟩ => by cases h⟩
  | cons row rest ih =>
    have hlater : ∀ {n}, (⟨line + 1 + n, line + 1 + n⟩ : LineRange) =
        ⟨line + (n + 1), line + (n + 1)⟩ := fun {n} => by rw [Nat.add_right_comm, Nat.add_assoc]
    obtain ⟨text, slot | index⟩ := row
    · rw [fillSlots, List.mem_cons, ih]
      constructor
      · rintro (rfl | ⟨n, hrow, hrange⟩)
        · exact ⟨0, rfl, rfl⟩
        · exact ⟨n + 1, hrow, hrange.trans hlater⟩
      · rintro ⟨_ | n, hrow, hrange⟩
        · obtain ⟨range, text⟩ := logical
          cases hrow
          cases hrange
          exact .inl rfl
        · exact .inr ⟨n, hrow, hrange.trans hlater.symm⟩
    · rw [fillSlots, ih]
      constructor
      · exact fun ⟨n, hrow, hrange⟩ => ⟨n + 1, hrow, hrange.trans hlater⟩
      · rintro ⟨_ | n, hrow, hrange⟩
        · cases hrow
        · exact ⟨n, hrow, hrange.trans hlater.symm⟩

/-- The lines alone stand in order. -/
theorem pairwise_fillSlots {rows : List (String × Option Nat)} {next : Nat} :
    (fillSlots next line rows).1.Pairwise fun a b => a.range.last < b.range.first := by
  induction rows generalizing next line with
  | nil => exact .nil
  | cons row rest ih =>
    obtain ⟨text, slot | index⟩ := row
    · refine List.pairwise_cons.2 ⟨fun later hmem => ?_, ih⟩
      obtain ⟨n, -, hrange⟩ := mem_fillSlots_iff.1 hmem
      rw [hrange]
      exact Nat.lt_of_lt_of_le (Nat.lt_succ_self line) (Nat.le_add_right _ n)
    · exact ih

/-- The slots of the lines that no statement covers stay empty. -/
theorem mem_fillSlots_rowsOf_iff {physical : List String} {statements : List LogicalLine}
    {next : Nat} :
    logical ∈ (fillSlots next 1 (rowsOf physical statements)).1 ↔
    IsLone physical statements logical := by
  rw [mem_fillSlots_iff]
  refine exists_congr fun n => ?_
  by_cases hn : n < physical.length
  · obtain ⟨slot, hrow, hslot⟩ := getElem?_rowsOf hn statements
    rw [hrow, List.getElem?_eq_getElem hn, Nat.add_comm 1 n, Option.some.injEq, Option.some.injEq,
      Prod.mk.injEq, and_assoc, and_congr_right_iff, and_comm]
    refine fun _ => and_congr_right fun _ => ?_
    rcases hslot with ⟨rfl, hfree⟩ | ⟨k, statement, rfl, hstatement, hin⟩
    · exact iff_of_true rfl hfree
    · exact iff_of_false nofun fun hfree => hfree statement (List.mem_of_getElem? hstatement) hin
  · have hrow : (rowsOf physical statements)[n]? = none := by
      rw [rowsOf, List.getElem?_eq_none_iff, List.length_zip]
      omega
    rw [hrow, List.getElem?_eq_none (Nat.le_of_not_lt hn)]
    exact iff_of_false nofun nofun

/-- A logical line is a statement, or the only line of a range that no statement covers. -/
theorem mem_logicalLines_ofStatements_iff {physical : List String} {statements : List LogicalLine} :
    logical ∈ (ofStatements physical statements).logicalLines ↔
      logical ∈ statements ∨ IsLone physical statements logical := by
  rw [ofStatements, List.mem_append, mem_fillSlots_rowsOf_iff]

/-! ### Ordered maps -/

/-- The logical lines of a map stand on lines that exist, and no line belongs to two of them. -/
structure Ordered (map : LineMap) : Prop where
  within : ∀ logical ∈ map.logicalLines,
    logical.range.Proper ∧ logical.range.last ≤ map.physical.length
  disjoint : map.logicalLines.Pairwise fun a b => a.range.Disjoint b.range

/-- The map of statements that stand in order and apart, on lines that exist. -/
theorem ordered_ofStatements {physical : List String} {statements : List LogicalLine}
    (hwithin : ∀ logical ∈ statements, logical.range.Proper ∧ logical.range.last ≤ physical.length)
    (hapart : statements.Pairwise fun a b => a.range.last < b.range.first) :
    (ofStatements physical statements).Ordered where
  within logical hmem := by
    rcases mem_logicalLines_ofStatements_iff.1 hmem with hstatement | ⟨n, htext, hrange, -⟩
    · exact hwithin logical hstatement
    · rw [hrange]
      exact ⟨⟨Nat.le_add_left 1 n, Nat.le_refl _⟩, (List.getElem?_eq_some_iff.1 htext).1⟩
  disjoint := by
    refine List.pairwise_append.2 ⟨hapart.imp LineRange.disjoint_of_lt,
      pairwise_fillSlots.imp LineRange.disjoint_of_lt, fun statement hstatement lone hlone => ?_⟩
    obtain ⟨n, -, hrange, hfree⟩ := mem_fillSlots_rowsOf_iff.1 hlone
    intro both hin hboth
    rw [hrange, LineRange.mem_single] at hboth
    exact hfree statement hstatement (hboth ▸ hin)

/-- The statements of tokens with proper ranges stand in order and apart. -/
theorem ordered_ofTokens (physical : List String) {tokens : List Token}
    (htokens : ∀ token ∈ tokens, token.range.Proper) : (ofTokens physical tokens).Ordered := by
  refine ordered_ofStatements (fun logical hmem => ?_) (pairwise_statementsFrom htokens)
  obtain ⟨hfirst, hproper, hlast⟩ := range_of_mem_statementsFrom htokens hmem
  exact ⟨⟨hfirst, hproper⟩, hlast⟩

/-! ### Lookups -/

theorem physical?_eq_some_iff {text : String} :
    map.physical? line = some text ↔ 1 ≤ line ∧ map.physical[line - 1]? = some text := by
  cases line with
  | zero => simp [physical?]
  | succ n => simp [physical?]

theorem exists_physical? (hfirst : 1 ≤ line) (hlast : line ≤ map.physical.length) :
    ∃ text, map.physical? line = some text := by
  have hbound : line - 1 < map.physical.length := by omega
  exact ⟨map.physical[line - 1], physical?_eq_some_iff.2 ⟨hfirst, List.getElem?_eq_getElem hbound⟩⟩

/-- The slot of a line that exists leads to a logical line that holds it. -/
theorem exists_get? (hfirst : 1 ≤ line) (hlast : line ≤ map.physical.length) :
    ∃ logical, map.get? line = some logical := by
  obtain ⟨n, rfl⟩ := Nat.exists_eq_add_of_le' hfirst
  obtain ⟨index, logical, hslot, hlogical, -⟩ := map.covers n hlast
  exact ⟨logical, by rw [get?, hslot, Option.bind_some, hlogical]⟩

theorem mem_of_get? (hget : map.get? line = some logical) :
    logical ∈ map.logicalLines ∧ line ∈ logical.range := by
  cases line with
  | zero => cases hget
  | succ n =>
    obtain ⟨index, hslot, hlogical⟩ := Option.bind_eq_some_iff.1 hget
    have hn : n < map.physical.length := by
      rw [← map.length_slots]
      exact (List.getElem?_eq_some_iff.1 hslot).1
    obtain ⟨index', other, hslot', hother, hin⟩ := map.covers n hn
    rw [hslot, Option.some.injEq] at hslot'
    rw [← hslot', hlogical, Option.some.injEq] at hother
    exact ⟨List.mem_of_getElem? hlogical, hother ▸ hin⟩

theorem mem_rangeOf (map : LineMap) (line : Nat) : line ∈ map.rangeOf line := by
  rw [rangeOf]
  cases hget : map.get? line with
  | none => exact LineRange.mem_single.2 rfl
  | some logical => exact (mem_of_get? hget).2

namespace Ordered

variable {map : LineMap}

theorem eq_of_mem (h : map.Ordered) {a b : LogicalLine} (ha : a ∈ map.logicalLines)
    (hb : b ∈ map.logicalLines) (hina : line ∈ a.range) (hinb : line ∈ b.range) : a = b := by
  by_contra hne
  have hsymm : Std.Symm fun a b : LogicalLine => a.range.Disjoint b.range :=
    ⟨fun _ _ hab => hab.symm⟩
  exact h.disjoint.forall ha hb hne line hina hinb

theorem le_of_mem_range (h : map.Ordered) (hmem : logical ∈ map.logicalLines)
    (hin : line ∈ logical.range) : 1 ≤ line ∧ line ≤ map.physical.length := by
  obtain ⟨⟨hfirst, -⟩, hlast⟩ := h.within logical hmem
  rw [LineRange.mem_iff] at hin
  omega

/-- Looking up a line finds the logical line that holds it. -/
theorem get?_eq_some_iff (h : map.Ordered) :
    map.get? line = some logical ↔ logical ∈ map.logicalLines ∧ line ∈ logical.range := by
  refine ⟨mem_of_get?, fun ⟨hmem, hin⟩ => ?_⟩
  obtain ⟨hfirst, hlast⟩ := h.le_of_mem_range hmem hin
  obtain ⟨other, hfound⟩ := exists_get? hfirst hlast
  obtain ⟨hother, hholds⟩ := mem_of_get? hfound
  rw [hfound, h.eq_of_mem hother hmem hholds hin]

theorem rangeOf_eq (h : map.Ordered) (hmem : logical ∈ map.logicalLines)
    (hin : line ∈ logical.range) : map.rangeOf line = logical.range := by
  rw [rangeOf, h.get?_eq_some_iff.2 ⟨hmem, hin⟩]
  rfl

/-- Every line that exists belongs to exactly one logical line. -/
theorem existsUnique_logicalLine (h : map.Ordered) (hfirst : 1 ≤ line)
    (hlast : line ≤ map.physical.length) :
    ∃! logical, logical ∈ map.logicalLines ∧ line ∈ logical.range := by
  obtain ⟨logical, hfound⟩ := exists_get? hfirst hlast
  refine ⟨logical, mem_of_get? hfound, fun other hother => ?_⟩
  have hsame := h.get?_eq_some_iff.2 hother
  rw [hfound, Option.some.injEq] at hsame
  exact hsame.symm

end Ordered

/-- The logical lines of a map split its physical lines. -/
structure SplitsLines (map : LineMap) : Prop where
  /-- A logical line covers no line but those that exist. -/
  inBounds : ∀ logical ∈ map.logicalLines, ∀ line ∈ logical.range,
    1 ≤ line ∧ line ≤ map.physical.length
  /-- Every line belongs to exactly one logical line. -/
  existsUnique : ∀ line, 1 ≤ line → line ≤ map.physical.length →
    ∃! logical, logical ∈ map.logicalLines ∧ line ∈ logical.range
  found : ∀ line logical,
    map.get? line = some logical ↔ logical ∈ map.logicalLines ∧ line ∈ logical.range
  /-- The range of a line holds the line and no lines but those that exist, and it is the range of
  all lines that it holds. -/
  range : ∀ line, 1 ≤ line → line ≤ map.physical.length →
    line ∈ map.rangeOf line ∧ 1 ≤ (map.rangeOf line).first ∧
      (map.rangeOf line).last ≤ map.physical.length ∧
      ∀ other ∈ map.rangeOf line, map.rangeOf other = map.rangeOf line
  disjoint : map.logicalLines.Pairwise fun a b => a.range.Disjoint b.range

theorem Ordered.splitsLines (h : map.Ordered) : map.SplitsLines where
  inBounds _ hmem _ hin := h.le_of_mem_range hmem hin
  existsUnique _ hfirst hlast := h.existsUnique_logicalLine hfirst hlast
  found _ _ := h.get?_eq_some_iff
  range line hfirst hlast := by
    obtain ⟨logical, ⟨hmem, hin⟩, -⟩ := h.existsUnique_logicalLine hfirst hlast
    obtain ⟨⟨hstart, -⟩, hstop⟩ := h.within logical hmem
    rw [h.rangeOf_eq hmem hin]
    exact ⟨hin, hstart, hstop, fun other hother => h.rangeOf_eq hmem hother⟩
  disjoint := h.disjoint

/-- The slots of tokens with proper ranges lead to the statement that covers a line, or to the line
alone. -/
theorem get?_ofTokens (physical : List String) {tokens : List Token}
    (htokens : ∀ token ∈ tokens, token.range.Proper) (line : Nat) :
    (ofTokens physical tokens).get? line =
      ((ofTokens physical tokens).physical? line).map fun text =>
        ((statementsFrom physical.length 0 tokens).find? fun logical =>
          line ∈ logical.range).getD ⟨⟨line, line⟩, text⟩ := by
  have hordered := ordered_ofTokens physical htokens
  cases htext : (ofTokens physical tokens).physical? line with
  | none =>
    refine Option.eq_none_iff_forall_not_mem.2 fun logical hget => ?_
    obtain ⟨hmem, hin⟩ := mem_of_get? hget
    obtain ⟨hfirst, hlast⟩ := hordered.le_of_mem_range hmem hin
    obtain ⟨text, hsome⟩ := exists_physical? hfirst hlast
    rw [htext] at hsome
    cases hsome
  | some text =>
    rw [Option.map_some, hordered.get?_eq_some_iff, ofTokens, mem_logicalLines_ofStatements_iff]
    cases hfind : (statementsFrom physical.length 0 tokens).find? fun logical =>
        line ∈ logical.range with
    | some statement =>
      exact ⟨.inl (List.mem_of_find?_eq_some hfind), by simpa using List.find?_some hfind⟩
    | none =>
      obtain ⟨hfirst, htext⟩ := physical?_eq_some_iff.1 htext
      obtain ⟨n, rfl⟩ := Nat.exists_eq_add_of_le' hfirst
      refine ⟨.inr ⟨n, htext, rfl, fun statement hmem => ?_⟩, LineRange.mem_single.2 rfl⟩
      simpa using List.find?_eq_none.1 hfind statement hmem

/-! ### The lines of a source -/

theorem length_physicalLines (text : List Char) :
    (physicalLines text).length = (lines text).length :=
  List.length_map _

/-- The text of a range that runs past the last line is that of the range cut there. -/
theorem logicalText_min (lines : List (List Char)) (range : LineRange) :
    logicalText lines ⟨range.first, min range.last lines.length⟩ = logicalText lines range := by
  rw [logicalText, logicalText, ← List.take_eq_take_min]

theorem logicalLine_of_mem_tokenize {text : List Char} {token : Token}
    (h : token ∈ (tokenize text).tokens) :
    token.logicalLine = logicalText (lines text) token.range := by
  obtain ⟨groups, hgroups⟩ : ∃ groups : List (List Piece),
      (tokenize text).tokens = groups.flatMap (tokensOfLine (lines text)) := by
    simp only [tokenize]
    split <;> exact ⟨_, rfl⟩
  rw [hgroups, List.mem_flatMap] at h
  obtain ⟨group, -, hmem⟩ := h
  obtain ⟨piece, -, rfl⟩ := List.mem_map.1 hmem
  rfl

theorem text_of_mem_logicalLines {text : List Char}
    (h : logical ∈ (ofTokens (physicalLines text) (tokenize text).tokens).logicalLines) :
    logical.text = logicalText (lines text) logical.range := by
  rcases mem_logicalLines_ofStatements_iff.1 h with hstatement | ⟨n, hphysical, hrange, -⟩
  · obtain ⟨token, hmem, hrange, htext⟩ := exists_token_of_mem_statementsFrom hstatement
    rw [htext, hrange, length_physicalLines, logicalText_min, logicalLine_of_mem_tokenize hmem]
  · rw [physicalLines, List.getElem?_map, Option.map_eq_some_iff] at hphysical
    obtain ⟨chars, hchars, hlogical⟩ := hphysical
    have hbound : n < (lines text).length := (List.getElem?_eq_some_iff.1 hchars).1
    have honly : ((lines text).take (n + 1)).drop n = [chars] := by
      rw [List.take_add_one, show (lines text)[n]? = some chars from hchars]
      exact List.drop_left' (by rw [List.length_take]; omega)
    rw [← hlogical, hrange, logicalText]
    simp only [Nat.add_sub_cancel, honly, unlines]

/-- Tokens with proper ranges split the physical lines into logical lines, whatever else their
ranges are. The logical lines of a source have the text of their lines, joined and without blanks at
the end. -/
theorem logicalLines_partition :
    (∀ (physical : List String) (tokens : List Token), (∀ token ∈ tokens, token.range.Proper) →
      (ofTokens physical tokens).SplitsLines) ∧
    ∀ (text : List Char),
      ∀ logical ∈ (ofTokens (physicalLines text) (tokenize text).tokens).logicalLines,
        logical.text = String.ofList (trimEnd (unlines
          (((lines text).take logical.range.last).drop (logical.range.first - 1)))) :=
  ⟨fun physical _ htokens => (ordered_ofTokens physical htokens).splitsLines,
    fun _ _ hmem => text_of_mem_logicalLines hmem⟩

/-- A range that overlaps the one before, one that runs past the end, and lines that no token
covers. -/
theorem logicalLines_partition_overlap :
    let token (first last : Nat) : Token :=
      ⟨⟨.name, "x", ⟨first, 0⟩, ⟨last, 1⟩⟩, ⟨first, last⟩, "x"⟩
    let tokens := [token 2 3, token 3 4, token 5 9, token 7 7]
    (∀ token ∈ tokens, token.range.Proper) ∧
      (ofTokens ["a", "b", "c", "d", "e"] tokens).SplitsLines ∧
      (ofTokens ["a", "b", "c", "d", "e"] tokens).logicalLines.map LogicalLine.range =
        [⟨2, 3⟩, ⟨5, 5⟩, ⟨1, 1⟩, ⟨4, 4⟩] := by
  intro token tokens
  have htokens : ∀ token ∈ tokens, token.range.Proper := by decide
  exact ⟨htokens, logicalLines_partition.1 _ _ htokens, by decide⟩

end LineMap

end PythonLint
