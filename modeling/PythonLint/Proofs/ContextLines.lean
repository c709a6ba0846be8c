import PythonLint.Check.Report
import PythonLint.Proofs.LinePartition
import PythonLint.Proofs.TokenShape

/-!
# The lines that a warning shows

A warning shows the logical lines that it touches. They are looked up for one physical line after
the other, and a logical line is left out when it has the range of the one before it. That leaves
each logical line once: logical lines have no line in common, so that the physical lines of one of
them follow each other, wherever it stands in the line map. A warning about a whole logical line
shows just that, and is the same for all lines of it.

Main statements: `LineMap.pairwise_dropRepeated`, `LineMap.mem_dropRepeated`,
`LineMap.Ordered.linesBetween_eq`, `LineMap.Ordered.linesBetween_span`, `contextLines_once`.
-/

namespace PythonLint

open Text

variable {found : List LogicalLine} {a logical : LogicalLine} {line : Nat}

theorem LineRange.mem_toList {range : LineRange} : line ∈ range.toList ↔ line ∈ range := by
  rw [toList, List.mem_range'_1, mem_iff]
  omega

namespace LineMap

/-! ### Repeated logical lines -/

/-- The first logical line ends above the second one. -/
def Above (a b : LogicalLine) : Prop :=
  a.range.last < b.range.first

/-- Each logical line is the one before it or stands below it. -/
def Descends (found : List LogicalLine) : Prop :=
  found.Pairwise fun a b => a = b ∨ Above a b

theorem Above.not_self (ha : a.range.Proper) : ¬Above a a :=
  Nat.not_lt.2 ha.2

theorem eq_of_range_eq {b : LogicalLine} (ha : a.range.Proper) (h : a = b ∨ Above a b)
    (hrange : a.range = b.range) : a = b := by
  rcases h with h | h
  · exact h
  · rw [Above, ← hrange] at h
    exact absurd h (Above.not_self ha)

/-- Leaving out repeated logical lines leaves out none of them altogether. -/
theorem mem_dropRepeated (hproper : ∀ logical ∈ found, logical.range.Proper) (h : Descends found) :
    logical ∈ dropRepeated found ↔ logical ∈ found := by
  fun_induction dropRepeated found with
  | case1 first second rest hrange ih =>
    obtain ⟨hfirst, hrest⟩ := List.pairwise_cons.1 h
    have hsame :=
      eq_of_range_eq (hproper first List.mem_cons_self) (hfirst second List.mem_cons_self) hrange
    subst hsame
    rw [ih (fun other hmem => hproper other (List.mem_cons_of_mem _ hmem)) hrest]
    simp only [List.mem_cons, or_self_left]
  | case2 first second rest hrange ih =>
    have hrest := (List.pairwise_cons.1 h).2
    rw [List.mem_cons, List.mem_cons,
      ih (fun other hmem => hproper other (List.mem_cons_of_mem _ hmem)) hrest]
  | case3 => exact Iff.rfl

/-- Each of those that are left stands below the one before it. -/
theorem pairwise_dropRepeated (hproper : ∀ logical ∈ found, logical.range.Proper)
    (h : Descends found) : (dropRepeated found).Pairwise Above := by
  fun_induction dropRepeated found with
  | case1 first second rest hrange ih =>
    obtain ⟨hfirst, hrest⟩ := List.pairwise_cons.1 h
    have hsame :=
      eq_of_range_eq (hproper first List.mem_cons_self) (hfirst second List.mem_cons_self) hrange
    subst hsame
    exact ih (fun other hmem => hproper other (List.mem_cons_of_mem _ hmem)) hrest
  | case2 first second rest hrange ih =>
    obtain ⟨hfirst, hrest⟩ := List.pairwise_cons.1 h
    have htail : ∀ logical ∈ second :: rest, logical.range.Proper :=
      fun other hmem => hproper other (List.mem_cons_of_mem _ hmem)
    refine List.pairwise_cons.2 ⟨fun later hmem => ?_, ih htail hrest⟩
    rw [mem_dropRepeated htail hrest] at hmem
    have habove : Above first second :=
      (hfirst second List.mem_cons_self).resolve_left fun hsame => hrange (congrArg _ hsame)
    -- The first one cannot come again, since the second stands below it and all later ones are not
    -- above the second.
    rcases List.mem_cons.1 hmem with rfl | hlater
    · exact habove
    · have hproper := (htail second List.mem_cons_self).2
      rcases (List.pairwise_cons.1 hrest).1 later hlater with rfl | hbelow
      · exact habove
      · exact Nat.lt_of_lt_of_le habove (Nat.le_trans hproper (Nat.le_of_lt hbelow))
  | case3 short hshort =>
    rcases short with _ | ⟨first, _ | ⟨second, rest⟩⟩
    · exact .nil
    · exact List.pairwise_singleton _ _
    · exact absurd rfl (hshort first second rest)

/-! ### Lookups -/

/-- The logical lines of a map that meet the lines from `first` to `last`, each of them once, from
top to bottom. -/
structure ListsMeeting (map : LineMap) (first last : Nat) (found : List LogicalLine) : Prop where
  mem_iff : ∀ logical, logical ∈ found ↔
    logical ∈ map.logicalLines ∧ ∃ line ∈ logical.range, first ≤ line ∧ line ≤ last
  inOrder : found.Pairwise Above

namespace Ordered

variable {map : LineMap}

/-- A logical line that holds a further line is the same or stands below. -/
theorem eq_or_above (h : map.Ordered) {other : Nat} (hlt : line < other) {b : LogicalLine}
    (ha : map.get? line = some a) (hb : map.get? other = some b) : a = b ∨ Above a b := by
  obtain ⟨ha, hline⟩ := mem_of_get? ha
  obtain ⟨hb, hother⟩ := mem_of_get? hb
  by_cases habove : Above a b
  · exact .inr habove
  · rw [Above] at habove
    rw [LineRange.mem_iff] at hline hother
    left
    -- Both hold the first line of the lower one, or the upper one's line.
    by_cases hfirst : a.range.first ≤ b.range.first
    · exact h.eq_of_mem ha hb (LineRange.mem_iff.2 ⟨hfirst, by omega⟩)
        (LineRange.mem_iff.2 ⟨Nat.le_refl _, by omega⟩)
    · exact h.eq_of_mem ha hb (LineRange.mem_iff.2 hline) (LineRange.mem_iff.2 ⟨by omega, by omega⟩)

theorem descends_lookups (h : map.Ordered) (range : LineRange) :
    Descends (range.toList.filterMap map.get?) := by
  refine List.Pairwise.filterMap map.get? (R := (· < ·)) (fun line other hlt a ha b hb => ?_) ?_
  · exact h.eq_or_above hlt ha hb
  · exact List.pairwise_lt_range' 1

/-- The texts between two locations are those of the logical lines that meet the lines from one to
the other. -/
theorem linesBetween_eq (h : map.Ordered) (start stop : Location) :
    ∃ found, map.ListsMeeting start.line (max start.line stop.line) found ∧
      map.linesBetween start stop = found.map LogicalLine.text := by
  have hdescends := h.descends_lookups ⟨start.line, max start.line stop.line⟩
  have hmem : ∀ logical,
    logical ∈ (LineRange.mk start.line (max start.line stop.line)).toList.filterMap map.get? ↔
      logical ∈ map.logicalLines ∧ ∃ line ∈ logical.range, start.line ≤ line ∧
        line ≤ max start.line stop.line := by
    intro logical
    rw [List.mem_filterMap]
    constructor
    · rintro ⟨line, hline, hget⟩
      obtain ⟨hlogical, hin⟩ := mem_of_get? hget
      exact ⟨hlogical, line, hin, LineRange.mem_toList.1 hline⟩
    · rintro ⟨hlogical, line, hin, hline⟩
      exact ⟨line, LineRange.mem_toList.2 hline, h.get?_eq_some_iff.2 ⟨hlogical, hin⟩⟩
  have hproper : ∀ logical ∈
    (LineRange.mk start.line (max start.line stop.line)).toList.filterMap map.get?,
      logical.range.Proper := fun logical hin => (h.within logical ((hmem logical).1 hin).1).1
  exact ⟨_, ⟨fun logical => (mem_dropRepeated hproper hdescends).trans (hmem logical),
    pairwise_dropRepeated hproper hdescends⟩, rfl⟩

theorem eq_singleton_of_listsMeeting (h : map.Ordered) (hmem : logical ∈ map.logicalLines)
    (hfound : map.ListsMeeting logical.range.first logical.range.last found) :
    found = [logical] := by
  have hproper := (h.within logical hmem).1
  have hall : ∀ other ∈ found, other = logical := by
    intro other hother
    obtain ⟨hlogical, line, hin, hline⟩ := (hfound.mem_iff other).1 hother
    exact h.eq_of_mem hlogical hmem hin (LineRange.mem_iff.2 hline)
  have hin : logical ∈ found :=
    (hfound.mem_iff logical).2 ⟨hmem, _, LineRange.mem_iff.2 ⟨Nat.le_refl _, hproper.2⟩,
      Nat.le_refl _, hproper.2⟩
  cases found with
  | nil => cases hin
  | cons first rest =>
    have hfirst := hall first List.mem_cons_self
    subst hfirst
    cases rest with
    | nil => rfl
    | cons second rest =>
      have habove := (List.pairwise_cons.1 hfound.inOrder).1 second List.mem_cons_self
      rw [hall second (List.mem_cons_of_mem _ List.mem_cons_self)] at habove
      exact absurd habove (Above.not_self hproper)

theorem linesBetween_span (h : map.Ordered) (hmem : logical ∈ map.logicalLines)
    (column other : Nat) :
    map.linesBetween ⟨logical.range.first, column⟩ ⟨logical.range.last, other⟩ =
      [logical.text] := by
  have hproper := (h.within logical hmem).1
  obtain ⟨found, hfound, htexts⟩ :=
    h.linesBetween_eq ⟨logical.range.first, column⟩ ⟨logical.range.last, other⟩
  simp only [Nat.max_eq_right hproper.2] at hfound
  rw [htexts, h.eq_singleton_of_listsMeeting hmem hfound, List.map_singleton]

/-- All lines of a logical line span from its start to the end of its last line. -/
theorem span_eq (h : map.Ordered) (hmem : logical ∈ map.logicalLines) {text : String}
    (htext : map.physical? logical.range.last = some text) (hin : line ∈ logical.range) :
    map.span line = (⟨logical.range.first, 0⟩, ⟨logical.range.last, text.length⟩) := by
  have hproper := (h.within logical hmem).1
  rw [span, h.rangeOf_eq hmem hin]
  simp only [Nat.max_eq_left (Nat.le_trans hproper.1 hproper.2), htext, Option.map_some,
    Option.getD_some]

end Ordered

end LineMap

/-! ### Warnings -/

/-- What the warnings of a reporter show. -/
structure Reporter.ShowsLines (reporter : Reporter) : Prop where
  /-- A warning between two locations shows the logical lines that it touches, each of them once. -/
  between : ∀ kind message start stop, ∃ found,
    reporter.lines.ListsMeeting start.line (max start.line stop.line) found ∧
      reporter.between kind message start stop =
        ⟨kind, message, reporter.file, start, stop, found.map LogicalLine.text⟩
  /-- A warning about a line is one about its whole logical line, and the same for all lines of
  that. -/
  onLine : ∀ line, 1 ≤ line → line ≤ reporter.lines.physical.length →
    ∃ logical ∈ reporter.lines.logicalLines, line ∈ logical.range ∧
      ∃ text, reporter.lines.physical? logical.range.last = some text ∧
        ∀ kind message, ∀ other ∈ logical.range, reporter.onLine kind message other =
          ⟨kind, message, reporter.file, ⟨logical.range.first, 0⟩,
            ⟨logical.range.last, text.length⟩, [logical.text]⟩

theorem Reporter.showsLines {reporter : Reporter} (h : reporter.lines.Ordered) :
    reporter.ShowsLines where
  between kind message start stop := by
    obtain ⟨found, hfound, htexts⟩ := h.linesBetween_eq start stop
    exact ⟨found, hfound, by rw [Reporter.between, htexts]⟩
  onLine line hfirst hlast := by
    obtain ⟨logical, ⟨hmem, hin⟩, -⟩ := h.existsUnique_logicalLine hfirst hlast
    obtain ⟨hproper, hbound⟩ := h.within logical hmem
    obtain ⟨text, htext⟩ := LineMap.exists_physical? (Nat.le_trans hproper.1 hproper.2) hbound
    refine ⟨logical, hmem, hin, text, htext, fun kind message other hother => ?_⟩
    rw [Reporter.onLine, h.span_eq hmem htext hother]
    simp only [Reporter.between, h.linesBetween_span hmem]

/-- Tokens with proper ranges give each logical line once, whatever else their ranges and the two
locations are. So do the tokens of a source, with an error or without, and there the last line ends
before the blanks at its end. -/
theorem contextLines_once :
    (∀ (file : String) (physical : List String) (tokens : List Token),
      (∀ token ∈ tokens, token.range.Proper) →
      (Reporter.mk file (.ofTokens physical tokens)).ShowsLines) ∧
    ∀ (file : String) (text : List Char),
      (Reporter.ofTokens file text (tokenize text).tokens).ShowsLines ∧
      ∀ n, (Reporter.ofTokens file text (tokenize text).tokens).lines.physical? (n + 1) =
        (lines text)[n]?.map fun line => String.ofList (trimEnd line) := by
  refine ⟨fun file physical tokens htokens =>
    Reporter.showsLines (LineMap.ordered_ofTokens physical htokens),
    fun file text => ⟨Reporter.showsLines ?_, fun n => List.getElem?_map⟩⟩
  exact LineMap.ordered_ofTokens _ fun token hmem => proper_of_mem_tokenize hmem

/-- Ranges that overlap and that run past the last line, and lines that no token covers; the
locations are past the last line too, and the other way round. -/
theorem contextLines_once_overlap :
    let token (first last : Nat) : Token :=
      ⟨⟨.name, "x", ⟨first, 0⟩, ⟨last, 1⟩⟩, ⟨first, last⟩, "statement"⟩
    let tokens := [token 2 3, token 3 4, token 5 9]
    let reporter : Reporter := ⟨"module", .ofTokens ["a", "b", "cc", "d", "e"] tokens⟩
    (∀ token ∈ tokens, token.range.Proper) ∧ reporter.ShowsLines ∧
      reporter.lines.linesBetween ⟨1, 0⟩ ⟨8, 0⟩ = ["a", "statement", "d", "statement"] ∧
      reporter.lines.linesBetween ⟨4, 7⟩ ⟨1, 0⟩ = ["d"] ∧
      reporter.onLine .lineTooLong "long" 2 =
        ⟨.lineTooLong, "long", "module", ⟨2, 0⟩, ⟨3, 2⟩, ["statement"]⟩ := by
  intro token tokens reporter
  have htokens : ∀ token ∈ tokens, token.range.Proper := by decide
  exact ⟨htokens,
    contextLines_once.1 _ _ _ htokens, by decide +kernel, by decide +kernel, by decide +kernel⟩

end PythonLint
