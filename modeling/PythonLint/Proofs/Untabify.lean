import PythonLint.Proofs.Lines
import PythonLint.Token.Untabify
import Mathlib.Data.List.Forall2

/-!
# The copy of a source without tabs in indentation

The copy is made line by line. Proofs go through it character by character instead, by
`untabifyFrom`, which only has to know whether the line so far consists of blanks.

Main statements: `untabify_eq_untabifyFrom`, `untabify_sameOrTab`, `untabifyFrom_append`,
`untabify_keeps_positions`.
-/

namespace PythonLint

open Text

/-! ### From character to character -/

/-- After the character a line has had only blanks; `leading` says that this is so before it. -/
def leadsOn (leading : Bool) (c : Char) : Bool :=
  c == '\n' || leading && isIndentChar c

/-- The text with spaces for tabs, as long as each line has had only blanks; `leading` says that
this is so where the text starts. -/
def untabifyFrom (leading : Bool) : List Char → List Char
  | [] => []
  | c :: rest => (if leading then untabifyChar c else c) :: untabifyFrom (leadsOn leading c) rest

theorem untabifyFrom_append (leading : Bool) (a b : List Char) :
    untabifyFrom leading (a ++ b) = untabifyFrom leading a ++
      untabifyFrom (a.foldl leadsOn leading) b := by
  induction a generalizing leading with
  | nil => rfl
  | cons c a ih =>
    rw [List.cons_append, untabifyFrom, ih, untabifyFrom, List.cons_append, List.foldl_cons]

theorem untabifyFrom_lineFeed (leading : Bool) (a b : List Char) :
    untabifyFrom leading (a ++ '\n' :: b) =
      untabifyFrom leading a ++ '\n' :: untabifyFrom true b := by
  rw [untabifyFrom_append, untabifyFrom]
  cases a.foldl leadsOn leading <;> rfl

theorem untabifyFrom_false {text : List Char} (h : '\n' ∉ text) :
    untabifyFrom false text = text := by
  induction text with
  | nil => rfl
  | cons c text ih =>
    rw [List.mem_cons, not_or] at h
    have hc : leadsOn false c = false := by simp [leadsOn, Ne.symm h.1]
    rw [untabifyFrom, hc, ih h.2, if_neg Bool.false_ne_true]

/-! ### Line by line -/

theorem untabifyLine_cons (c : Char) (rest : List Char) :
    untabifyLine (c :: rest) = if isIndentChar c then untabifyChar c :: untabifyLine rest
      else c :: rest := by
  by_cases hc : isIndentChar c = true
  · have hsize : c.utf8Size = 1 := by
      simp only [isIndentChar, Bool.or_eq_true, beq_iff_eq] at hc
      rcases hc with (rfl | rfl) | rfl <;> rfl
    rw [if_pos hc, untabifyLine, indentBytes, if_pos hc, hsize, Nat.add_comm, takeBytes,
      dropBytes, hsize, Nat.add_sub_cancel, List.map_cons, List.cons_append, untabifyLine]
  · rw [if_neg hc, untabifyLine, indentBytes, if_neg hc, takeBytes, dropBytes, List.map_nil,
      List.nil_append]

theorem untabifyFrom_line {row : List Char} (h : '\n' ∉ row) :
    untabifyFrom true row = untabifyLine row := by
  induction row with
  | nil => rfl
  | cons c row ih =>
    rw [List.mem_cons, not_or] at h
    have hc : leadsOn true c = isIndentChar c := by simp [leadsOn, Ne.symm h.1]
    rw [untabifyLine_cons, untabifyFrom, if_pos rfl, hc]
    by_cases hindent : isIndentChar c = true
    · rw [if_pos hindent, hindent, ih h.2]
    · have htab : c ≠ '\t' := fun htab => hindent (by rw [htab]; rfl)
      rw [if_neg hindent, eq_false_of_ne_true hindent, untabifyFrom_false h.2, untabifyChar,
        if_neg htab]

theorem unlines_cons (row : List Char) {rows : List (List Char)} (h : rows ≠ []) :
    unlines (row :: rows) = row ++ '\n' :: unlines rows := by
  obtain ⟨first, others, rfl⟩ := List.exists_cons_of_ne_nil h
  rfl

theorem untabifyLines_eq_untabifyFrom (text : List Char) :
    untabifyLines text = untabifyFrom true text := by
  induction text using lines_induction with
  | last row hrow =>
    rw [untabifyLines, segments_of_not_mem hrow, untabifyFrom_line hrow,
      List.map_singleton, unlines]
  | line row rest hrow ih =>
    rw [untabifyLines, segments_lineFeed hrow, List.map_cons, unlines_cons, ← untabifyLines, ih,
      untabifyFrom_lineFeed, untabifyFrom_line hrow]
    exact mt List.map_eq_nil_iff.1 (segments_ne_nil rest)

/-! ### Sources without tabs in indentation -/

theorem untabifyLine_of_not_mem {row : List Char} (h : '\t' ∉ row.takeWhile isIndentChar) :
    untabifyLine row = row := by
  induction row with
  | nil => rfl
  | cons c row ih =>
    rw [untabifyLine_cons]
    split
    · next hc =>
      rw [List.takeWhile_cons_of_pos hc, List.mem_cons, not_or] at h
      rw [ih h.2, untabifyChar, if_neg (Ne.symm h.1)]
    · rfl

theorem unlines_segments (text : List Char) : unlines (segments text) = text := by
  induction text using lines_induction with
  | last row hrow => rw [segments_of_not_mem hrow, unlines]
  | line row rest hrow ih =>
    rw [segments_lineFeed hrow, unlines_cons row (segments_ne_nil rest), ih]

theorem hasIndentTab_eq_false_iff {text : List Char} :
    hasIndentTab text = false ↔ ∀ row ∈ segments text, '\t' ∉ row.takeWhile isIndentChar := by
  simp [hasIndentTab]

theorem untabifyLines_of_hasIndentTab {text : List Char} (h : hasIndentTab text = false) :
    untabifyLines text = text := by
  have hrows : (segments text).map untabifyLine = segments text :=
    (List.map_congr_left fun row hrow =>
      untabifyLine_of_not_mem (hasIndentTab_eq_false_iff.1 h row hrow)).trans
      (List.map_id' _)
  rw [untabifyLines, hrows, unlines_segments]

theorem untabify_eq_untabifyLines (text : List Char) : untabify text = untabifyLines text := by
  rw [untabify]
  split
  · rfl
  · next h => rw [untabifyLines_of_hasIndentTab (eq_false_of_ne_true h)]

theorem untabify_eq_untabifyFrom (text : List Char) : untabify text = untabifyFrom true text :=
  (untabify_eq_untabifyLines text).trans (untabifyLines_eq_untabifyFrom text)

/-! ### What the copy keeps -/

/-- The second character is the first, or the space that stands for the tab that the first one
is. -/
def SameOrTab (c d : Char) : Prop :=
  d = c ∨ c = '\t' ∧ d = ' '

theorem untabifyFrom_sameOrTab (leading : Bool) (text : List Char) :
    List.Forall₂ SameOrTab text (untabifyFrom leading text) := by
  induction text generalizing leading with
  | nil => exact .nil
  | cons c rest ih =>
    refine .cons ?_ (ih _)
    unfold untabifyChar
    split
    · split
      · next htab => exact .inr ⟨htab, rfl⟩
      · exact .inl rfl
    · exact .inl rfl

theorem untabify_sameOrTab (text : List Char) : List.Forall₂ SameOrTab text (untabify text) := by
  rw [untabify_eq_untabifyFrom]
  exact untabifyFrom_sameOrTab true text

theorem exists_of_mem_forall₂ {α β : Type} {R : α → β → Prop} {as : List α} {bs : List β}
    (h : List.Forall₂ R as bs) {a : α} (ha : a ∈ as) : ∃ b ∈ bs, R a b := by
  induction h with
  | nil => cases ha
  | cons hab _ ih =>
    rcases List.mem_cons.1 ha with rfl | ha
    · exact ⟨_, List.mem_cons_self, hab⟩
    · obtain ⟨b, hb, hrel⟩ := ih ha
      exact ⟨b, List.mem_cons_of_mem _ hb, hrel⟩

theorem byteLength_eq_of_sameOrTab {a b : List Char} (h : List.Forall₂ SameOrTab a b) :
    byteLength a = byteLength b := by
  induction h with
  | nil => rfl
  | cons hc _ ih =>
    rw [byteLength_cons, byteLength_cons, ih]
    rcases hc with rfl | ⟨rfl, rfl⟩
    · rfl
    · rfl

theorem untabifyChar_ne_tab (c : Char) : untabifyChar c ≠ '\t' := by
  unfold untabifyChar
  split
  · decide
  · assumption

theorem untabifyChar_eq_lineFeed_iff (c : Char) : untabifyChar c = '\n' ↔ c = '\n' := by
  unfold untabifyChar
  split
  · next htab =>
    rw [htab]
    decide
  · rfl

theorem tab_not_mem_untabifyLine (row : List Char) :
    '\t' ∉ (untabifyLine row).takeWhile isIndentChar := by
  induction row with
  | nil => exact List.not_mem_nil
  | cons c row ih =>
    rw [untabifyLine_cons]
    split
    · rw [List.takeWhile_cons]
      split
      · exact List.not_mem_cons_of_ne_of_not_mem (Ne.symm (untabifyChar_ne_tab c)) ih
      · exact List.not_mem_nil
    · next hc =>
      rw [List.takeWhile_cons_of_neg hc]
      exact List.not_mem_nil

theorem lineFeed_not_mem_untabifyFrom {text : List Char} (h : '\n' ∉ text) (leading : Bool) :
    '\n' ∉ untabifyFrom leading text := by
  intro hmem
  obtain ⟨c, hc, rfl | ⟨-, hspace⟩⟩ :=
    exists_of_mem_forall₂ (untabifyFrom_sameOrTab leading text).flip hmem
  · exact h hc
  · exact absurd hspace (by decide)

/-- The lines of the copy are the copies of the lines. -/
theorem segments_untabify (text : List Char) :
    segments (untabify text) = (segments text).map untabifyLine := by
  rw [untabify_eq_untabifyFrom]
  induction text using lines_induction with
  | last row hrow =>
    rw [segments_of_not_mem (lineFeed_not_mem_untabifyFrom hrow true), untabifyFrom_line hrow,
      segments_of_not_mem hrow, List.map_singleton]
  | line row rest hrow ih =>
    rw [untabifyFrom_lineFeed, segments_lineFeed (lineFeed_not_mem_untabifyFrom hrow true),
      untabifyFrom_line hrow, segments_lineFeed hrow, ih, List.map_cons]

theorem hasIndentTab_untabify (text : List Char) : hasIndentTab (untabify text) = false := by
  rw [hasIndentTab_eq_false_iff, segments_untabify]
  intro copied hmem
  obtain ⟨row, -, rfl⟩ := List.mem_map.1 hmem
  exact tab_not_mem_untabifyLine row

/-- What follows stands among the blanks at the start of its line. -/
def inIndent (before : List Char) : Bool :=
  (before.reverse.takeWhile (· ≠ '\n')).all isIndentChar

theorem foldl_leadsOn (before : List Char) : before.foldl leadsOn true = inIndent before := by
  rw [List.foldl_eq_foldr_reverse, inIndent]
  induction before.reverse with
  | nil => rfl
  | cons c above ih =>
    rw [List.foldr_cons, ih, leadsOn, List.takeWhile_cons]
    by_cases hc : c = '\n'
    · simp [hc]
    · simp [hc, Bool.and_comm]

theorem getElem?_untabify (text : List Char) (i : Nat) :
    (untabify text)[i]? = text[i]?.map fun c => if inIndent (text.take i) then untabifyChar c
      else c := by
  rw [untabify_eq_untabifyFrom]
  by_cases hi : i < text.length
  · have hsplit : text = text.take i ++ text[i] :: text.drop (i + 1) := by simp
    have hlength : (untabifyFrom true (text.take i)).length = i := by
      rw [← (untabifyFrom_sameOrTab true (text.take i)).length_eq, List.length_take,
        Nat.min_eq_left (Nat.le_of_lt hi)]
    have hcopy : untabifyFrom true text = untabifyFrom true (text.take i) ++
        (if inIndent (text.take i) then untabifyChar text[i] else text[i]) ::
          untabifyFrom (leadsOn (inIndent (text.take i)) text[i]) (text.drop (i + 1)) := by
      conv_lhs => rw [hsplit]
      rw [untabifyFrom_append, foldl_leadsOn, untabifyFrom]
    rw [hcopy, List.getElem?_append_right (Nat.le_of_eq hlength), hlength, Nat.sub_self,
      List.getElem?_cons_zero, List.getElem?_eq_getElem hi, Option.map_some]
  · have hlength := (untabifyFrom_sameOrTab true text).length_eq
    rw [List.getElem?_eq_none (by omega), List.getElem?_eq_none (by omega), Option.map_none]

/-- The copy has the bytes of the source in number, and its line feeds at their positions. It has a
space where the source has a tab among the blanks at the start of a line, leaves no such tab and is
the source otherwise, so that it is its own copy. A source that is taken as it is would have been
the same line by line. -/
theorem untabify_keeps_positions (text : List Char) :
    byteLength (untabify text) = byteLength text ∧
      (∀ i : Nat, byteLength ((untabify text).take i) = byteLength (text.take i)) ∧
      (∀ i : Nat, (untabify text)[i]? = some '\n' ↔ text[i]? = some '\n') ∧
      (∀ i : Nat, (untabify text)[i]? = text[i]?.map fun c =>
        if inIndent (text.take i) ∧ c = '\t' then ' ' else c) ∧
      (∀ row ∈ segments (untabify text), '\t' ∉ row.takeWhile isIndentChar) ∧
      untabify (untabify text) = untabify text ∧
      untabify text = untabifyLines text := by
  have hsame := untabify_sameOrTab text
  refine ⟨(byteLength_eq_of_sameOrTab hsame).symm, ?_, ?_, ?_, ?_, ?_,
    untabify_eq_untabifyLines text⟩
  · exact fun i => (byteLength_eq_of_sameOrTab (List.forall₂_take i hsame)).symm
  · intro i
    rw [getElem?_untabify]
    cases text[i]? with
    | none => rfl
    | some c =>
      rw [Option.map_some, Option.some.injEq, Option.some.injEq]
      split
      · exact untabifyChar_eq_lineFeed_iff c
      · rfl
  · intro i
    rw [getElem?_untabify]
    cases text[i]? with
    | none => rfl
    | some c => simp [untabifyChar, ite_and]
  · exact hasIndentTab_eq_false_iff.1 (hasIndentTab_untabify text)
  · rw [untabify, hasIndentTab_untabify, if_neg Bool.false_ne_true]

/-- A tab after spaces and one inside of a string that goes on on the next line are among the blanks
of their lines, one after code is not. -/
theorem untabify_keeps_positions_string :
    let text := "if a:\n \tb = '''\n\té'''\t# c\n".toList
    untabify text = "if a:\n  b = '''\n é'''\t# c\n".toList ∧
      " é'''\t# c".toList ∈ segments (untabify text) ∧
      '\t' ∉ " é'''\t# c".toList.takeWhile isIndentChar ∧ untabify text = untabifyLines text := by
  intro text
  obtain ⟨-, -, -, -, hclean, -, hlines⟩ := untabify_keeps_positions text
  have hmem : " é'''\t# c".toList ∈ segments (untabify text) := by decide +kernel
  exact ⟨by decide +kernel, hmem, hclean _ hmem, hlines⟩

end PythonLint
