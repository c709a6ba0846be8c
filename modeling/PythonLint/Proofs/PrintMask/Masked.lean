import PythonLint.Proofs.Lines
import PythonLint.Proofs.PrintMask.PrintRun

/-!
# A text and its mask

A text in which print statements have been replaced is cut at those statements. What stands between
two of them is the same as before and at the same place, and so are all line feeds. Replacing the
statements of a copy without tabs gives the copy without tabs of the text in which they have been
replaced.

Main statements: `MaskedAs.mask_eq`, `MaskedAs.of_untabify`, `MaskedAs.apart`, `MaskedAs.within`.
-/

namespace PythonLint

open Text

/-- A text that starts at position `here`, the positions of its print statements, and the text with
these replaced. -/
inductive MaskedAs :
    (here : Nat) → (text : List Char) → List (Nat × Nat) → (masked : List Char) → Prop
  | done (here : Nat) (text : List Char) : MaskedAs here text [] text
  | statement {here : Nat} (gap body : List Char) {rest masked : List Char}
      {spans : List (Nat × Nat)} (hatEnd : AtEnd rest)
      (hrest : MaskedAs (here + byteLength (gap ++ ("print".toList ++ body))) rest spans masked) :
      MaskedAs here (gap ++ ("print".toList ++ body) ++ rest)
        ((here + byteLength gap, here + byteLength (gap ++ ("print".toList ++ body))) :: spans)
        (gap ++ blankStatement ("print".toList ++ body) ++ masked)

/-! ### Line feeds -/

/-- The positions of the line feeds of a text that starts at position `here`. -/
def lineFeeds (here : Nat) : List Char → List Nat
  | [] => []
  | c :: rest => (if c = '\n' then [here] else []) ++ lineFeeds (here + c.utf8Size) rest

theorem lineFeeds_append (here : Nat) (a b : List Char) :
    lineFeeds here (a ++ b) = lineFeeds here a ++ lineFeeds (here + byteLength a) b := by
  induction a generalizing here with
  | nil => rfl
  | cons c a ih =>
    rw [List.cons_append, lineFeeds, lineFeeds, ih, byteLength_cons, List.append_assoc,
      Nat.add_assoc]

theorem length_lineFeeds (here : Nat) (text : List Char) :
    (lineFeeds here text).length = text.count '\n' := by
  induction text generalizing here with
  | nil => rfl
  | cons c text ih =>
    rw [lineFeeds, List.length_append, ih, List.count_cons]
    by_cases hc : c = '\n'
    · simp [hc, Nat.add_comm]
    · simp [hc]

theorem lineFeeds_replicate_space (here n : Nat) : lineFeeds here (List.replicate n ' ') = [] := by
  induction n generalizing here with
  | zero => rfl
  | succ n ih => exact ih _

theorem lineFeeds_flatMap_blankChar (here : Nat) (text : List Char) :
    lineFeeds here (text.flatMap blankChar) = lineFeeds here text := by
  induction text generalizing here with
  | nil => rfl
  | cons c text ih =>
    rw [List.flatMap_cons, lineFeeds_append, ih, lineFeeds, blankChar]
    by_cases hc : c = '\n' ∨ c = '\r'
    · rw [if_pos hc, lineFeeds, lineFeeds, List.append_nil]
      rfl
    · have hfeed : c ≠ '\n' := fun h => hc (.inl h)
      rw [if_neg hc, if_neg hfeed, lineFeeds_replicate_space, byteLength_replicate_space]

theorem lineFeeds_of_sameOrEscaped {a b : List Char} (h : List.Forall₂ SameOrEscaped a b)
    (here : Nat) : lineFeeds here b = lineFeeds here a := by
  induction h generalizing here with
  | nil => rfl
  | cons hc _ ih =>
    rw [lineFeeds, lineFeeds, ih]
    rcases hc with rfl | ⟨rfl, rfl⟩ <;> rfl

theorem lineFeeds_blankStatement (here : Nat) (body : List Char) :
    lineFeeds here (blankStatement ("print".toList ++ body)) =
      lineFeeds here ("print".toList ++ body) := by
  rw [blankStatement_print, lineFeeds_append, lineFeeds_append, blanked, lineFeeds_of_sameOrEscaped
    (escapeLineEnds_sameOrEscaped _), if_pos rfl, lineFeeds_append, lineFeeds_flatMap_blankChar]
  rfl

/-! ### Lines of a blanked statement -/

theorem StartsLine.of_append (first : List Char) {rest : List Char}
    (h : StartsLine (first ++ rest)) : StartsLine rest := by
  rcases List.eq_nil_or_concat rest with rfl | ⟨init, c, rfl⟩
  · exact .inl rfl
  · rw [List.concat_eq_append] at h ⊢
    rcases h with h | ⟨above, h⟩
    · simp at h
    · rw [← List.append_assoc] at h
      exact .inr ⟨init, by rw [List.append_inj_right' h rfl]⟩

/-- A line end is escaped or not whatever follows it. -/
theorem escapeLineEnds_append {a : List Char} (h : StartsLine a) (b : List Char) :
    escapeLineEnds (a ++ b) = escapeLineEnds a ++ escapeLineEnds b := by
  fun_induction escapeLineEnds a with
  | case1 rest ih =>
    have hrest : StartsLine rest := StartsLine.of_append [' ', '\n'] h
    rw [List.cons_append, List.cons_append, escapeLineEnds, ih hrest]
    rfl
  | case2 rest ih =>
    have hrest : StartsLine rest := StartsLine.of_append [' ', '\r', '\n'] h
    rw [List.cons_append, List.cons_append, List.cons_append, escapeLineEnds, ih hrest]
    rfl
  | case3 c rest hfeed hreturn ih =>
    have hrest : StartsLine rest := StartsLine.of_append [c] h
    have hnot : c = ' ' → rest ≠ [] ∧ rest ≠ ['\r'] := by
      rintro rfl
      refine ⟨?_, ?_⟩
      · rintro rfl
        rcases h with h | ⟨above, h⟩
        · cases h
        · have := congrArg List.getLast? h
          simp at this
      · rintro rfl
        rcases hrest with h | ⟨above, h⟩
        · cases h
        · have := congrArg List.getLast? h
          simp at this
    rw [List.cons_append, escapeLineEnds, ih hrest, List.cons_append]
    · intro tail hc htail
      cases rest with
      | nil => exact (hnot hc).1 rfl
      | cons d rest =>
        cases htail
        exact hfeed rest hc rfl
    · intro tail hc htail
      cases rest with
      | nil => exact (hnot hc).1 rfl
      | cons d rest =>
        obtain ⟨rfl, hnext⟩ := List.cons.inj htail
        cases rest with
        | nil => exact (hnot hc).2 rfl
        | cons e rest =>
          cases hnext
          exact hreturn rest hc rfl
  | case4 => rfl

/-- The blanks for a line do not depend on the lines before it. -/
theorem blanked_append {first : List Char} (h : StartsLine first) (blank : Bool) (hne : first ≠ [])
    (rest : List Char) :
    blanked blank (first ++ rest) = blanked blank first ++ blanked false rest := by
  obtain ⟨init, rfl⟩ := h.resolve_left hne
  have hline : StartsLine ((if blank then [' '] else []) ++
      (init ++ ['\n']).flatMap blankChar) := by
    refine .inr ⟨(if blank then [' '] else []) ++ init.flatMap blankChar, ?_⟩
    rw [List.flatMap_append, List.append_assoc]
    rfl
  rw [blanked, blanked, blanked, List.flatMap_append, ← List.append_assoc,
    escapeLineEnds_append hline]
  rfl

theorem blankStatement_append {body inner line : List Char} (hstarts : StartsLine inner)
    (hne : inner ≠ []) (h : "print".toList ++ body = inner ++ line) :
    blankStatement ("print".toList ++ body) = blankStatement inner ++ blanked false line ∧
      byteLength (blankStatement inner) = byteLength inner := by
  -- No line starts inside the word.
  obtain ⟨body', rfl, rfl⟩ : ∃ body', inner = "print".toList ++ body' ∧ body = body' ++ line := by
    rcases List.append_eq_append_iff.1 h with ⟨body', hinner, hbody⟩ | ⟨more, hprint, -⟩
    · exact ⟨body', hinner, hbody⟩
    · obtain ⟨init, rfl⟩ := hstarts.resolve_left hne
      have hmem : '\n' ∈ "print".toList := by
        rw [hprint]
        simp
      exact absurd hmem (by decide)
  have hne' : body' ≠ [] := by
    rintro rfl
    obtain ⟨init, h⟩ := hstarts.resolve_left hne
    have := congrArg List.getLast? h
    simp at this
  rw [blankStatement_print, blanked_append (hstarts.of_append _) true hne', ← List.append_assoc,
    ← blankStatement_print]
  exact ⟨rfl, byteLength_blankStatement body'⟩

/-! ### Copies without tabs -/

theorem sameOrEscaped_not_mem {a b : List Char} (h : List.Forall₂ SameOrEscaped a b)
    (ha : '\t' ∉ a) : '\t' ∉ b := by
  induction h with
  | nil => exact ha
  | cons hc _ ih =>
    rw [List.mem_cons, not_or] at ha ⊢
    refine ⟨?_, ih ha.2⟩
    rcases hc with rfl | ⟨rfl, rfl⟩
    · exact ha.1
    · decide

theorem tab_not_mem_blankStatement (body : List Char) :
    '\t' ∉ blankStatement ("print".toList ++ body) := by
  have hblanks : '\t' ∉ [' '] ++ body.flatMap blankChar := by
    rw [List.singleton_append, List.mem_cons, not_or]
    refine ⟨by decide, fun hmem => ?_⟩
    obtain ⟨c, -, hc⟩ := List.mem_flatMap.1 hmem
    rw [blankChar] at hc
    split at hc
    · next hline =>
      rw [List.mem_singleton] at hc
      subst hc
      revert hline
      decide
    · have := List.eq_of_mem_replicate hc
      revert this
      decide
  rw [blankStatement_print, List.mem_append, not_or]
  exact ⟨by decide, sameOrEscaped_not_mem (escapeLineEnds_sameOrEscaped _) hblanks⟩

theorem untabifyFrom_of_not_mem {text : List Char} (h : '\t' ∉ text) (leading : Bool) :
    untabifyFrom leading text = text := by
  induction text generalizing leading with
  | nil => rfl
  | cons c text ih =>
    rw [List.mem_cons, not_or] at h
    have hc : untabifyChar c = c := if_neg (Ne.symm h.1)
    rw [untabifyFrom, hc, ite_self, ih h.2]

/-- Where a statement ends, no indentation goes on. -/
theorem AtEnd.untabifyFrom_eq {rest : List Char} (h : AtEnd rest) (leading leading' : Bool) :
    untabifyFrom leading rest = untabifyFrom leading' rest := by
  cases rest with
  | nil => rfl
  | cons c rest =>
    have hc : c = '\n' ∨ c = '\r' ∨ c = ';' := by
      rcases h c rfl with hline | rfl
      · exact (isLineEnd_iff.1 hline).imp_right .inl
      · exact .inr (.inr rfl)
    rcases hc with rfl | rfl | rfl <;> simp [untabifyFrom, leadsOn, untabifyChar, isIndentChar]

theorem flatMap_blankChar_of_sameOrTab {a b : List Char} (h : List.Forall₂ SameOrTab a b) :
    a.flatMap blankChar = b.flatMap blankChar := by
  induction h with
  | nil => rfl
  | cons hc _ ih =>
    rw [List.flatMap_cons, List.flatMap_cons, ih]
    rcases hc with rfl | ⟨rfl, rfl⟩ <;> rfl

theorem AtEnd.of_sameOrTab {a b : List Char} (hb : AtEnd b) (h : List.Forall₂ SameOrTab a b) :
    AtEnd a := by
  intro c hc
  cases h with
  | nil => cases hc
  | @cons _ d _ _ hcd _ =>
    cases hc
    have hd := hb d rfl
    rcases hcd with rfl | ⟨-, rfl⟩
    · exact hd
    · rcases hd with hd | hd <;> cases hd

namespace MaskedAs

variable {here : Nat} {text masked : List Char} {spans : List (Nat × Nat)}

/-! ### Statements replaced one by one -/

/-- The positions of the statements say how to replace them. -/
theorem mask_eq (h : MaskedAs here text spans masked) : maskFrom here text spans = masked := by
  induction h with
  | done => rfl
  | @statement here gap body rest masked spans hatEnd _ ih =>
    rw [maskFrom, Nat.add_sub_cancel_left, Nat.add_sub_cancel_left, sliceBytes_append,
      dropBytes_append, ih, List.append_assoc gap, takeBytes_append]

theorem widen {gap : List Char} (h : MaskedAs (here + byteLength gap) text spans masked) :
    MaskedAs here (gap ++ text) spans (gap ++ masked) := by
  cases h with
  | done => exact .done _ _
  | @statement _ gap' body rest masked spans hatEnd hrest =>
    have hplace : ∀ part, here + byteLength gap + byteLength part =
        here + byteLength (gap ++ part) := by
      intro part
      rw [byteLength_append, Nat.add_assoc]
    rw [hplace, ← List.append_assoc] at hrest
    have hmore := MaskedAs.statement (gap ++ gap') body hatEnd hrest
    rw [hplace, hplace, ← List.append_assoc, ← List.append_assoc, ← List.append_assoc,
      ← List.append_assoc, ← List.append_assoc]
    rwa [← List.append_assoc] at hmore

theorem sameUpToWord (h : MaskedAs here text spans masked) : SameUpToWord text masked := by
  cases h with
  | done => exact .inl rfl
  | @statement _ gap body rest masked spans _ _ =>
    refine .inr ⟨gap, ['r', 'i', 'n', 't'] ++ body ++ rest,
      ['a', 's', 's'] ++ blanked true body ++ masked, ?_, ?_, ?_, ?_⟩
    · rw [List.append_assoc]
      rfl
    · rw [blankStatement_print, List.append_assoc]
      rfl
    · intro c hc
      cases hc
      decide
    · intro c hc
      cases hc
      decide

/-- Tabs of indentations do not matter. -/
theorem of_untabify {leading : Bool} {copy : List Char} (h : MaskedAs here copy spans masked)
    (htext : untabifyFrom leading text = copy) :
    ∃ masked', MaskedAs here text spans masked' ∧ untabifyFrom leading masked' = masked := by
  induction h generalizing text leading with
  | done => exact ⟨text, .done _ _, htext⟩
  | @statement here gap body rest masked spans hatEnd _ ih =>
    have hcopy := untabifyFrom_sameOrTab leading text
    rw [htext] at hcopy
    obtain ⟨first, rest', rfl, hfirst, hrest'⟩ := exists_append_of_forall₂ hcopy
    obtain ⟨gap', word, rfl, hgap, hword⟩ := exists_append_of_forall₂ hfirst
    obtain ⟨print, body', rfl, hprint, hbody⟩ := exists_append_of_forall₂ hword
    obtain rfl : print = "print".toList := eq_of_sameOrTab hprint (by decide)
    -- The copy of each part is that part of the copy.
    rw [List.append_assoc, untabifyFrom_append, untabifyFrom_append, List.append_assoc] at htext
    obtain ⟨hgap', htext⟩ := List.append_inj htext
      ((untabifyFrom_sameOrTab leading gap').length_eq.symm.trans hgap.length_eq)
    obtain ⟨-, htail⟩ := List.append_inj htext
      ((untabifyFrom_sameOrTab _ ("print".toList ++ body')).length_eq.symm.trans hword.length_eq)
    obtain ⟨masked', hmasked, hcopied⟩ := ih htail
    refine ⟨gap' ++ blankStatement ("print".toList ++ body') ++ masked', ?_, ?_⟩
    · rw [← byteLength_eq_of_sameOrTab hgap, ← byteLength_eq_of_sameOrTab hfirst]
      rw [← byteLength_eq_of_sameOrTab hfirst] at hmasked
      exact .statement gap' body' (hatEnd.of_sameOrTab hrest') hmasked
    · have hend : AtEnd masked' := by
        intro c hc
        rw [← hmasked.sameUpToWord.head?_eq] at hc
        exact hatEnd.of_sameOrTab hrest' c hc
      have hblank : blankStatement ("print".toList ++ body') =
          blankStatement ("print".toList ++ body) := by
        rw [blankStatement_print, blankStatement_print, blanked, blanked,
          flatMap_blankChar_of_sameOrTab hbody]
      rw [List.append_assoc, untabifyFrom_append, untabifyFrom_append,
        untabifyFrom_of_not_mem (tab_not_mem_blankStatement body'), hend.untabifyFrom_eq, hcopied,
        hgap', hblank, List.append_assoc]

/-! ### Places in the mask -/

/-- What is outside the statements stays in its place, and after it the two texts are the same up to
the next statement. -/
theorem apart (h : MaskedAs here text spans masked) {a word b : List Char}
    (htext : text = a ++ word ++ b)
    (hapart : ∀ span ∈ spans, here + byteLength (a ++ word) ≤ span.1 ∨
      span.2 ≤ here + byteLength a) :
    ∃ a' b', masked = a' ++ word ++ b' ∧ byteLength a' = byteLength a ∧
      (∀ n, lineFeeds n a' = lineFeeds n a) ∧ SameUpToWord b b' := by
  induction h generalizing a with
  | done => exact ⟨a, b, htext, rfl, fun _ => rfl, .inl rfl⟩
  | @statement here gap body rest masked spans hatEnd hrest ih =>
    obtain ⟨hfirst, hothers⟩ := List.forall_mem_cons.1 hapart
    rcases hfirst with hle | hle
    · -- The part comes before the statement.
      have hle : byteLength (a ++ word) ≤ byteLength gap := Nat.le_of_add_le_add_left hle
      rw [List.append_assoc gap] at htext
      obtain ⟨gap', rfl, hb⟩ := exists_append_of_byteLength_le htext.symm hle
      refine ⟨a, gap' ++ blankStatement ("print".toList ++ body) ++ masked, ?_, rfl,
        fun _ => rfl, ?_⟩
      · simp only [List.append_assoc]
      · have hplace : here + byteLength (a ++ word ++ gap' ++ ("print".toList ++ body)) =
            here + byteLength (a ++ word) + byteLength (gap' ++ ("print".toList ++ body)) := by
          simp only [byteLength_append]
          omega
        rw [hplace] at hrest
        have hlater := (MaskedAs.statement gap' body hatEnd hrest).sameUpToWord
        rwa [hb, ← List.append_assoc]
    · -- The part comes after the statement.
      have hle : byteLength (gap ++ ("print".toList ++ body)) ≤ byteLength a :=
        Nat.le_of_add_le_add_left hle
      rw [List.append_assoc a] at htext
      obtain ⟨a₂, rfl, hlater⟩ := exists_append_of_byteLength_le htext hle
      obtain ⟨a', b', rfl, hlen, hfeeds, hsame⟩ :=
        ih (hlater.trans (List.append_assoc _ _ _).symm) (by
        intro span hspan
        have h := hothers span hspan
        rw [List.append_assoc, byteLength_append, ← Nat.add_assoc, byteLength_append _ a₂,
          ← Nat.add_assoc] at h
        exact h)
      refine ⟨gap ++ blankStatement ("print".toList ++ body) ++ a', b', ?_, ?_, ?_, hsame⟩
      · simp only [List.append_assoc]
      · rw [byteLength_append, byteLength_append, byteLength_blankStatement, hlen,
          byteLength_append _ a₂, byteLength_append gap]
      · intro n
        rw [lineFeeds_append, lineFeeds_append, lineFeeds_blankStatement, lineFeeds_append _ _ a₂,
          lineFeeds_append _ gap, hfeeds, byteLength_append, byteLength_blankStatement,
          ← byteLength_append]

theorem byteLength_eq (h : MaskedAs here text spans masked) :
    byteLength masked = byteLength text := by
  induction h with
  | done => rfl
  | statement gap body hatEnd _ ih =>
    rw [byteLength_append, byteLength_append, byteLength_blankStatement, ih, ← byteLength_append,
      ← byteLength_append]

theorem le_of_mem (h : MaskedAs here text spans masked) {span : Nat × Nat} (hspan : span ∈ spans) :
    here ≤ span.1 := by
  induction h with
  | done => cases hspan
  | statement gap body hatEnd _ ih =>
    rcases List.mem_cons.1 hspan with rfl | hspan
    · exact Nat.le_add_right _ _
    · have := ih hspan
      omega

theorem pass_of_mem (h : MaskedAs here text spans masked) {span : Nat × Nat}
    (hspan : span ∈ spans) :
    ∃ a b, masked = a ++ "pass".toList ++ b ∧ here + byteLength a = span.1 := by
  induction h with
  | done => cases hspan
  | @statement here gap body rest masked spans hatEnd _ ih =>
    rcases List.mem_cons.1 hspan with rfl | hspan
    · refine ⟨gap, blanked true body ++ masked, ?_, rfl⟩
      rw [blankStatement_print]
      simp only [List.append_assoc]
    · obtain ⟨a, b, rfl, hplace⟩ := ih hspan
      refine ⟨gap ++ blankStatement ("print".toList ++ body) ++ a, b, ?_, ?_⟩
      · simp only [List.append_assoc]
      · rw [← hplace, byteLength_append, byteLength_append, byteLength_blankStatement,
          ← byteLength_append, Nat.add_assoc]

/-- A line that starts inside a statement. -/
theorem within (h : MaskedAs here text spans masked) {above below : List Char}
    (htext : text = above ++ below) (habove : StartsLine above) {span : Nat × Nat}
    (hspan : span ∈ spans) (hfirst : span.1 < here + byteLength above)
    (hlast : here + byteLength above < span.2) :
    ∃ first inner line rest above' rest', above = first ++ inner ∧ below = line ++ rest ∧
      here + byteLength first = span.1 ∧ here + byteLength (above ++ line) = span.2 ∧ AtEnd rest ∧
      masked = above' ++ (blanked false line ++ rest') ∧ byteLength above' = byteLength above ∧
      rest.head? = rest'.head? := by
  induction h generalizing above with
  | done => cases hspan
  | @statement here gap body rest masked spans hatEnd hrest ih =>
    rcases List.mem_cons.1 hspan with rfl | hlater
    · -- The line starts inside the first statement.
      have hgap : byteLength gap ≤ byteLength above := by
        simp only at hfirst
        omega
      rw [List.append_assoc] at htext
      obtain ⟨inner, rfl, htail⟩ := exists_append_of_byteLength_le htext hgap
      have hinner : byteLength inner ≤ byteLength ("print".toList ++ body) := by
        simp only [byteLength_append] at hlast ⊢
        omega
      obtain ⟨line, hbody, rfl⟩ := exists_append_of_byteLength_le htail.symm hinner
      have hne : inner ≠ [] := by
        rintro rfl
        rw [List.append_nil] at hfirst
        omega
      have hblank := blankStatement_append (habove.of_append gap) hne hbody
      refine ⟨gap, inner, line, rest, gap ++ blankStatement inner, masked, rfl, rfl, rfl, ?_,
        hatEnd, ?_, ?_, ?_⟩
      · rw [hbody, List.append_assoc]
      · rw [hblank.1]
        simp only [List.append_assoc]
      · rw [byteLength_append, hblank.2, byteLength_append]
      · exact hrest.sameUpToWord.head?_eq
    · -- It starts inside a later one.
      have hle : byteLength (gap ++ ("print".toList ++ body)) ≤ byteLength above := by
        have := hrest.le_of_mem hlater
        omega
      obtain ⟨above₂, rfl, hrest'⟩ := exists_append_of_byteLength_le htext hle
      have hplace : here + byteLength (gap ++ ("print".toList ++ body) ++ above₂) =
          here + byteLength (gap ++ ("print".toList ++ body)) + byteLength above₂ := by
        rw [byteLength_append _ above₂, Nat.add_assoc]
      rw [hplace] at hfirst hlast
      obtain ⟨first, inner, line, tail, above', tail', rfl, rfl, hstart, hline, htail, rfl,
          hlength, hhead⟩ :=
        ih hrest' (habove.of_append _) hlater hfirst hlast
      refine ⟨gap ++ ("print".toList ++ body) ++ first, inner, line, tail,
        gap ++ blankStatement ("print".toList ++ body) ++ above', tail',
        (List.append_assoc _ _ _).symm, rfl, ?_, ?_, htail, ?_, ?_, hhead⟩
      · rw [← hstart, byteLength_append _ first, Nat.add_assoc]
      · rw [← hline]
        simp only [byteLength_append]
        omega
      · simp only [List.append_assoc]
      · rw [byteLength_append, byteLength_append, byteLength_blankStatement, hlength,
          ← byteLength_append, ← byteLength_append]

end MaskedAs

end PythonLint
