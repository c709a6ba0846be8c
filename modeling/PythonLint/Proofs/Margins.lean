import Mathlib.Data.List.DropRight
import PythonLint.Check.Indentation
import PythonLint.Proofs.StatementOrder

/-!
# The columns of open blocks

Blocks are found by counting the characters of margins, while their columns are counted with eight
for a tab. The columns that open blocks have added are always those of the indentation that opened
the innermost one. They are the columns of the statement that is read, and every block adds at least
one, exactly if the margin of each statement compares in columns with the margins of the blocks open
before it as it does in characters. This is about statements that start plainly, right after the
blanks of a physical line.

Main statements: `level_of_startsPlainly`, `comparesByColumns_iff`,
`totalAdded_eq_indentationWidth`.
-/

namespace PythonLint

open Text

variable {level : Level} {change : LineChange} {inner : List (List Char)}
  {above before line margin rest text : List Char} {levels : List Level} {tail : List Piece}
  {statements : List Statement} {tokens : List Token} {n : Nat} {statement : Statement}
      {token : Token}

/-! ### Levels -/

theorem Level.eq_of_compare {a b : Level} (h : a.compare b = some .eq) : a = b := by
  obtain ⟨tabs, spaces⟩ := a
  obtain ⟨tabs', spaces'⟩ := b
  unfold compare at h
  simp only at h
  split at h
  · split at h <;> cases h
  split at h
  · split at h <;> cases h
  split at h
  · cases h
  split at h
  · cases h
  · rw [Level.mk.injEq]
    omega

/-- A level of spaces is deeper than another when it has more of them. -/
theorem Level.lt_of_compare {m : Nat} (h : Level.compare ⟨0, m⟩ ⟨0, n⟩ = some .gt) : n < m := by
  unfold compare at h
  simp only [Nat.lt_irrefl, if_false] at h
  split at h
  · cases h
  split at h
  · assumption
  · cases h

theorem closeLevels_eq_ok {inner : List Level} {count : Nat}
    (h : closeLevels level levels = .ok (count, inner)) :
    count ≤ levels.length ∧ inner = levels.drop count ∧ level = currentLevel inner := by
  induction levels generalizing count with
  | nil =>
    unfold closeLevels at h
    split at h
    · next hcompare =>
      cases h
      exact ⟨Nat.le_refl 0, rfl, Level.eq_of_compare hcompare⟩
    · cases h
    · cases h
  | cons current outer ih =>
    unfold closeLevels at h
    split at h
    · obtain ⟨⟨count, inner⟩, hclose, heq⟩ := exists_of_map_eq_ok h
      cases heq
      obtain ⟨hle, hinner⟩ := ih hclose
      exact ⟨Nat.succ_le_succ hle, hinner⟩
    · next hcompare =>
      cases h
      exact ⟨Nat.zero_le _, rfl, Level.eq_of_compare hcompare⟩
    · cases h
    · cases h

/-- All that the start of a line can do to the open levels. -/
theorem enterLine_eq_ok {inner : List Level} (h : enterLine level levels = .ok (change, inner)) :
    (change = .same ∧ inner = levels ∧ level = currentLevel levels) ∨
      (change = .opens ∧ inner = level :: levels ∧ level.compare (currentLevel levels) = some .gt) ∨
      ∃ count, change = .closes count ∧ count ≤ levels.length ∧ inner = levels.drop count ∧
        level = currentLevel inner := by
  unfold enterLine at h
  split at h
  · cases h
  · next hcompare =>
    cases h
    exact .inl ⟨rfl, rfl, Level.eq_of_compare hcompare⟩
  · next hcompare =>
    cases h
    exact .inr (.inl ⟨rfl, rfl, hcompare⟩)
  · obtain ⟨result, hclose, heq⟩ := exists_of_map_eq_ok h
    cases heq
    exact .inr (.inr ⟨_, rfl, closeLevels_eq_ok hclose⟩)

/-! ### The start of a physical line -/

/-- The blanks at the start of a physical line. -/
def marginOf (text : List Char) (line : Nat) : List Char :=
  (((lines text)[line - 1]?).getD []).takeWhile isSpacing

/-- The part of a line before its last blanks is where the scanner starts a line: empty or a byte
order mark, or it ends with a carriage return. -/
def opensLine (front : List Char) : Bool :=
  front = [] || front = ['\ufeff'] || front.getLast? = some '\r'

/-- The line is joined to the next one before any code: only blanks stand before the backslash at
its end. A backslash that ends a comment joins nothing. -/
def joinsNext (line : List Char) : Bool :=
  line.getLast? = some '\\' && opensLine (line.dropLast.rdropWhile isSpacing)

/-- Code starts plainly, right after the blanks of its physical line, none of which is a form feed,
and the line above is not joined to it. -/
structure StartsPlainly (text : List Char) (here : Location) : Prop where
  column_eq : here.column = (marginOf text here.line).length
  no_formFeed : '\x0c' ∉ marginOf text here.line
  not_joined : 2 ≤ here.line → ∀ above ∈ (lines text)[here.line - 2]?, joinsNext above = false

/-- Before code that starts plainly there are only tabs and spaces on its line, and those are its
margin. -/
theorem StartsPlainly.line_eq (habove : StartsLine above) (hline : '\n' ∉ line)
    (h : StartsPlainly (above ++ line ++ rest) (Location.origin.after (above ++ line))) :
    marginOf (above ++ line ++ rest) (Location.origin.after (above ++ line)).line = line ∧
      ∀ c ∈ line, c = ' ' ∨ c = '\t' := by
  have hmargin : marginOf (above ++ line ++ rest) (Location.origin.after (above ++ line)).line <+:
      line ++ rest := by
    rw [marginOf, getElem?_lines habove hline]
    exact (List.takeWhile_prefix _).trans (head?_lines_isPrefix _)
  have hlength := h.column_eq
  rw [column_after habove hline] at hlength
  have heq : marginOf (above ++ line ++ rest)
      (Location.origin.after (above ++ line)).line = line := by
    refine List.IsPrefix.eq_of_length ?_ hlength.symm
    exact List.prefix_of_prefix_length_le hmargin (List.prefix_append line rest)
      (Nat.le_of_eq hlength.symm)
  refine ⟨heq, fun c hc => ?_⟩
  have hfeed := h.no_formFeed
  rw [heq] at hfeed
  have hspacing : isSpacing c = true := by
    rw [← heq] at hc
    exact List.mem_takeWhile_imp hc
  simp only [isSpacing, Bool.or_eq_true, decide_eq_true_eq] at hspacing
  rcases hspacing with (hc' | hc') | rfl
  · exact .inl hc'
  · exact .inr hc'
  · exact absurd hc hfeed

/-! ### Measured margins -/

/-- At the start of a line, tabs and spaces become spaces. -/
theorem untabifyFrom_blanks (h : ∀ c ∈ line, c = ' ' ∨ c = '\t') (rest : List Char) :
    untabifyFrom true (line ++ rest) =
      List.replicate line.length ' ' ++ untabifyFrom true rest := by
  induction line with
  | nil => rfl
  | cons c line ih =>
    obtain ⟨hc, hline⟩ := List.forall_mem_cons.1 h
    rw [List.cons_append, List.length_cons, List.replicate_succ, List.cons_append, ← ih hline,
      untabifyFrom]
    rcases hc with rfl | rfl
    · rfl
    · rfl

/-- The copy of a line that has only tabs and spaces before its code. -/
theorem untabify_append (habove : StartsLine above) (hline : ∀ c ∈ line, c = ' ' ∨ c = '\t')
    (rest : List Char) :
    ∃ above', untabify (above ++ line ++ rest) =
      above' ++ List.replicate line.length ' ' ++ untabify rest ∧
      StartsLine above' ∧ List.Forall₂ SameOrTab above above' := by
  rcases habove with rfl | ⟨init, rfl⟩
  · refine ⟨[], ?_, .inl rfl, .nil⟩
    rw [untabify_eq_untabifyFrom, untabify_eq_untabifyFrom]
    exact untabifyFrom_blanks hline rest
  · refine ⟨untabify init ++ ['\n'], ?_, .inr ⟨_, rfl⟩, ?_⟩
    · simp only [untabify_eq_untabifyFrom, List.append_assoc, List.cons_append, List.nil_append,
        untabifyFrom_lineFeed, untabifyFrom_blanks hline]
    · exact List.rel_append (untabify_sameOrTab init) (.cons (.inl rfl) .nil)

/-- The last blanks of a text are told apart by the line feed before them and by what is measured
alike. -/
theorem eq_of_append_spaces {a b blanks : List Char} (h : a ++ blanks = b ++ List.replicate n ' ')
    (ha : a.getLast? ≠ some ' ') (hb : StartsLine b) (hblanks : '\n' ∉ blanks) :
    blanks = List.replicate n ' ' := by
  rcases List.append_eq_append_iff.1 h with ⟨w, rfl, hw⟩ | ⟨w, rfl, hw⟩
  · -- What is left of `b` would end with a line feed among the blanks.
    rcases List.eq_nil_or_concat w with rfl | ⟨init, c, rfl⟩
    · exact hw
    · rw [List.concat_eq_append] at hb hw
      rcases hb with hnil | ⟨start, hstart⟩
      · simp at hnil
      · rw [← List.append_assoc] at hstart
        have hc : c = '\n' := List.singleton_inj.1 (List.append_inj_right' hstart rfl)
        exact absurd (by simp [hw, hc]) hblanks
  · rcases List.eq_nil_or_concat w with rfl | ⟨init, c, rfl⟩
    · exact hw.symm
    · rw [List.concat_eq_append] at ha hw
      have hc : c = ' ' := by
        refine List.eq_of_mem_replicate (n := n) ?_
        rw [hw]
        simp
      rw [hc, ← List.append_assoc, List.getLast?_concat] at ha
      exact absurd rfl ha

theorem StartsLine.exists_concat {init : List Char} {c : Char} (habove : StartsLine above)
    (hc : c ≠ '\n') (h : above ++ line = init ++ [c]) :
    ∃ line', line = line' ++ [c] ∧ above ++ line' = init := by
  rcases List.eq_nil_or_concat line with rfl | ⟨line', d, rfl⟩
  · rw [List.append_nil] at h
    rcases habove with rfl | ⟨start, rfl⟩
    · simp at h
    · exact absurd (List.singleton_inj.1 (List.append_inj_right' h rfl)).symm hc
  · rw [List.concat_eq_append, ← List.append_assoc] at h
    obtain ⟨hinit, hlast⟩ := List.append_inj' h rfl
    exact ⟨line', by rw [List.concat_eq_append, hlast], hinit⟩

/-- The scanner starts a line after the text. -/
def LineStarts (before : List Char) : Prop :=
  before = [] ∨ before = ['\ufeff'] ∨ EndsLine before

theorem LineStarts.of_sameOrTab {before' : List Char} (h : LineStarts before')
    (hsame : List.Forall₂ SameOrTab before before') : LineStarts before := by
  rcases h with rfl | rfl | ⟨init, c, rfl, hc⟩
  · cases hsame
    exact .inl rfl
  · exact .inr (.inl (eq_of_sameOrTab hsame (by decide)))
  · obtain ⟨init', last, rfl, -, hlast⟩ := exists_append_of_forall₂ hsame
    have hspace : ' ' ∉ [c] := by
      rw [List.mem_singleton]
      rintro rfl
      cases hc
    exact .inr (.inr ⟨init', c, by rw [eq_of_sameOrTab hlast hspace], hc⟩)

theorem LineStarts.getLast?_ne_space (h : LineStarts before) : before.getLast? ≠ some ' ' := by
  rcases h with rfl | rfl | ⟨init, c, rfl, hc⟩
  · exact nofun
  · exact fun h => by cases h
  · rw [List.getLast?_concat]
    rintro ⟨⟩
    cases hc

theorem isSpacing_of_sameOrTab {a b : List Char} (h : List.Forall₂ SameOrTab a b)
    (hb : ∀ c ∈ b, isSpacing c = true) : ∀ c ∈ a, isSpacing c = true := by
  induction h with
  | nil => exact List.forall_mem_nil _
  | cons hcd _ ih =>
    obtain ⟨hd, hb⟩ := List.forall_mem_cons.1 hb
    refine List.forall_mem_cons.2 ⟨?_, ih hb⟩
    rcases hcd with rfl | ⟨rfl, -⟩
    · exact hd
    · rfl

/-- The part of a physical line before a place where the scanner starts a line. -/
theorem LineStarts.opensLine (h : LineStarts (above ++ line)) (habove : StartsLine above)
    (hline : '\n' ∉ line) : opensLine line = true := by
  have hlast : ∀ {init c}, above ++ line = init ++ [c] → c ≠ '\n' → line.getLast? = some c := by
    intro init c heq hc
    obtain ⟨line', rfl, -⟩ := habove.exists_concat hc heq
    exact List.getLast?_concat
  rcases h with h | h | ⟨init, c, h, hc⟩
  · rw [(List.append_eq_nil_iff.1 h).2]
    rfl
  · have hmark := hlast (h.trans (List.nil_append _).symm) (by decide)
    have hlength := congrArg List.length h
    rcases line with _ | ⟨d, _ | ⟨e, line⟩⟩
    · cases hmark
    · cases hmark
      rfl
    · simp at hlength
      omega
  · rcases List.eq_nil_or_concat line with rfl | ⟨line', d, rfl⟩
    · rfl
    · rw [List.concat_eq_append, ← List.append_assoc] at h
      obtain rfl : d = c := List.singleton_inj.1 (List.append_inj_right' h rfl)
      have hreturn : d = '\r' := by
        simp only [isLineEnd, Bool.or_eq_true, decide_eq_true_eq] at hc
        refine hc.resolve_left ?_
        rintro rfl
        exact hline (by simp)
      simp [opensLine, hreturn]

/-- Blanks are dropped from the end of a line down to where the scanner starts one. -/
theorem joinsNext_append {front blanks : List Char} (hfront : opensLine front = true)
    (hblanks : ∀ c ∈ blanks, isSpacing c = true) :
    joinsNext (front ++ blanks ++ ['\\']) = true := by
  have hdrop : (front ++ blanks).rdropWhile isSpacing = front := by
    rw [List.rdropWhile, List.reverse_append, List.dropWhile_append_of_pos (by simpa using hblanks)]
    refine List.rdropWhile_eq_self_iff.2 fun hne => ?_
    simp only [opensLine, Bool.or_eq_true, decide_eq_true_eq] at hfront
    rcases hfront with (rfl | rfl) | hlast
    · exact absurd rfl hne
    · exact Bool.false_ne_true
    · rw [List.getLast?_eq_some_getLast hne, Option.some.injEq] at hlast
      rw [hlast]
      decide
  rw [joinsNext, List.getLast?_concat, List.dropLast_concat, hdrop, hfront]
  rfl

/-- Code does not start plainly after a line that a backslash joins to its own. -/
theorem not_startsPlainly_of_backslash {front blanks word : List Char} (hline : '\n' ∉ line)
    (hfront : LineStarts front) (hblanks : ∀ c ∈ blanks, isSpacing c = true)
    (hword : word = ['\\'] ∨ word = ['\\', '\r']) :
    ¬StartsPlainly (front ++ blanks ++ word ++ ['\n'] ++ line ++ rest)
      (Location.origin.after (front ++ blanks ++ word ++ ['\n'] ++ line)) := by
  obtain ⟨start, first, rfl, hstart, hfirst⟩ := exists_startsLine front
  have hopens := hfront.opensLine hstart hfirst
  obtain ⟨joined, hjoined⟩ : ∃ joined, joined = first ++ blanks ++ word := ⟨_, rfl⟩
  have hassoc : start ++ first ++ blanks ++ word = start ++ joined := by
    rw [hjoined]
    simp only [List.append_assoc]
  have hfeed : '\n' ∉ joined := by
    simp only [hjoined, List.mem_append, not_or]
    refine ⟨⟨hfirst, fun hmem => by cases hblanks _ hmem⟩, ?_⟩
    rcases hword with rfl | rfl <;> decide
  rw [hassoc]
  intro h
  have hline' : (Location.origin.after (start ++ joined ++ ['\n'] ++ line)).line =
      (Location.origin.after (start ++ joined)).line + 1 := by
    rw [List.append_assoc, List.singleton_append, Location.after_lineFeed _ _ hline,
      Location.after_line]
  have hone := Location.one_le_line_after (start ++ joined)
  have hfound : (lines (start ++ joined ++ ['\n'] ++ line ++ rest))[(Location.origin.after
      (start ++ joined ++ ['\n'] ++ line)).line - 2]? = some (dropReturn joined) := by
    have hfirst := getElem?_lines hstart hfeed (['\n'] ++ line ++ rest)
    have hindex : (Location.origin.after (start ++ joined ++ ['\n'] ++ line)).line - 2 =
        (Location.origin.after (start ++ joined)).line - 1 := by omega
    rw [hindex]
    simp only [List.append_assoc, List.cons_append] at hfirst ⊢
    rw [hfirst, lines_lineFeed hfeed, List.head?_cons]
  have hdropped : dropReturn joined = first ++ blanks ++ ['\\'] := by
    rcases hword with rfl | rfl
    · rw [hjoined, dropReturn, List.getLast?_concat, if_neg (by decide)]
    · have hlast : joined = first ++ blanks ++ ['\\'] ++ ['\r'] := by simp [hjoined]
      rw [hlast, dropReturn, List.getLast?_concat, if_pos rfl, List.dropLast_concat]
  have hplain := h.not_joined (by omega) _ hfound
  rw [hdropped, joinsNext_append hopens hblanks] at hplain
  cases hplain

/-- A gap before code is either empty or ends with a joined line, when only spaces stand before the
code. -/
theorem exists_joined_of_gap {gap : List Char}
    (h : before ++ margin ++ gap = above ++ List.replicate n ' ') (hbefore : LineStarts before)
    (hmargin : Measures margin level) (habove : StartsLine above) (hgap : JoinsLines gap)
    (hhead : gap.head? = some '\\') :
    ∃ front blanks word, above = front ++ blanks ++ (word ++ ['\n']) ∧ LineStarts front ∧
      (∀ c ∈ blanks, isSpacing c = true) ∧ (word = ['\\'] ∨ word = ['\\', '\r']) := by
  have hmem : '\\' ∈ gap := List.mem_of_head? hhead
  rcases List.append_eq_append_iff.1 h with ⟨w, rfl, hw⟩ | ⟨w, -, hw⟩
  · rcases List.eq_nil_or_concat w with rfl | ⟨w', c, rfl⟩
    · rw [hw] at hmem
      exact absurd (List.eq_of_mem_replicate hmem) (by decide)
    · rw [List.concat_eq_append] at habove hw ⊢
      obtain rfl : c = '\n' := by
        rcases habove with hnil | ⟨start, hstart⟩
        · simp at hnil
        · rw [← List.append_assoc] at hstart
          exact List.singleton_inj.1 (List.append_inj_right' hstart rfl)
      rw [List.append_assoc, List.singleton_append] at hw
      obtain ⟨front, blanks, word, hjoined, hfront | hfront, hblanks, hword⟩ := hgap w' _ hw
      · -- The gap starts with the backslash, and the margin stands before it.
        have hnil : blanks = [] := by
          cases blanks with
          | nil => rfl
          | cons d blanks =>
            rw [hw, hjoined, hfront] at hhead
            cases hhead
            cases hblanks _ List.mem_cons_self
        obtain ⟨a, b, rfl, ha, hb, -⟩ := hmargin
        have hspacing := List.forall_mem_append.2
          ⟨hb, fun _ hc => @isSpacing_of_mem_level _ level hc⟩
        rw [hjoined, hfront, hnil]
        rcases ha with rfl | ha
        · exact ⟨before, _, word, by simp only [List.append_assoc, List.nil_append], hbefore,
            hspacing, hword⟩
        · exact ⟨before ++ a, _, word, by simp only [List.append_assoc, List.nil_append],
            .inr (.inr (ha.append before)), hspacing, hword⟩
      · refine ⟨before ++ margin ++ front, blanks, word, ?_, .inr (.inr (hfront.append _)),
          hblanks, hword⟩
        rw [hjoined]
        simp only [List.append_assoc]
  · have hspace : '\\' ∈ List.replicate n ' ' := by
      rw [hw]
      exact List.mem_append_right _ hmem
    exact absurd (List.eq_of_mem_replicate hspace) (by decide)

theorem eq_of_replicate_append
    (h : List.replicate level.tabs '\t' ++ List.replicate level.spaces ' ' = List.replicate n ' ') :
    level = ⟨0, n⟩ := by
  obtain ⟨tabs, spaces⟩ := level
  have htabs : tabs = 0 := by
    by_contra hne
    have hmem : '\t' ∈ List.replicate n ' ' := by
      rw [← h]
      exact List.mem_append_left _ (List.mem_replicate.2 ⟨hne, rfl⟩)
    exact absurd (List.eq_of_mem_replicate hmem) (by decide)
  have hlength := congrArg List.length h
  simp only [List.length_append, List.length_replicate] at hlength
  rw [Level.mk.injEq]
  omega

/-- A statement that starts plainly is not joined to a line above, and its level counts the
characters of its margin. -/
theorem level_of_startsPlainly {gap code : List Char}
    (hcopy : untabify text = before ++ margin ++ gap ++ code) (hbefore : LineStarts before)
    (hmargin : Measures margin level) (hgap : JoinsLines gap)
    (hjoined : gap = [] ∨ gap.head? = some '\\')
    (h : StartsPlainly text (Location.origin.after (before ++ margin ++ gap))) :
    gap = [] ∧
    level = ⟨0, (marginOf text (Location.origin.after (before ++ margin ++ gap)).line).length⟩ := by
  have hsame := untabify_sameOrTab text
  rw [hcopy] at hsame
  obtain ⟨place, rest, rfl, hplace, hrest⟩ := exists_append_of_forall₂ hsame
  rw [← Location.after_of_sameOrTab hplace] at h ⊢
  obtain ⟨above, line, rfl, habove, hline⟩ := exists_startsLine place
  obtain ⟨hmarginOf, hblanks⟩ := h.line_eq habove hline
  obtain ⟨above', hcopied, habove', hsameAbove⟩ := untabify_append habove hblanks rest
  -- The copy of the place ends with as many spaces as the line has characters before its code.
  have hspaces : before ++ margin ++ gap = above' ++ List.replicate line.length ' ' := by
    rw [hcopy] at hcopied
    refine (List.append_inj hcopied ?_).1
    rw [← hplace.length_eq, List.length_append, List.length_append, List.length_replicate,
      hsameAbove.length_eq]
  have hnil : gap = [] := by
    rcases hjoined with hnil | hhead
    · exact hnil
    · obtain ⟨front, blanks, word, hfront, hstarts, hspacing, hword⟩ :=
        exists_joined_of_gap hspaces hbefore hmargin habove' hgap hhead
      rw [hfront] at hsameAbove
      obtain ⟨above₁, joined, rfl, hsameFront, hsameJoined⟩ := exists_append_of_forall₂ hsameAbove
      obtain ⟨front', blanks', rfl, hsameFront, hsameBlanks⟩ := exists_append_of_forall₂ hsameFront
      have hnoSpace : ' ' ∉ word ++ ['\n'] := by rcases hword with rfl | rfl <;> decide
      rw [eq_of_sameOrTab hsameJoined hnoSpace, ← List.append_assoc] at h
      exact absurd h (not_startsPlainly_of_backslash hline (hstarts.of_sameOrTab hsameFront)
        (isSpacing_of_sameOrTab hsameBlanks hspacing) hword)
  subst hnil
  rw [List.append_nil] at hspaces
  obtain ⟨a, b, rfl, ha, -, hb⟩ := hmargin
  have hlast : (before ++ (a ++ b)).getLast? ≠ some ' ' := by
    rcases hb with rfl | hb
    · rw [List.append_nil]
      rcases ha with rfl | ha
      · rw [List.append_nil]
        exact hbefore.getLast?_ne_space
      · exact LineStarts.getLast?_ne_space (.inr (.inr (ha.append before)))
    · rw [← List.append_assoc, List.getLast?_append, hb]
      exact fun h => by cases h
  have hmeasured :=
    eq_of_append_spaces (by rwa [← List.append_assoc] at hspaces) hlast habove' (by simp)
  refine ⟨rfl, ?_⟩
  rw [hmarginOf]
  exact eq_of_replicate_append hmeasured

/-! ### Margins of open blocks -/

/-- The level of a margin without tabs. -/
def plainLevel (margin : List Char) : Level :=
  ⟨0, margin.length⟩

/-- What a line with the given margin does to the margins of the open blocks, innermost first. -/
def Enters (margin : List Char) (margins : List (List Char)) (inner : List (List Char)) :
    LineChange → Prop
  | .same => inner = margins ∧ margin.length = (inner.headD []).length
  | .opens => inner = margin :: margins ∧ (margins.headD []).length < margin.length
  | .closes count => inner = margins.drop count ∧ margin.length = (inner.headD []).length

/-- The statements start inside blocks with the given margins, and open and close blocks by their
own. -/
inductive Nested (text : List Char) : (margins : List (List Char)) → List Statement → Prop
  | nil (margins : List (List Char)) : Nested text margins []
  | cons {margins inner : List (List Char)} {statement : Statement} {later : List Statement}
      (hstart : statement.margin = statement.start)
      (henters : Enters (marginOf text statement.start.line) margins inner statement.change)
      (hlater : Nested text inner later) : Nested text margins (statement :: later)

theorem currentLevel_map (margins : List (List Char)) :
    currentLevel (margins.map plainLevel) = plainLevel (margins.headD []) := by
  cases margins with
  | nil => rfl
  | cons margin margins => rfl

theorem exists_enters {margins : List (List Char)} {inner : List Level}
    (h : enterLine (plainLevel margin) (margins.map plainLevel) = .ok (change, inner)) :
    ∃ margins', inner = margins'.map plainLevel ∧ Enters margin margins margins' change := by
  have hlength : ∀ {a b : List Char}, plainLevel a = plainLevel b → a.length = b.length :=
    fun h => congrArg Level.spaces h
  rcases enterLine_eq_ok h with ⟨rfl, rfl, hlevel⟩ | ⟨rfl, rfl, hcompare⟩ | ⟨count, rfl, -,
    rfl, hlevel⟩
  · rw [currentLevel_map] at hlevel
    exact ⟨margins, rfl, rfl, hlength hlevel⟩
  · rw [currentLevel_map] at hcompare
    exact ⟨margin :: margins, rfl, rfl, Level.lt_of_compare hcompare⟩
  · rw [← List.map_drop, currentLevel_map] at hlevel
    exact ⟨margins.drop count, by rw [List.map_drop], rfl, hlength hlevel⟩

/-- Statements that start plainly are nested by the lengths of their margins. -/
theorem nested_of_stacked (h : Stacked text levels before rest statements tail)
    (hcopy : untabify text = before ++ rest) (hbefore : LineStarts before)
    (hplain : ∀ statement ∈ statements, StartsPlainly text statement.start)
    {margins : List (List Char)} (hlevels : levels = margins.map plainLevel) :
    Nested text margins statements := by
  induction h generalizing margins with
  | done => exact .nil margins
  | @line levels inner before margin gap body ending rest level statement later tail hmargin henter
      hgap hjoined hcode
      hending hatEnd hvalid hmarginAt hstartAt hstopAt hlexeme hline hrest ih =>
    obtain ⟨hfirst, hothers⟩ := List.forall_mem_cons.1 hplain
    have hsplit : untabify text = before ++ margin ++ gap ++ (body ++ ending ++ rest) := by
      rw [hcopy]
      simp only [List.append_assoc]
    rw [hstartAt] at hfirst
    obtain ⟨hnil, hlevel⟩ := level_of_startsPlainly hsplit hbefore hmargin hgap hjoined hfirst
    rw [← hstartAt] at hlevel
    have henter' : enterLine (plainLevel (marginOf text statement.start.line))
      (margins.map plainLevel) =
        .ok (statement.change, inner) := by
      rw [← hlevels, ← henter, hlevel]
      rfl
    obtain ⟨margins', hinner, henters⟩ := exists_enters henter'
    refine .cons ?_ henters ?_
    · rw [hmarginAt, hstartAt, hnil, List.append_nil]
    · by_cases hne : ending = []
      · rw [(inSequence_of_stacked hrest).2.2 (hatEnd hne)]
        exact .nil margins'
      · refine ih ?_ (.inr (.inr ((hending.endsLine hne).append _))) hothers hinner
        rw [hcopy]
        simp only [List.append_assoc]

/-! ### Columns of open blocks -/

/-- The margins of the open blocks, innermost first, after a token. -/
def marginsAfter (margins : List (List Char)) (token : Token) : List (List Char) :=
  match token.kind with
  | .indent => token.lexeme.toList :: margins
  | .dedent => margins.tail
  | _ => margins

/-- The columns that blocks with the given margins have added, innermost first. -/
def openedBy : (margins : List (List Char)) → List Int
  | [] => []
  | margin :: outer =>
    (indentationWidth margin - indentationWidth (outer.headD []) : Int) :: openedBy outer

/-- Together open blocks have added the columns of the innermost margin. -/
theorem totalAdded_openedBy (margins : List (List Char)) :
    totalAdded (openedBy margins) = indentationWidth (margins.headD []) := by
  induction margins with
  | nil => rfl
  | cons margin outer ih =>
    have hcons : totalAdded (openedBy (margin :: outer)) =
        (indentationWidth margin - indentationWidth (outer.headD []) : Int) +
          totalAdded (openedBy outer) := rfl
    rw [hcons, ih, List.headD_cons]
    omega

theorem blocksAfter_openedBy (margins : List (List Char)) (token : Token) :
    blocksAfter (openedBy margins) token = openedBy (marginsAfter margins token) := by
  unfold blocksAfter marginsAfter
  cases token.kind with
  | indent => rw [openedBy, totalAdded_openedBy]
  | dedent => cases margins <;> rfl
  | _ => rfl

theorem foldl_blocksAfter_openedBy (margins : List (List Char)) (tokens : List Token) :
    tokens.foldl blocksAfter (openedBy margins) = openedBy (tokens.foldl marginsAfter margins) := by
  induction tokens generalizing margins with
  | nil => rfl
  | cons token tokens ih => rw [List.foldl_cons, List.foldl_cons, blocksAfter_openedBy, ih]

/-- The columns that open blocks have added are those of the indentation that opened the innermost
one. -/
theorem totalAdded_foldl (tokens : List Token) :
    totalAdded (tokens.foldl blocksAfter []) =
      indentationWidth ((tokens.foldl marginsAfter []).headD []) := by
  rw [← totalAdded_openedBy, ← foldl_blocksAfter_openedBy, openedBy]

theorem marginsAfter_of_code {margins : List (List Char)}
    (h : token.kind ≠ .indent ∧ token.kind ≠ .dedent) : marginsAfter margins token = margins := by
  unfold marginsAfter
  split
  · next hindent => exact absurd hindent h.1
  · next hdedent => exact absurd hdedent h.2
  · rfl

theorem foldl_marginsAfter_of_code {margins : List (List Char)}
    (h : ∀ token ∈ tokens, token.kind ≠ .indent ∧ token.kind ≠ .dedent) :
    tokens.foldl marginsAfter margins = margins := by
  induction tokens with
  | nil => rfl
  | cons token tokens ih =>
    obtain ⟨hfirst, hothers⟩ := List.forall_mem_cons.1 h
    rw [List.foldl_cons, marginsAfter_of_code hfirst, ih hothers]

theorem foldl_marginsAfter_of_dedents {margins : List (List Char)}
    (h : ∀ token ∈ tokens, token.kind = .dedent) :
    tokens.foldl marginsAfter margins = margins.drop tokens.length := by
  induction tokens generalizing margins with
  | nil => rfl
  | cons token tokens ih =>
    obtain ⟨hfirst, hothers⟩ := List.forall_mem_cons.1 h
    have hafter : marginsAfter margins token = margins.tail := by rw [marginsAfter, hfirst]
    rw [List.foldl_cons, hafter, ih hothers, List.length_cons, ← List.drop_one, List.drop_drop,
      Nat.add_comm]

/-- A property holds of every token and the margins of the blocks that are open before it. -/
def Throughout (property : List (List Char) → Token → Prop) (margins : List (List Char)) :
    List Token → Prop
  | [] => True
  | token :: rest => property margins token ∧ Throughout property (marginsAfter margins token) rest

theorem throughout_append {property : List (List Char) → Token → Prop} {margins : List (List Char)}
    {a b : List Token} :
    Throughout property margins (a ++ b) ↔
      Throughout property margins a ∧ Throughout property (a.foldl marginsAfter margins) b := by
  induction a generalizing margins with
  | nil => exact ⟨fun h => ⟨trivial, h⟩, fun h => h.2⟩
  | cons token a ih =>
    rw [List.cons_append, Throughout, Throughout, ih, List.foldl_cons, and_assoc]

theorem throughout_of_forall {property : List (List Char) → Token → Prop}
    {margins : List (List Char)} (h : ∀ token ∈ tokens, ∀ margins, property margins token) :
    Throughout property margins tokens := by
  induction tokens generalizing margins with
  | nil => exact trivial
  | cons token tokens ih =>
    obtain ⟨hfirst, hothers⟩ := List.forall_mem_cons.1 h
    exact ⟨hfirst margins, ih hothers⟩

theorem throughout_iff {property : List (List Char) → Token → Prop} {margins : List (List Char)} :
    Throughout property margins tokens ↔
      ∀ before token after, tokens = before ++ token :: after →
        property (before.foldl marginsAfter margins) token := by
  refine ⟨fun h before token after hsplit => ?_, fun h => ?_⟩
  · rw [hsplit, throughout_append] at h
    exact h.2.1
  · induction tokens generalizing margins with
    | nil => exact trivial
    | cons token tokens ih =>
      refine ⟨h [] token tokens rfl, ih fun before other after hsplit => ?_⟩
      exact h (token :: before) other after (by rw [hsplit, List.cons_append])

/-- The innermost open block has the columns of the statement of a newline, and fewer than an
indentation. -/
def AddsColumns (text : List Char) (margins : List (List Char)) (token : Token) : Prop :=
  (token.kind = .newline →
      indentationWidth (margins.headD []) = indentationWidth (marginOf text token.range.first)) ∧
    (token.kind = .indent → indentationWidth (margins.headD []) <
      indentationWidth token.lexeme.toList)

theorem addsColumns_of_kind {margins : List (List Char)} (hnewline : token.kind ≠ .newline)
    (hindent : token.kind ≠ .indent) : AddsColumns text margins token :=
  ⟨fun h => absurd h hnewline, fun h => absurd h hindent⟩

theorem addsColumns_foldl {before : List Token} :
    AddsColumns text (before.foldl marginsAfter []) token ↔
      (token.kind = .newline →
        totalAdded (before.foldl blocksAfter []) =
          indentationWidth (marginOf text token.range.first)) ∧
      (token.kind = .indent →
        totalAdded (before.foldl blocksAfter []) < indentationWidth token.lexeme.toList) := by
  rw [AddsColumns, totalAdded_foldl, Int.ofNat_inj, Int.ofNat_lt]

/-! ### Margins by characters and by columns -/

/-- Two margins compare in columns as they do in characters. -/
def SameOrder (a b : List Char) : Prop :=
  (a.length < b.length ↔ indentationWidth a < indentationWidth b) ∧
    (b.length < a.length ↔ indentationWidth b < indentationWidth a)

instance (a b : List Char) : Decidable (SameOrder a b) :=
  inferInstanceAs (Decidable (_ ∧ _))

/-- The margin of every statement compares in columns as in characters with the margins of the
blocks that are open before it; `opened` are those at the end of the last statement and `current`
those that are open now. -/
def ComparesByColumns (text : List Char) (opened current : List (List Char)) : List Token → Prop
  | [] => True
  | token :: rest =>
    if token.kind = .newline then
      (∀ margin ∈ opened, SameOrder (marginOf text token.range.first) margin) ∧
        ComparesByColumns text current current rest
    else ComparesByColumns text opened (marginsAfter current token) rest

theorem comparesByColumns_append {opened current : List (List Char)} {a b : List Token}
    (h : ∀ token ∈ a, token.kind ≠ .newline) :
    ComparesByColumns text opened current (a ++ b) ↔
      ComparesByColumns text opened (a.foldl marginsAfter current) b := by
  induction a generalizing current with
  | nil => rfl
  | cons token a ih =>
    obtain ⟨hfirst, hothers⟩ := List.forall_mem_cons.1 h
    rw [List.cons_append, ComparesByColumns, if_neg hfirst, ih hothers, List.foldl_cons]

theorem le_foldl_width (margin : List Char) (start : Nat) :
    start + margin.length ≤ margin.foldl (fun width c => width + if c = '\t' then 8 else 1)
      start := by
  induction margin generalizing start with
  | nil => exact Nat.le_refl _
  | cons c margin ih =>
    have h := ih (start + if c = '\t' then 8 else 1)
    have hc : 1 ≤ if c = '\t' then 8 else 1 := by split <;> omega
    rw [List.foldl_cons, List.length_cons]
    omega

theorem length_le_indentationWidth (margin : List Char) :
    margin.length ≤ indentationWidth margin := by
  have h := le_foldl_width margin 0
  rwa [Nat.zero_add] at h

/-- The second margin is that of a block around a block with the first. -/
def Deeper (a b : List Char) : Prop :=
  b.length < a.length ∧ indentationWidth b < indentationWidth a

/-- Each of some margins is deeper than those after it, and the last is deeper than no margin at
all. -/
def Deepens (margins : List (List Char)) : Prop :=
  (margins ++ [[]]).Pairwise Deeper

namespace Deepens

variable {margins : List (List Char)} {margin : List Char}

theorem drop (h : Deepens margins) (count : Nat) : Deepens (margins.drop count) := by
  refine List.Pairwise.sublist ?_ h
  exact (List.drop_sublist count margins).append_right [[]]

/-- All margins but the innermost are those of blocks around it. -/
theorem eq_or_deeper (h : Deepens margins) :
    ∀ outer ∈ margins ++ [[]], outer = margins.headD [] ∨ Deeper (margins.headD []) outer := by
  intro outer hmem
  cases margins with
  | nil => exact .inl (List.mem_singleton.1 hmem)
  | cons first rest =>
    obtain ⟨hfirst, -⟩ := List.pairwise_cons.1 h
    rcases List.mem_cons.1 hmem with rfl | hmem
    · exact .inl rfl
    · exact .inr (hfirst outer hmem)

/-- A margin with the length and the columns of the innermost one compares as that one does. -/
theorem sameOrder (h : Deepens margins) (hlength : margin.length = (margins.headD []).length)
    (hwidth : indentationWidth (margins.headD []) = indentationWidth margin) :
    ∀ outer ∈ margins, SameOrder margin outer := by
  intro outer hmem
  rw [SameOrder]
  rcases h.eq_or_deeper outer (List.mem_append_left _ hmem) with rfl | ⟨hshorter, hnarrower⟩
  · omega
  · omega

end Deepens

/-- A margin with the length of the innermost one has its columns as well, when the two compare
so. -/
theorem width_eq_of_sameOrder {margins : List (List Char)}
    (h : ∀ outer ∈ margins, SameOrder margin outer)
    (hlength : margin.length = (margins.headD []).length) :
    indentationWidth (margins.headD []) = indentationWidth margin := by
  cases margins with
  | nil =>
    rw [List.eq_nil_of_length_eq_zero hlength]
    rfl
  | cons first rest =>
    obtain ⟨hless, hgreater⟩ := h first List.mem_cons_self
    rw [List.headD_cons] at hlength ⊢
    omega

/-- A line keeps to the columns of open blocks exactly if its margin compares with theirs in columns
as in characters. -/
theorem sameOrder_iff {margins : List (List Char)} (hmargins : Deepens margins)
    (henters : Enters margin margins inner change) :
    (∀ outer ∈ margins, SameOrder margin outer) ↔
      indentationWidth (inner.headD []) = indentationWidth margin ∧
        (change = .opens → indentationWidth (margins.headD []) < indentationWidth margin) := by
  cases change with
  | same =>
    obtain ⟨rfl, hlength⟩ := henters
    refine ⟨fun h => ⟨width_eq_of_sameOrder h hlength, nofun⟩, fun h => ?_⟩
    exact hmargins.sameOrder hlength h.1
  | opens =>
    obtain ⟨rfl, hlength⟩ := henters
    refine ⟨fun h => ⟨rfl, fun _ => ?_⟩, fun h => ?_⟩
    · cases margins with
      | nil => exact Nat.lt_of_lt_of_le hlength (length_le_indentationWidth margin)
      | cons first rest => exact (h first List.mem_cons_self).2.1 hlength
    · have hwidth := h.2 rfl
      intro outer hmem
      rw [SameOrder]
      rcases hmargins.eq_or_deeper outer
        (List.mem_append_left _ hmem) with rfl | ⟨hshorter, hnarrower⟩
      · omega
      · omega
  | closes count =>
    obtain ⟨rfl, hlength⟩ := henters
    refine ⟨fun h => ⟨?_, nofun⟩, fun h outer hmem => ?_⟩
    · exact width_eq_of_sameOrder (fun outer hmem => h outer (List.mem_of_mem_drop hmem)) hlength
    · rw [← List.take_append_drop count margins, List.mem_append] at hmem
      rcases hmem with hclosed | hopen
      · -- A block that the line closes is deeper than the one that it goes back to.
        have hcross : ∀ other ∈ margins.drop count ++ [[]], Deeper outer other := by
          have hsplit : (margins.take count ++ (margins.drop count ++ [[]])).Pairwise Deeper := by
            rw [← List.append_assoc, List.take_append_drop]
            exact hmargins
          intro other hother
          exact (List.pairwise_append.1 hsplit).2.2 outer hclosed other hother
        have hhead : (margins.drop count).headD [] ∈ margins.drop count ++ [[]] := by
          cases margins.drop count with
          | nil => exact List.mem_singleton.2 rfl
          | cons first rest => exact List.mem_cons_self
        obtain ⟨hshorter, hnarrower⟩ := hcross _ hhead
        rw [SameOrder]
        omega
      · exact (hmargins.drop count).sameOrder hlength h.1 outer hopen

theorem Deepens.of_enters {margins : List (List Char)} (hmargins : Deepens margins)
    (henters : Enters margin margins inner change)
    (hopens : change = .opens → indentationWidth (margins.headD []) < indentationWidth margin) :
    Deepens inner := by
  cases change with
  | same =>
    obtain ⟨rfl, -⟩ := henters
    exact hmargins
  | opens =>
    obtain ⟨rfl, hlength⟩ := henters
    have hwidth := hopens rfl
    refine List.pairwise_cons.2 ⟨fun outer hmem => ?_, hmargins⟩
    rw [Deeper]
    rcases hmargins.eq_or_deeper outer hmem with rfl | ⟨hshorter, hnarrower⟩
    · exact ⟨hlength, hwidth⟩
    · omega
  | closes count =>
    obtain ⟨rfl, -⟩ := henters
    exact hmargins.drop count

/-! ### Statements -/

theorem Statement.marks_of_closes (lines : List (List Char)) {count : Nat}
    (h : statement.change = .closes count) :
    (∀ mark ∈ statement.marks lines, mark.kind = .dedent) ∧
    (statement.marks lines).length = count := by
  rw [Statement.marks, h]
  cases count with
  | zero => exact ⟨List.forall_mem_nil _, rfl⟩
  | succ count =>
    refine ⟨fun mark hmem => ?_, ?_⟩
    · rcases List.mem_append.1 hmem with hmem | hmem
      · rw [List.eq_of_mem_replicate hmem]
        rfl
      · rw [List.mem_singleton.1 hmem]
        rfl
    · simp

/-- The marks of a statement turn the margins of the blocks before it into those of the blocks that
it stands in. -/
theorem throughout_marks {margins : List (List Char)}
    (henters : Enters (marginOf text statement.start.line) margins inner statement.change)
    {f : Piece → Token} (hf : ∀ piece, (f piece).toPiece = piece) :
    ((statement.marks (lines text)).map f).foldl marginsAfter margins = inner ∧
      (Throughout (AddsColumns text) margins ((statement.marks (lines text)).map f) ↔
        (statement.change = .opens →
          indentationWidth (margins.headD []) <
            indentationWidth (marginOf text statement.start.line))) := by
  cases hchange : statement.change with
  | same =>
    rw [hchange] at henters
    have hmarks : statement.marks (lines text) = [] := by rw [Statement.marks, hchange]
    rw [hmarks]
    exact ⟨henters.1.symm, ⟨fun _ => nofun, fun _ => trivial⟩⟩
  | opens =>
    rw [hchange] at henters
    have hmarks : statement.marks (lines text) = [indentAt (lines text) statement.start.line] := by
      rw [Statement.marks, hchange]
    have hpiece := hf (indentAt (lines text) statement.start.line)
    have hkind : (f (indentAt (lines text) statement.start.line)).kind = .indent := by
      rw [hpiece]
      rfl
    have hlexeme : (f (indentAt (lines text) statement.start.line)).lexeme.toList =
        marginOf text statement.start.line := by
      rw [hpiece]
      exact String.toList_ofList
    rw [hmarks, List.map_singleton, List.foldl_cons, List.foldl_nil, marginsAfter, hkind, hlexeme]
    refine ⟨henters.1.symm, ⟨fun h _ => ?_, fun h => ⟨⟨fun hnewline => ?_, fun _ => ?_⟩, trivial⟩⟩⟩
    · rw [← hlexeme]
      exact h.1.2 hkind
    · rw [hkind] at hnewline
      cases hnewline
    · rw [hlexeme]
      exact h rfl
  | closes count =>
    rw [hchange] at henters
    obtain ⟨hkinds, hcount⟩ := Statement.marks_of_closes (lines text) hchange
    have htokens : ∀ token ∈ (statement.marks (lines text)).map f, token.kind = .dedent := by
      intro token hmem
      obtain ⟨mark, hmark, rfl⟩ := List.mem_map.1 hmem
      rw [hf]
      exact hkinds mark hmark
    rw [foldl_marginsAfter_of_dedents htokens, List.length_map, hcount]
    refine ⟨henters.1.symm,
      ⟨fun _ => nofun, fun _ => throughout_of_forall fun token hmem margins => ?_⟩⟩
    refine addsColumns_of_kind ?_ ?_ <;> rw [htokens token hmem] <;> decide

theorem exists_map_tokensOfLine (lines : List (List Char)) (pieces : List Piece) :
    ∃ f : Piece → Token, (∀ piece, (f piece).toPiece = piece ∧ (f piece).range = rangeOf pieces) ∧
      tokensOfLine lines pieces = pieces.map f :=
  ⟨_, fun _ => ⟨rfl, rfl⟩, rfl⟩

/-- The tokens of a statement are its marks, its words and its newline, which has the line where the
statement starts. -/
theorem exists_statementTokens {margins : List (List Char)} (hvalid : statement.Valid)
    (hstart : statement.margin = statement.start)
    (henters : Enters (marginOf text statement.start.line) margins inner statement.change) :
    ∃ marks words newline,
      tokensOfLine (lines text) (statement.pieces (lines text)) = marks ++ (words ++ [newline]) ∧
      (∀ mark ∈ marks, mark.kind ≠ .newline) ∧ marks.foldl marginsAfter margins = inner ∧
      (Throughout (AddsColumns text) margins marks ↔
        (statement.change = .opens →
          indentationWidth (margins.headD []) <
            indentationWidth (marginOf text statement.start.line))) ∧
      (∀ word ∈ words, word.kind ≠ .newline ∧ word.kind ≠ .indent ∧ word.kind ≠ .dedent) ∧
      newline.kind = .newline ∧ newline.range.first = statement.start.line := by
  have hrange : (rangeOf (statement.pieces (lines text))).first = statement.start.line := by
    obtain ⟨hfirst, hlast, -⟩ := hvalid.range_eq (lines text)
    rw [hstart] at hfirst
    omega
  obtain ⟨f, hf, htokens⟩ := exists_map_tokensOfLine (lines text) (statement.pieces (lines text))
  obtain ⟨hinner, hmarks⟩ := throughout_marks henters fun piece => (hf piece).1
  refine ⟨(statement.marks (lines text)).map f, statement.words.map f, f statement.newline, ?_, ?_,
    hinner, hmarks, ?_, ?_, ?_⟩
  · rw [htokens, Statement.pieces, List.map_append, List.map_append, List.map_singleton,
      List.append_assoc]
  · intro token hmem
    obtain ⟨mark, hmark, rfl⟩ := List.mem_map.1 hmem
    rw [(hf mark).1]
    rcases Statement.kind_of_mem_marks hmark with h | h <;> rw [h] <;> decide
  · intro token hmem
    obtain ⟨word, hword, rfl⟩ := List.mem_map.1 hmem
    rw [(hf word).1]
    obtain ⟨hnewline, hindent, hdedent, -⟩ := hvalid.isCode word hword
    exact ⟨hnewline, hindent, hdedent⟩
  · rw [(hf statement.newline).1, hvalid.newline_kind]
  · rw [(hf statement.newline).2, hrange]

/-- Nested statements keep to the columns of open blocks exactly if their margins compare in columns
as in characters. -/
theorem comparesByColumns_iff {margins : List (List Char)} (h : Nested text margins statements)
    (hvalid : ∀ statement ∈ statements, statement.Valid)
    (htail : ∀ piece ∈ tail, piece.kind = .dedent) (hmargins : Deepens margins) :
    ComparesByColumns text margins margins (tokensOf text (lines text) statements tail) ↔
      Throughout (AddsColumns text) margins (tokensOf text (lines text) statements tail) := by
  induction h with
  | nil margins =>
    -- What is left are ends of blocks and the end of the source.
    have hkind : ∀ token ∈ tokensOf text (lines text) [] tail, token.kind ≠ .newline ∧
        token.kind ≠ .indent := by
      intro token hmem
      obtain ⟨group, hgroup, hin⟩ := List.mem_flatMap.1 hmem
      rw [List.mem_singleton.1 hgroup] at hin
      rcases List.mem_append.1 (mem_tokensOfLine hin).1 with hpiece | hpiece
      · rw [htail _ hpiece]
        decide
      · have hend : (endPiece text).kind = .endMarker := rfl
        rw [List.mem_singleton.1 hpiece, hend]
        decide
    rw [← List.append_nil (tokensOf text (lines text) [] tail),
      comparesByColumns_append fun token hmem => (hkind token hmem).1, List.append_nil]
    refine ⟨fun _ => throughout_of_forall fun token hmem margins => ?_, fun _ => trivial⟩
    exact addsColumns_of_kind (hkind token hmem).1 (hkind token hmem).2
  | @cons margins inner statement later hstart henters _ ih =>
    obtain ⟨hfirst, hothers⟩ := List.forall_mem_cons.1 hvalid
    obtain ⟨marks, words, newline, htokens, hmarks, hinner, hopens, hwords, hnewline, hrange⟩ :=
      exists_statementTokens hfirst hstart henters
    have hcode : words.foldl marginsAfter inner = inner :=
      foldl_marginsAfter_of_code fun word hmem => (hwords word hmem).2
    have hsame : marginsAfter inner newline = inner :=
      marginsAfter_of_code (by rw [hnewline]; decide)
    have hadds : Throughout (AddsColumns text) inner words :=
      throughout_of_forall fun word hmem margins =>
      addsColumns_of_kind (hwords word hmem).1 (hwords word hmem).2.1
    rw [tokensOf_cons, htokens, List.append_assoc, List.append_assoc,
      comparesByColumns_append hmarks, comparesByColumns_append fun word hmem =>
      (hwords word hmem).1, hinner, hcode, List.singleton_append, ComparesByColumns,
      if_pos hnewline, hrange, throughout_append, throughout_append, hinner, hcode,
      Throughout, hsame, hopens, sameOrder_iff hmargins henters]
    constructor
    · rintro ⟨⟨hwidth, hwider⟩, hlater⟩
      have hinto := hmargins.of_enters henters hwider
      refine ⟨hwider, hadds, ⟨fun _ => ?_, fun hindent => ?_⟩, (ih hothers hinto).1 hlater⟩
      · rw [hrange, hwidth]
      · rw [hnewline] at hindent
        cases hindent
    · rintro ⟨hwider, -, ⟨hcolumns, -⟩, hlater⟩
      have hwidth := hcolumns hnewline
      rw [hrange] at hwidth
      exact ⟨⟨hwidth, hwider⟩, (ih hothers (hmargins.of_enters henters hwider)).2 hlater⟩

/-! ### Sources -/

instance (text : List Char) (here : Location) : Decidable (StartsPlainly text here) :=
  decidable_of_iff
    (here.column = (marginOf text here.line).length ∧ '\x0c' ∉ marginOf text here.line ∧
      (2 ≤ here.line → ∀ above ∈ (lines text)[here.line - 2]?, joinsNext above = false))
    ⟨fun h => ⟨h.1, h.2.1, h.2.2⟩, fun h => ⟨h.column_eq, h.no_formFeed, h.not_joined⟩⟩

/-- All statements among tokens start plainly; `atStart` says that the next token with code starts
one. -/
def StartPlainly (text : List Char) (atStart : Bool) : List Token → Prop
  | [] => True
  | token :: rest =>
    if token.kind.isBlockMark then StartPlainly text atStart rest
    else (atStart = true → token.kind ≠ .endMarker → StartsPlainly text token.start) ∧
      StartPlainly text (token.kind == .newline) rest

instance StartPlainly.decide (text : List Char) :
    (atStart : Bool) → (tokens : List Token) → Decidable (StartPlainly text atStart tokens)
  | _, [] => .isTrue trivial
  | atStart, token :: rest =>
    have := StartPlainly.decide text atStart rest
    have := StartPlainly.decide text (token.kind == .newline) rest
    inferInstanceAs (Decidable (if token.kind.isBlockMark then StartPlainly text atStart rest
      else (atStart = true → token.kind ≠ .endMarker → StartsPlainly text token.start) ∧
        StartPlainly text (token.kind == .newline) rest))

instance ComparesByColumns.decide (text : List Char) :
    (opened current : List (List Char)) → (tokens : List Token) →
      Decidable (ComparesByColumns text opened current tokens)
  | _, _, [] => .isTrue trivial
  | opened, current, token :: rest =>
    have := ComparesByColumns.decide text current current rest
    have := ComparesByColumns.decide text opened (marginsAfter current token) rest
    inferInstanceAs (Decidable (if token.kind = .newline then
      (∀ margin ∈ opened, SameOrder (marginOf text token.range.first) margin) ∧
        ComparesByColumns text current current rest
      else ComparesByColumns text opened (marginsAfter current token) rest))

theorem startPlainly_append_marks {atStart : Bool} {marks rest : List Token}
    (hmarks : ∀ mark ∈ marks, mark.kind.isBlockMark = true)
    (h : StartPlainly text atStart (marks ++ rest)) : StartPlainly text atStart rest := by
  induction marks with
  | nil => exact h
  | cons mark marks ih =>
    obtain ⟨hmark, hothers⟩ := List.forall_mem_cons.1 hmarks
    rw [List.cons_append, StartPlainly, if_pos hmark] at h
    exact ih hothers h

/-- After the words of a statement comes its newline, and then the next statement. -/
theorem startPlainly_append_words {atStart : Bool} {words rest : List Token} {newline : Token}
    (hwords : ∀ word ∈ words, word.kind.isBlockMark = false) (hnewline : newline.kind = .newline)
    (h : StartPlainly text atStart (words ++ newline :: rest)) : StartPlainly text true rest := by
  induction words generalizing atStart with
  | nil =>
    rw [List.nil_append, StartPlainly, hnewline] at h
    exact h.2
  | cons word words ih =>
    obtain ⟨hword, hothers⟩ := List.forall_mem_cons.1 hwords
    rw [List.cons_append, StartPlainly, hword, if_neg Bool.false_ne_true] at h
    exact ih hothers h.2

/-- When the statements among tokens start plainly, so does each statement that has them. -/
theorem startsPlainly_of_mem (hvalid : ∀ statement ∈ statements, statement.Valid)
    (h : StartPlainly text true (tokensOf text (lines text) statements tail)) :
    ∀ statement ∈ statements, StartsPlainly text statement.start := by
  induction statements with
  | nil => exact List.forall_mem_nil _
  | cons statement statements ih =>
    obtain ⟨hfirst, hothers⟩ := List.forall_mem_cons.1 hvalid
    obtain ⟨f, hf, htokens⟩ := exists_map_tokensOfLine (lines text) (statement.pieces (lines text))
    rw [tokensOf_cons, htokens, Statement.pieces, List.map_append, List.map_append,
      List.map_singleton, List.append_assoc, List.append_assoc, List.singleton_append] at h
    have hmarks : ∀ mark ∈ (statement.marks (lines text)).map f, mark.kind.isBlockMark = true := by
      intro token hmem
      obtain ⟨mark, hmark, rfl⟩ := List.mem_map.1 hmem
      rw [(hf mark).1]
      rcases Statement.kind_of_mem_marks hmark with h | h <;> rw [h] <;> rfl
    have hwords : ∀ word ∈ statement.words, word.kind.isBlockMark = false := by
      intro word hmem
      obtain ⟨-, hindent, hdedent, -⟩ := hfirst.isCode word hmem
      simp [TokenKind.isBlockMark, hindent, hdedent]
    have hnewline : (f statement.newline).kind = .newline := by
      rw [(hf statement.newline).1, hfirst.newline_kind]
    have hcode := startPlainly_append_marks hmarks h
    refine List.forall_mem_cons.2 ⟨?_, ih hothers ?_⟩
    · -- The first word, or else the newline, stands where the statement starts.
      have hstart := hfirst.first
      cases hcase : statement.words with
      | nil =>
        rw [hcase, List.map_nil, List.nil_append, StartPlainly, hnewline] at hcode
        rw [hcase] at hstart
        have hplain := hcode.1 rfl (by decide)
        rw [(hf statement.newline).1] at hplain
        rwa [← Option.some.inj hstart]
      | cons word words =>
        have hmem : word ∈ statement.words := by
          rw [hcase]
          exact List.mem_cons_self
        rw [hcase, List.map_cons, List.cons_append, StartPlainly, (hf word).1, hwords word hmem,
          if_neg Bool.false_ne_true] at hcode
        rw [hcase] at hstart
        have hplain := hcode.1 rfl (hfirst.isCode word hmem).2.2.2
        rwa [← Option.some.inj hstart]
    · refine startPlainly_append_words ?_ hnewline hcode
      intro token hmem
      obtain ⟨word, hword, rfl⟩ := List.mem_map.1 hmem
      rw [(hf word).1]
      exact hwords word hword

theorem mem_tokenWarningsFrom {reporter : Reporter} {blocks : List Int} {warning : Warning}
    (h : warning ∈ tokenWarningsFrom reporter blocks tokens) :
    ∃ before token after, tokens = before ++ token :: after ∧
      warning ∈ tokenWarnings reporter (before.foldl blocksAfter blocks) token := by
  induction tokens generalizing blocks with
  | nil => cases h
  | cons token tokens ih =>
    rcases List.mem_append.1 h with hhere | hlater
    · exact ⟨[], token, tokens, rfl, hhere⟩
    · obtain ⟨before, other, after, rfl, hmem⟩ := ih hlater
      exact ⟨token :: before, other, after, rfl, hmem⟩

/-- Blocks that all add columns are warned about with a positive number of them. -/
theorem pos_of_wrongIndentation {reporter : Reporter} {blocks : List Int} {warning : Warning}
    (h : warning ∈ tokenWarnings reporter blocks token) (hkind : warning.kind = .wrongIndentation)
    (hadds : token.kind = .indent → totalAdded blocks < indentationWidth token.lexeme.toList) :
    ∃ added : Int, 0 < added ∧
      warning.message = "Indented by " ++ toString added ++
        " spaces instead of 4 as demanded by PEP 8" := by
  unfold tokenWarnings at h
  split at h
  · next hindent =>
    have hless := hadds hindent
    simp only at h
    split at h
    · cases h
    · rw [List.mem_singleton.1 h]
      exact ⟨_, by omega, rfl⟩
  · split at h
    · rw [List.mem_singleton.1 h] at hkind
      cases hkind
    · cases h
  · cases h

/-- The columns that open blocks have added are those of the indentation that opened the innermost
one. Where all statements start plainly, these are the columns of the statement at each newline, and
each block adds some, exactly if the margins of statements compare in columns as in characters with
those of the blocks that are open before them. -/
theorem totalAdded_eq_indentationWidth {text : List Char} (herror : (tokenize text).error = none) :
    (∀ before, before <+: (tokenize text).tokens →
      totalAdded (before.foldl blocksAfter []) =
        indentationWidth ((before.foldl marginsAfter []).headD [])) ∧
    (StartPlainly text true (tokenize text).tokens →
      (ComparesByColumns text [] [] (tokenize text).tokens ↔
        (∀ before token after, (tokenize text).tokens = before ++ token :: after →
          (token.kind = .newline →
            totalAdded (before.foldl blocksAfter []) =
              indentationWidth (marginOf text token.range.first)) ∧
          (token.kind = .indent →
            totalAdded (before.foldl blocksAfter []) < indentationWidth token.lexeme.toList)) ∧
        ∀ reporter, ∀ warning ∈ checkTokens reporter (tokenize text).tokens,
          warning.kind = .wrongIndentation → ∃ added : Int, 0 < added ∧
            warning.message = "Indented by " ++ toString added ++
              " spaces instead of 4 as demanded by PEP 8")) := by
  refine ⟨fun before _ => totalAdded_foldl before, fun hplain => ?_⟩
  obtain ⟨mark, rest, statements, tail, hsplit, hmark, hstacked, htokens⟩ :=
    stacked_of_tokenize herror
  have htokens : (tokenize text).tokens = tokensOf text (lines text) statements tail := htokens
  have hsequence := (inSequence_of_stacked hstacked).1
  have hstarts := startsPlainly_of_mem hsequence.valid (htokens ▸ hplain)
  have hnested : Nested text [] statements :=
    nested_of_stacked hstacked hsplit (hmark.imp_right .inl) hstarts rfl
  have htail : ∀ piece ∈ tail, piece.kind = .dedent :=
    fun piece hmem => by rw [hsequence.tail_eq piece hmem]; rfl
  have hmargins : Deepens [] := List.pairwise_singleton _ _
  rw [htokens, comparesByColumns_iff hnested hsequence.valid htail hmargins, ← htokens,
    throughout_iff]
  simp only [addsColumns_foldl]
  refine ⟨fun h => ⟨h, fun reporter warning hmem hkind => ?_⟩, fun h => h.1⟩
  obtain ⟨before, token, after, hat, hwarning⟩ := mem_tokenWarningsFrom hmem
  exact pos_of_wrongIndentation hwarning hkind (h before token after hat).2

/-- Tabs and spaces may stand together in margins, as long as they nest the statements alike, and a
comment may end with a backslash. -/
theorem totalAdded_eq_indentationWidth_nested :
    let text := "if a:  # b \\\n\tif b:\n\t  x\n\t# c \\\n\ty\nif c:\n  z\n".toList
    (tokenize text).error = none ∧ StartPlainly text true (tokenize text).tokens ∧
      ComparesByColumns text [] [] (tokenize text).tokens ∧
      ∀ before token after, (tokenize text).tokens = before ++ token :: after →
        token.kind = .newline → totalAdded (before.foldl blocksAfter []) =
          indentationWidth (marginOf text token.range.first) := by
  intro text
  have herror : (tokenize text).error = none := by decide +kernel
  have hplain : StartPlainly text true (tokenize text).tokens := by decide +kernel
  have hcompares : ComparesByColumns text [] [] (tokenize text).tokens := by decide +kernel
  have hcolumns := ((totalAdded_eq_indentationWidth herror).2 hplain).1 hcompares
  exact ⟨herror, hplain, hcompares, fun before token after hat =>
    (hcolumns.1 before token after hat).1⟩

/-- A newline of the source where open blocks have added some columns and its statement stands at
others. -/
def NewlineAt (text : List Char) (added columns : Int) : Prop :=
  (tokenize text).error = none ∧
    ∃ before token after, (tokenize text).tokens = before ++ token :: after ∧
      token.kind = .newline ∧ totalAdded (before.foldl blocksAfter []) = added ∧
      indentationWidth (marginOf text token.range.first) = columns

/-- A tab and a space nest statements alike, but not in columns: a block may add a negative number
of them. A margin is measured from its last form feed on, and before a backslash that joins its line
to the next one. -/
theorem indentation_of_tab_and_space :
    let text := "if a:\n\tx\n if b:\n         c\n".toList
    let other := "if a:\n\tif b:\n  x\n".toList
    let fed := "if a:\n  x\n\x0c  y\n".toList
    let joined := "if a:\n  x\n  \\\ny\n".toList
    NewlineAt text 8 1 ∧ StartPlainly text true (tokenize text).tokens ∧
      NewlineAt fed 2 3 ∧ ¬StartPlainly fed true (tokenize fed).tokens ∧
      NewlineAt joined 2 0 ∧ ¬StartPlainly joined true (tokenize joined).tokens ∧
      (tokenize other).error = none ∧ StartPlainly other true (tokenize other).tokens ∧
      (checkTokens ⟨"mod.py", .ofTokens (physicalLines other) (tokenize other).tokens⟩
          (tokenize other).tokens).map Warning.message =
        ["Indented by 8 spaces instead of 4 as demanded by PEP 8",
          "Indented by -6 spaces instead of 4 as demanded by PEP 8"] := by
  intro text other fed joined
  have hat : ∀ {source : List Char} {n : Nat} (h : n < (tokenize source).tokens.length),
      (tokenize source).tokens =
        (tokenize source).tokens.take n ++ (tokenize source).tokens.get ⟨n, h⟩ ::
          (tokenize source).tokens.drop (n + 1) := fun {source n} h => by simp
  refine ⟨⟨by decide +kernel, _, _, _, hat (n := 10) (by decide +kernel), ?_⟩, by decide +kernel,
    ⟨by decide +kernel, _, _, _, hat (n := 8) (by decide +kernel), ?_⟩, by decide +kernel,
    ⟨by decide +kernel, _, _, _, hat (n := 8) (by decide +kernel), ?_⟩, by decide +kernel,
    by decide +kernel, by decide +kernel, by decide +kernel⟩ <;> decide +kernel

end PythonLint
