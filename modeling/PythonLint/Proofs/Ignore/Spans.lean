import PythonLint.Proofs.Ignore.Exactness

/-!
# Spans of the filters of an ignore file

The tokens of an ignore file stand one after the other, also those that have no text of their own:
the marks of blocks stand before the words of the line that opens or closes them, and the dedents at
the end stand behind the last line. A filter is read off tokens that follow each other. So its
comparisons lie inside of it, behind its name, and it ends before the next filter starts, whichever
token its end is taken from.

Main statements: `ascends_lexLine`, `AreLines.ascends_lexLines`, `FilterTree.Derives.isNested`,
`FilterTree.DeriveAll.isNested`, `spans_of_parse`.
-/

namespace PythonLint.Ignore

variable {text : List Char} {lines : List Line} {number : Nat}

/-! ### Tokens one after the other -/

/-- The token covers its text: it does not end before its start, and a word ends behind its
characters, of which it has some. -/
structure Token.IsPlaced (token : Token) : Prop where
  start_le : token.start ≤ token.stop
  word : token.kind.IsWordKind →
    token.stop = ⟨token.start.line, token.start.column + token.lexeme.length⟩ ∧
      token.start < token.stop

theorem Token.isPlaced_of_not_isWordKind {token : Token} (hkind : ¬token.kind.IsWordKind)
    (h : token.start ≤ token.stop) : token.IsPlaced :=
  ⟨h, fun hword => absurd hword hkind⟩

/-- The tokens stand one after the other from a location to another. -/
inductive Ascends : (low : Location) → List Token → (high : Location) → Prop
  | nil {a b : Location} (h : a ≤ b) : Ascends a [] b
  | cons {a b : Location} {token : Token} {tokens : List Token} (hstart : a ≤ token.start)
      (hplaced : token.IsPlaced) (h : Ascends token.stop tokens b) : Ascends a (token :: tokens) b

namespace Ascends

variable {a b c : Location} {tokens first second : List Token}

theorem le (h : Ascends a tokens b) : a ≤ b := by
  induction h with
  | nil h => exact h
  | cons hstart hplaced _ ih =>
    exact Location.le_trans hstart (Location.le_trans hplaced.start_le ih)

theorem of_le (h : Ascends b tokens c) (hle : a ≤ b) : Ascends a tokens c := by
  cases h with
  | nil h => exact .nil (Location.le_trans hle h)
  | cons hstart hplaced h => exact .cons (Location.le_trans hle hstart) hplaced h

theorem of_cons {token : Token} (h : Ascends a (token :: tokens) b) :
    a ≤ token.start ∧ token.IsPlaced ∧ Ascends token.stop tokens b := by
  cases h with
  | cons hstart hplaced h => exact ⟨hstart, hplaced, h⟩

theorem append (hfirst : Ascends a first b) (hsecond : Ascends b second c) :
    Ascends a (first ++ second) c := by
  induction hfirst with
  | nil h => exact hsecond.of_le h
  | cons hstart hplaced _ ih => exact .cons hstart hplaced (ih hsecond)

theorem exists_of_append (h : Ascends a (first ++ second) c) :
    ∃ b, Ascends a first b ∧ Ascends b second c := by
  induction first generalizing a with
  | nil => exact ⟨a, .nil (Location.le_refl a), h⟩
  | cons token first ih =>
    obtain ⟨hstart, hplaced, h⟩ := h.of_cons
    obtain ⟨b, hfirst, hsecond⟩ := ih h
    exact ⟨b, .cons hstart hplaced hfirst, hsecond⟩

/-- Dedents may stand together at one place. -/
theorem dedents {α : Type} (list : List α) (hle : a ≤ b) :
    Ascends a (list.map fun _ => dedentAt b) b := by
  induction list generalizing a with
  | nil => exact .nil hle
  | cons _ list ih =>
    refine .cons hle (Token.isPlaced_of_not_isWordKind ?_ (Location.le_refl b))
      (ih (Location.le_refl b))
    exact TokenKind.not_isWordKind (.inr (.inl rfl))

end Ascends

/-! ### Lines -/

/-- The words of a text stand one after the other. -/
theorem IsCut.ascends {column : Nat} {tokens : List Token} (h : IsCut number column text tokens) :
    Ascends ⟨number, column⟩ tokens ⟨number, column + text.length⟩ := by
  induction h with
  | nil column => exact .nil (Location.le_refl _)
  | @gap column c rest tokens _ _ ih =>
    rw [List.length_cons, Nat.add_comm rest.length, ← Nat.add_assoc]
    exact ih.of_le (Location.le_iff.2 (.inr ⟨rfl, Nat.le_succ column⟩))
  | @word column kind lexeme rest tokens hword _ ih =>
    have hpos : 0 < lexeme.length := List.length_pos_iff.2 hword.word.ne_nil
    rw [List.length_append, ← Nat.add_assoc]
    refine .cons (Location.le_refl _) ⟨?_, fun _ => ⟨by simp, .inr ⟨rfl, ?_⟩⟩⟩ ih
    · exact Location.le_iff.2 (.inr ⟨rfl, Nat.le_add_right _ _⟩)
    · exact Nat.lt_add_of_pos_right hpos

/-- The marks for the margin of a line stand inside of it or at its end. -/
theorem ascends_lexMargin (levels : List Nat) (number : Nat) (margin : List Char) :
    Ascends ⟨number, 0⟩ (lexMargin levels number margin).tokens ⟨number, margin.length⟩ := by
  unfold lexMargin
  simp only
  split
  · next hdeeper =>
    refine .cons (Location.le_iff.2 (.inr ⟨rfl, Nat.zero_le _⟩))
      (Token.isPlaced_of_not_isWordKind ?_ ?_)
      (.nil (Location.le_refl _))
    · exact TokenKind.not_isWordKind (.inl rfl)
    · exact Location.le_iff.2 (.inr ⟨rfl, Nat.le_of_lt hdeeper⟩)
  · exact .dedents _ (Location.le_iff.2 (.inr ⟨rfl, Nat.zero_le _⟩))

/-- Where a line ends, its line feed included. -/
def Line.stop (line : Line) : Location :=
  if line.terminated then ⟨line.number + 1, 0⟩ else ⟨line.number, line.text.length⟩

theorem ascends_lineEnd (line : Line) :
    Ascends ⟨line.number, line.text.length⟩ (lineEnd line line.text.length) line.stop := by
  unfold lineEnd Line.stop
  split
  · refine .cons (Location.le_refl _) (Token.isPlaced_of_not_isWordKind ?_ ?_)
      (.nil (Location.le_refl _))
    · exact TokenKind.not_isWordKind (.inr (.inr rfl))
    · exact Location.le_of_line_lt (Nat.lt_succ_self _)
  · exact .nil (Location.le_refl _)

theorem Line.start_le_stop (line : Line) : ⟨line.number, 0⟩ ≤ line.stop := by
  unfold Line.stop
  split
  · exact Location.le_of_line_lt (Nat.lt_succ_self _)
  · exact Location.le_iff.2 (.inr ⟨rfl, Nat.zero_le _⟩)

/-- The tokens of a line stand one after the other, from the start of the line to its end. -/
theorem ascends_lexLine {levels : List Nat} {line : Line} (h : (lexLine levels line).error = none) :
    Ascends ⟨line.number, 0⟩ (lexLine levels line).tokens line.stop := by
  unfold lexLine at h ⊢
  simp only at h ⊢
  split at h
  · next hskip =>
    rw [if_pos hskip]
    exact .nil line.start_le_stop
  · next hskip =>
    rw [if_neg hskip]
    split at h
    · next hsome =>
      rw [h] at hsome
      cases hsome
    · next hmargin =>
      rw [if_neg hmargin]
      obtain ⟨before, after, htext, hcut, hcolumn, hend⟩ := exists_isCut_lexWords line.number
        (line.text.takeWhile isGap).length (line.text.dropWhile isGap)
      rcases hend with ⟨hnone, rfl⟩ | ⟨hsome, -⟩
      · have hlength : (line.text.takeWhile isGap).length + before.length = line.text.length := by
          rw [← List.length_append, ← List.append_nil before, ← htext,
            List.takeWhile_append_dropWhile]
        have hwords := hcut.ascends
        rw [hlength] at hcolumn hwords
        simp only [hnone, hcolumn]
        exact ((ascends_lexMargin levels line.number _).append hwords).append (ascends_lineEnd line)
      · simp only [hsome] at h
        cases h

theorem ascends_lexLines_cons {levels : List Nat} {line : Line} {stop : Location}
    (hstop : line.stop ≤ stop)
    (h : Ascends line.stop (lexLines (lexLine levels line).levels stop lines).tokens stop) :
    Ascends ⟨line.number, 0⟩ (lexLines levels stop (line :: lines)).tokens stop := by
  rw [lexLines]
  cases herror : (lexLine levels line).error with
  | some error => exact .nil (Location.le_trans line.start_le_stop hstop)
  | none => exact (ascends_lexLine herror).append h

/-- The tokens of lines stand one after the other, up to a place behind the lines. -/
theorem AreLines.ascends_lexLines (h : AreLines number text lines) (levels : List Nat)
    {stop : Location} (hstart : ⟨number, 0⟩ ≤ stop) (hstop : ∀ line ∈ lines, line.stop ≤ stop) :
    Ascends ⟨number, 0⟩ (lexLines levels stop lines).tokens stop := by
  induction h generalizing levels with
  | nil => exact .dedents _ hstart
  | last =>
    have hlast := hstop _ List.mem_cons_self
    exact ascends_lexLines_cons hlast (.dedents _ hlast)
  | line _ _ _ ih =>
    obtain ⟨hfirst, hrest⟩ := List.forall_mem_cons.1 hstop
    exact ascends_lexLines_cons hfirst (ih _ hfirst hrest)

theorem AreLines.stop_le_endOfLines (h : AreLines number text lines) :
    ∀ line ∈ lines, line.stop ≤ endOfLines lines := by
  rcases List.eq_nil_or_concat' lines with rfl | ⟨init, last, rfl⟩
  · exact fun line hmem => nomatch hmem
  · have hend : endOfLines (init ++ [last]) = last.stop := by simp [endOfLines, Line.stop]
    rw [hend]
    intro line hmem
    rcases List.mem_append.1 hmem with hmem | hmem
    · have hnumber : line.number < last.number :=
        (List.pairwise_append.1 h.pairwise_number).2.2 line hmem last (List.mem_singleton_self _)
      refine Location.le_trans ?_ last.start_le_stop
      rw [Line.stop, Location.le_iff]
      split
      · simp only
        omega
      · exact .inl hnumber
    · rw [List.mem_singleton.1 hmem]
      exact Location.le_refl _

theorem AreLines.start_le_endOfLines (h : AreLines 1 text lines) : ⟨1, 0⟩ ≤ endOfLines lines := by
  cases lines with
  | nil => exact Location.le_refl _
  | cons line lines =>
    have hnumber := h.le_number line List.mem_cons_self
    refine Location.le_trans (Location.le_iff.2 ?_)
      (Location.le_trans line.start_le_stop (h.stop_le_endOfLines line List.mem_cons_self))
    simp only
    omega

/-- The tokens of a file stand one after the other. -/
theorem ascends_lexStream (source : List Char) :
    Ascends ⟨1, 0⟩ (lexStream source).tokens (endOfLines (sourceLines source)) :=
  (areLines_sourceLines source).ascends_lexLines [0]
    (areLines_sourceLines source).start_le_endOfLines
    (areLines_sourceLines source).stop_le_endOfLines

/-! ### Comparisons -/

/-- The operands of a comparison stand in order: the left one starts it, the right one ends it. -/
structure Expression.IsSpanned (expression : Expression) : Prop where
  starts : expression.start = expression.left.start
  left : expression.left.start < expression.left.stop
  between : expression.left.stop ≤ expression.right.start
  right : expression.right.start < expression.right.stop
  ends : expression.stop = expression.right.stop

theorem Expression.IsSpanned.start_lt_stop {expression : Expression} (h : expression.IsSpanned) :
    expression.start < expression.stop := by
  rw [h.starts, h.ends]
  exact Location.lt_of_lt_of_le h.left (Location.le_trans h.between (.inl h.right))

theorem TokenKind.IsOperand.isWordKind {kind : TokenKind} (h : kind.IsOperand) :
    kind.IsWordKind := by
  rcases h with rfl | rfl | rfl <;> decide

namespace ComparisonTree

variable {a b : Location} {next : List Token}

/-- The comparison of a tree lies where the tokens of the tree stand. -/
theorem Derives.isSpanned {tree : ComparisonTree} (h : tree.Derives next)
    (hascends : Ascends a tree.tokens b) :
    a ≤ tree.expression.start ∧ tree.expression.IsSpanned ∧ tree.expression.stop ≤ b := by
  obtain ⟨left, operator, right, newline⟩ := tree
  obtain ⟨hstart, hleft, hascends⟩ := hascends.of_cons
  obtain ⟨hgap, hoperator, hascends⟩ := hascends.of_cons
  obtain ⟨hgap', hright, hascends⟩ := hascends.of_cons
  refine ⟨hstart, ⟨rfl, (hleft.word h.1.isWordKind).2, ?_, (hright.word h.2.2.1.isWordKind).2, rfl⟩,
    hascends.le⟩
  exact Location.le_trans hgap (Location.le_trans hoperator.start_le hgap')

/-- The comparisons of a block lie one after the other. -/
theorem DeriveAll.isSpanned {trees : List ComparisonTree} (h : DeriveAll trees next)
    (hascends : Ascends a (trees.flatMap tokens) b) :
    (∀ tree ∈ trees, a ≤ tree.expression.start ∧ tree.expression.IsSpanned ∧
      tree.expression.stop ≤ b) ∧
      (trees.map expression).Pairwise fun first second => first.stop ≤ second.start := by
  induction trees generalizing a with
  | nil => exact ⟨by simp, .nil⟩
  | cons tree trees ih =>
    obtain ⟨middle, hfirst, hrest⟩ := hascends.exists_of_append
    obtain ⟨hstart, hspanned, hstop⟩ := h.1.isSpanned hfirst
    obtain ⟨hothers, hpairwise⟩ := ih h.2 hrest
    refine ⟨List.forall_mem_cons.2 ⟨⟨hstart, hspanned, Location.le_trans hstop hrest.le⟩,
      fun other hmem => ?_⟩, ?_⟩
    · obtain ⟨hmiddle, hother⟩ := hothers other hmem
      exact ⟨Location.le_trans hfirst.le hmiddle, hother⟩
    · refine List.pairwise_cons.2 ⟨List.forall_mem_map.2 fun other hmem => ?_, hpairwise⟩
      exact Location.le_trans hstop (hothers other hmem).1

end ComparisonTree

/-! ### Filters -/

def Filter.nameStop (filter : Filter) : Location :=
  ⟨filter.start.line, filter.start.column + filter.name.length⟩

/-- The comparisons of a filter lie inside of it, behind its name, one after the other. -/
structure Filter.IsNested (filter : Filter) : Prop where
  name : filter.start < filter.nameStop
  stop : filter.nameStop ≤ filter.stop
  inside : ∀ expression ∈ filter.expressions, filter.nameStop ≤ expression.start ∧
    expression.stop ≤ filter.stop
  spanned : ∀ expression ∈ filter.expressions, expression.IsSpanned
  ordered : filter.expressions.Pairwise fun first second => first.stop ≤ second.start

theorem Filter.isNested_of_name {name : Token} (hname : name.IsPlaced) (hkind : name.kind = .name)
    {expressions : List Expression} {stop : Location} (hstop : name.stop ≤ stop)
    (hinside : ∀ expression ∈ expressions,
      name.stop ≤ expression.start ∧ expression.IsSpanned ∧ expression.stop ≤ stop)
    (hordered : expressions.Pairwise fun first second => first.stop ≤ second.start) :
    Filter.IsNested ⟨name.lexeme, expressions, name.start, stop⟩ := by
  obtain ⟨hends, hlt⟩ := hname.word (.inl hkind)
  have hnameStop : Filter.nameStop ⟨name.lexeme, expressions, name.start, stop⟩ =
    name.stop := hends.symm
  refine ⟨by rwa [hnameStop], by rwa [hnameStop], fun expression hmem => ?_,
    fun expression hmem => ?_, hordered⟩
  · obtain ⟨hstart, -, hend⟩ := hinside expression hmem
    rw [hnameStop]
    exact ⟨hstart, hend⟩
  · exact (hinside expression hmem).2.1

namespace FilterTree

variable {a b : Location} {next : List Token}

/-- The filter of a tree lies where the tokens of the tree stand. -/
theorem Derives.isNested {tree : FilterTree} (h : tree.Derives next)
    (hascends : Ascends a tree.tokens b) :
    a ≤ tree.filter.start ∧ tree.filter.IsNested ∧ tree.filter.stop ≤ b := by
  cases tree with
  | line name newline =>
    obtain ⟨hstart, hname, hascends⟩ := hascends.of_cons
    obtain ⟨hgap, hnewline, hascends⟩ := hascends.of_cons
    exact ⟨hstart, Filter.isNested_of_name hname h.1 hgap (by simp) .nil,
      Location.le_trans hnewline.start_le hascends.le⟩
  | last name =>
    obtain ⟨hstart, hname, hascends⟩ := hascends.of_cons
    exact ⟨hstart, Filter.isNested_of_name hname h.1 (Location.le_refl _) (by simp) .nil,
      hascends.le⟩
  | block name newline indent comparisons dedent =>
    obtain ⟨hkind, -, -, -, hall, -⟩ := h
    obtain ⟨hstart, hname, hascends⟩ := hascends.of_cons
    obtain ⟨hgap, hnewline, hascends⟩ := hascends.of_cons
    obtain ⟨hgap', hindent, hascends⟩ := hascends.of_cons
    obtain ⟨middle, hblock, hend⟩ := hascends.exists_of_append
    obtain ⟨hmiddle, hdedent, hend⟩ := hend.of_cons
    obtain ⟨hinside, hordered⟩ := hall.isSpanned hblock
    -- The name, the end of its line and the indent stand before the block, the dedent stands behind
    -- it.
    have hbefore : name.stop ≤ indent.stop :=
      Location.le_trans hgap (Location.le_trans hnewline.start_le
      (Location.le_trans hgap' hindent.start_le))
    have hbehind : middle ≤ dedent.stop := Location.le_trans hmiddle hdedent.start_le
    refine ⟨hstart,
      Filter.isNested_of_name hname hkind ?_ (List.forall_mem_map.2 fun tree hmem => ?_) hordered,
      hend.le⟩
    · exact Location.le_trans hbefore (Location.le_trans hblock.le hbehind)
    · obtain ⟨hlow, hspanned, hhigh⟩ := hinside tree hmem
      exact ⟨Location.le_trans hbefore hlow, hspanned, Location.le_trans hhigh hbehind⟩

/-- The filters of a file lie one after the other. -/
theorem DeriveAll.isNested {trees : List FilterTree} (h : DeriveAll trees)
    (hascends : Ascends a (trees.flatMap tokens) b) :
    (∀ tree ∈ trees, a ≤ tree.filter.start ∧ tree.filter.IsNested) ∧
      (trees.map filter).Pairwise fun first second => first.stop ≤ second.start := by
  induction trees generalizing a with
  | nil => exact ⟨by simp, .nil⟩
  | cons tree trees ih =>
    obtain ⟨middle, hfirst, hrest⟩ := hascends.exists_of_append
    obtain ⟨hstart, hnested, hstop⟩ := h.1.isNested hfirst
    obtain ⟨hothers, hpairwise⟩ := ih h.2 hrest
    refine ⟨List.forall_mem_cons.2 ⟨⟨hstart, hnested⟩, fun other hmem => ?_⟩, ?_⟩
    · obtain ⟨hmiddle, hother⟩ := hothers other hmem
      exact ⟨Location.le_trans hfirst.le hmiddle, hother⟩
    · refine List.pairwise_cons.2 ⟨List.forall_mem_map.2 fun other hmem => ?_, hpairwise⟩
      exact Location.le_trans hstop (hothers other hmem).1

end FilterTree

/-! ### Files -/

/-- The filters of an accepted file lie one after the other, and what they are made of lies inside
of them. -/
theorem isNested_of_parse {source : List Char} {values : List Filter}
    (h : parse source = .ok values) :
    (∀ filter ∈ values, filter.IsNested) ∧
    values.Pairwise fun first second => first.stop ≤ second.start := by
  obtain ⟨tokens, trees, hlex, ⟨rfl, htrees⟩, -, rfl⟩ := exists_derivation_of_parse h
  have hascends := ascends_lexStream source
  rw [lex_eq_ok_iff.1 hlex] at hascends
  obtain ⟨hnested, hordered⟩ := htrees.isNested hascends
  exact ⟨List.forall_mem_map.2 fun tree hmem => (hnested tree hmem).2, hordered⟩

/-- In an accepted file, a filter starts before it ends and ends at or before the start of the next
one. Its comparisons lie inside of it, behind its name, in order and apart. A comparison starts with
its left operand, which ends at or before the start of the right one, and it ends with that. -/
theorem spans_of_parse {source : List Char} {values : List Filter} (h : parse source = .ok values) :
    (∀ filter ∈ values, filter.start < filter.stop ∧
      (∀ expression ∈ filter.expressions, filter.nameStop ≤ expression.start ∧
        expression.start < expression.stop ∧ expression.stop ≤ filter.stop) ∧
      filter.expressions.Pairwise (fun first second => first.stop ≤ second.start) ∧
      ∀ expression ∈ filter.expressions, expression.start = expression.left.start ∧
        expression.left.stop ≤ expression.right.start ∧ expression.right.stop = expression.stop) ∧
    values.Pairwise fun first second => first.stop ≤ second.start := by
  obtain ⟨hnested, hordered⟩ := isNested_of_parse h
  refine ⟨fun filter hmem => ?_, hordered⟩
  obtain ⟨hname, hstop, hinside, hspanned, hexpressions⟩ := hnested filter hmem
  refine ⟨Location.lt_of_lt_of_le hname hstop, fun expression hexpression => ?_, hexpressions,
    fun expression hexpression => ?_⟩
  · obtain ⟨hlow, hhigh⟩ := hinside expression hexpression
    exact ⟨hlow, (hspanned expression hexpression).start_lt_stop, hhigh⟩
  · obtain ⟨hstarts, -, hbetween, -, hends⟩ := hspanned expression hexpression
    exact ⟨hstarts, hbetween, hends.symm⟩

/-- A filter that ends with its line, one whose block the next line that counts closes, and one
whose block ends with the file. -/
theorem spans_of_parse_threeFilters :
    let source := "a \nb\n  x = 1\n\n # c\nd\n\t2<y \n  \n\tz >= \"s\"  ".toList
    ∃ values, parse source = .ok values ∧ values.map Filter.stop = [⟨1, 2⟩, ⟨6, 0⟩, ⟨9, 11⟩] ∧
      (∀ filter ∈ values, filter.start < filter.stop) ∧
      values.Pairwise fun first second => first.stop ≤ second.start := by
  intro source
  have hcheck : (parse source).toOption.map (List.map Filter.stop) =
      some [⟨1, 2⟩, ⟨6, 0⟩, ⟨9, 11⟩] := by
    decide +kernel
  cases hvalues : parse source with
  | error error =>
    rw [hvalues] at hcheck
    cases hcheck
  | ok values =>
    rw [hvalues] at hcheck
    obtain ⟨hnested, hordered⟩ := spans_of_parse hvalues
    exact ⟨values, rfl, Option.some.inj hcheck,
      fun filter hmem => (hnested filter hmem).1, hordered⟩

end PythonLint.Ignore
