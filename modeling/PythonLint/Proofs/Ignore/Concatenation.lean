import PythonLint.Proofs.Ignore.Shift
import Mathlib.Data.List.ModifyLast

/-!
# One ignore file after another

A file that is put after another one is read as if it stood alone, only further down. The blocks
that are open at the end of the first file are closed there when it stands alone, and by the first
line of the second file that counts when it does not. That line is not indented, since the second
file is accepted, so it closes all of them.

Main statements: `sourceLines_append`, `exists_lexLines_append`, `exists_lexLines_of_open`,
`IsDerivation.exists_moved`, `parse_append_of_startsLine`.
-/

namespace PythonLint.Ignore

variable {trees : List FilterTree} {inner levels : List Nat} {next : List Token} {stop : Location}

/-! ### Lines -/

theorem linesFrom_down (number count : Nat) (pieces : List (List Char)) :
    linesFrom (number + count) pieces = (linesFrom number pieces).map (Line.down count) := by
  fun_induction linesFrom number pieces with
  | case1 number => rfl
  | case2 number last hempty => rw [linesFrom, if_pos hempty]; rfl
  | case3 number last hempty => rw [linesFrom, if_neg hempty]; rfl
  | case4 number piece rest hlast ih =>
    rw [linesFrom, Nat.add_right_comm, ih, List.map_cons]
    · rfl
    · exact hlast

/-- The first line of a text that holds a line feed. -/
theorem linesFrom_lineFeed {line : List Char} (h : '\n' ∉ line) (number : Nat) (rest : List Char) :
    linesFrom number (Text.segments (line ++ '\n' :: rest)) =
      ⟨number, Text.dropEndWhile (· == '\r') line, true⟩ ::
        linesFrom (number + 1) (Text.segments rest) := by
  obtain ⟨first, others, hrest⟩ := List.exists_cons_of_ne_nil (Text.segments_ne_nil rest)
  rw [Text.segments_lineFeed h, hrest, linesFrom]
  simp

/-- The lines of a text that ends with a line feed, and of another text after it. -/
theorem linesFrom_append_lineFeed (number : Nat) (a b : List Char) :
    linesFrom number (Text.segments (a ++ '\n' :: b)) =
      linesFrom number (Text.segments (a ++ ['\n'])) ++
        linesFrom (number + (a.count '\n' + 1)) (Text.segments b) := by
  induction a using Text.lines_induction generalizing number with
  | last a ha =>
    rw [linesFrom_lineFeed ha, linesFrom_lineFeed ha, List.count_eq_zero_of_not_mem ha]
    rfl
  | line first rest hfirst ih =>
    rw [List.append_assoc, List.append_assoc, List.cons_append, List.cons_append,
      linesFrom_lineFeed hfirst, linesFrom_lineFeed hfirst, ih, List.cons_append,
      Text.count_lineFeed hfirst]
    congr 3
    omega

/-- The lines of a file that is put after another one. -/
theorem sourceLines_append {a : List Char} (ha : StartsLine a) (b : List Char) :
    sourceLines (a ++ b) = sourceLines a ++ (sourceLines b).map (Line.down (a.count '\n')) := by
  rcases ha with rfl | ⟨init, rfl⟩
  · have hdown : Line.down 0 = id := rfl
    rw [List.count_nil, hdown, List.map_id]
    rfl
  · unfold sourceLines
    rw [List.append_assoc, List.singleton_append, linesFrom_append_lineFeed, linesFrom_down,
      List.count_append, List.count_singleton_self]

theorem terminated_of_startsLine {a : List Char} (ha : StartsLine a) :
    ∀ line ∈ sourceLines a, line.terminated = true := by
  rcases ha with rfl | ⟨init, rfl⟩
  · intro line hmem
    cases hmem
  · unfold sourceLines
    generalize 1 = number
    induction init using Text.lines_induction generalizing number with
    | last init hinit =>
      rw [linesFrom_lineFeed hinit]
      intro line hmem
      rw [List.mem_singleton.1 hmem]
    | line first rest hfirst ih =>
      rw [List.append_assoc, List.cons_append, linesFrom_lineFeed hfirst]
      intro line hmem
      rcases List.mem_cons.1 hmem with rfl | hmem
      · rfl
      · exact ih _ line hmem

theorem endOfLines_append (a : List Line) {b : List Line} (hb : b ≠ []) (count : Nat) :
    endOfLines (a ++ b.map (Line.down count)) = (endOfLines b).down count := by
  have hlast : (a ++ b.map (Line.down count)).getLast? = (b.getLast?).map (Line.down count) := by
    rw [List.getLast?_append_of_ne_nil a (by simpa using hb), List.getLast?_map]
  unfold endOfLines
  rw [hlast]
  cases hfound : b.getLast? with
  | none => exact absurd (List.getLast?_eq_none_iff.1 hfound) hb
  | some last =>
    change (if last.terminated then _ else _) = _
    simp only
    split
    · rw [Location.down, Nat.add_right_comm]
      rfl
    · rfl

/-! ### Open levels -/

/-- Levels that can be open at the same time, the innermost first: each is deeper than the next one,
and the outermost is zero. -/
structure Levels (levels : List Nat) : Prop where
  deepens : levels.Pairwise (· > ·)
  outermost : levels.getLast? = some 0

theorem Levels.zero : Levels [0] := ⟨List.pairwise_singleton _ _, rfl⟩

theorem Levels.exists_inner (h : Levels levels) :
    ∃ inner, levels = inner ++ [0] ∧ ∀ level ∈ inner, 0 < level := by
  obtain ⟨inner, rfl⟩ := List.getLast?_eq_some_iff.1 h.outermost
  refine ⟨inner, rfl, fun level hmem => ?_⟩
  exact (List.pairwise_append.1 h.deepens).2.2 level hmem 0 (List.mem_singleton_self 0)

theorem Levels.cons (h : Levels levels) {width : Nat} (hwidth : levels.headD 0 < width) :
    Levels (width :: levels) := by
  obtain ⟨hsorted, hlast⟩ := h
  cases levels with
  | nil => cases hlast
  | cons current outer =>
    refine ⟨List.pairwise_cons.2 ⟨fun level hmem => ?_, hsorted⟩, hlast⟩
    rcases List.mem_cons.1 hmem with rfl | hmem
    · exact hwidth
    · exact ((List.pairwise_cons.1 hsorted).1 level hmem).trans hwidth

theorem Levels.dropWhile (h : Levels levels) (width : Nat) :
    Levels (levels.dropWhile (width < ·)) := by
  obtain ⟨inner, rfl, -⟩ := h.exists_inner
  refine ⟨h.deepens.sublist (List.dropWhile_sublist _), ?_⟩
  rw [List.dropWhile_append]
  split <;> simp

/-- A margin leaves levels that can be open. -/
theorem Levels.lexMargin (h : Levels levels) (number : Nat) (margin : List Char) :
    Levels (lexMargin levels number margin).levels := by
  unfold Ignore.lexMargin
  simp only
  split
  · next hdeeper => exact h.cons hdeeper
  · exact h.dropWhile _

theorem levels_lexLine (levels : List Nat) (line : Line) :
    (lexLine levels line).levels = levels ∨
      (lexLine levels line).levels =
        (lexMargin levels line.number (line.text.takeWhile isGap)).levels := by
  unfold lexLine
  simp only
  split
  · exact .inl rfl
  · refine .inr ?_
    split
    · rfl
    · split <;> rfl

theorem Levels.lexLine (h : Levels levels) (line : Line) : Levels (lexLine levels line).levels := by
  rcases levels_lexLine levels line with heq | heq
  · rwa [heq]
  · rw [heq]
    exact h.lexMargin _ _

theorem lexMargin_nil (h : ∀ level ∈ inner, 0 < level) (number : Nat) :
    lexMargin (inner ++ [0]) number [] = ⟨inner.map fun _ => dedentAt ⟨number, 0⟩, [0], none⟩ := by
  have hpos : ∀ level ∈ inner, decide (0 < level) = true := by simpa using h
  unfold lexMargin
  simp only [List.length_nil, Nat.not_lt_zero, if_false]
  rw [List.takeWhile_append_of_pos hpos, List.dropWhile_append_of_pos hpos]
  simp

/-! ### Lexing -/

/-- Terminated lines without errors can be read before any others. Their tokens end with a
newline. -/
theorem exists_lexLines_append (hlevels : Levels levels) {lines : List Line}
    (hterminated : ∀ line ∈ lines, line.terminated = true)
    (h : (lexLines levels stop lines).error = none) :
    ∃ tokens after, Levels after ∧ (∀ token, tokens.getLast? = some token → token.kind = .newline) ∧
      ∀ stop others, lexLines levels stop (lines ++ others) =
        ⟨tokens ++ (lexLines after stop others).tokens, (lexLines after stop others).error⟩ := by
  induction lines generalizing levels with
  | nil => exact ⟨[], levels, hlevels, by simp, fun stop others => rfl⟩
  | cons line lines ih =>
    obtain ⟨hline, hlines⟩ := List.forall_mem_cons.1 hterminated
    rw [lexLines] at h
    cases herror : (lexLine levels line).error with
    | some error =>
      rw [herror] at h
      cases h
    | none =>
      simp only [herror] at h
      obtain ⟨tokens, after, hafter, hlast, hothers⟩ := ih (hlevels.lexLine line) hlines h
      refine ⟨(lexLine levels line).tokens ++ tokens, after, hafter, fun token htoken => ?_,
        fun stop others => ?_⟩
      · rw [List.getLast?_append] at htoken
        cases htokens : tokens.getLast? with
        | some found =>
          rw [htokens] at htoken
          cases htoken
          exact hlast _ htokens
        | none =>
          rw [htokens, Option.none_or] at htoken
          cases hskip : isSkipped line with
          | true =>
            rw [lexLine, if_pos hskip] at htoken
            cases htoken
          | false =>
            -- The end of a terminated line comes last.
            obtain ⟨words, column, -, -, heq⟩ := lexLine_eq hskip herror
            rw [heq, lineEnd, if_pos hline, List.getLast?_concat, Option.some.injEq] at htoken
            rw [← htoken]
      · rw [List.cons_append, lexLines]
        simp only [herror, hothers, List.append_assoc]

/-- The first line of a file is not indented when its first token is not an indent. -/
theorem takeWhile_isGap_of_nextKind {line : Line} (hskip : isSkipped line = false)
    (herror : (lexLine [0] line).error = none)
    (h : nextKind (lexLine [0] line).tokens ≠ some .indent) : line.text.takeWhile isGap = [] := by
  by_contra hne
  obtain ⟨words, column, -, -, htokens⟩ := lexLine_eq hskip herror
  have hindent : (lexMargin [0] line.number (line.text.takeWhile isGap)).tokens =
      [⟨.indent, String.ofList (line.text.takeWhile isGap), ⟨line.number, 0⟩,
        ⟨line.number, (line.text.takeWhile isGap).length⟩⟩] := by
    simp [lexMargin, List.length_pos_iff.2 hne]
  simp [htokens, hindent] at h

/-- A line that is not indented closes the open blocks and is then read as if there were none. -/
theorem lexLine_of_open (hinner : ∀ level ∈ inner, 0 < level) {line : Line}
    (hskip : isSkipped line = false) (hmargin : line.text.takeWhile isGap = []) :
    lexLine (inner ++ [0]) line =
      ⟨inner.map (fun _ => dedentAt ⟨line.number, 0⟩) ++ (lexLine [0] line).tokens,
        (lexLine [0] line).levels, (lexLine [0] line).error⟩ := by
  have houter : lexMargin [0] line.number [] = ⟨[], [0], none⟩ := rfl
  simp only [lexLine, hskip, hmargin, lexMargin_nil hinner, houter, Bool.false_eq_true, if_false,
    Option.isSome_none]
  cases (lexWords line.number ([] : List Char).length (line.text.dropWhile isGap)).error <;> simp

/-- Blocks that are open before lines which start unindented are closed, and then the lines are read
as if there were none. -/
theorem exists_lexLines_of_open (hinner : ∀ level ∈ inner, 0 < level) {lines : List Line}
    (h : (lexLines [0] stop lines).error = none)
    (hstart : nextKind (lexLines [0] stop lines).tokens ≠ some .indent) :
    ∃ location, lexLines (inner ++ [0]) stop lines =
      ⟨inner.map (fun _ => dedentAt location) ++ (lexLines [0] stop lines).tokens, none⟩ := by
  induction lines with
  | nil => exact ⟨stop, by simp [lexLines, closeAll]⟩
  | cons line lines ih =>
    cases hskip : isSkipped line with
    | true =>
      have hnone : ∀ levels, lexLine levels line = ⟨[], levels, none⟩ := fun levels => if_pos hskip
      simp only [lexLines, hnone, List.nil_append] at h hstart ⊢
      obtain ⟨location, hlines⟩ := ih h hstart
      exact ⟨location, by rw [hlines]⟩
    | false =>
      rw [lexLines] at h hstart
      cases herror : (lexLine [0] line).error with
      | some error =>
        rw [herror] at h
        cases h
      | none =>
        simp only [herror] at h hstart
        obtain ⟨words, column, hwords, -, htokens⟩ := lexLine_eq hskip herror
        have hfirst : nextKind (lexLine [0] line).tokens ≠ some .indent := by
          have hne : (lexLine [0] line).tokens ≠ [] := by simp [htokens, hwords]
          obtain ⟨first, others, heq⟩ := List.exists_cons_of_ne_nil hne
          rwa [heq] at hstart ⊢
        have hmargin := takeWhile_isGap_of_nextKind hskip herror hfirst
        refine ⟨⟨line.number, 0⟩, ?_⟩
        rw [lexLines, lexLine_of_open hinner hskip hmargin, lexLines]
        simp only [herror, h, List.append_assoc]

/-! ### Trees -/

/-- The filter ends with a newline or a dedent, so that others can follow it. -/
def FilterTree.Closed : FilterTree → Prop
  | last _ => False
  | _ => True

theorem nextKind_append_cons (tokens : List Token) {a b : Token} (h : a.kind = b.kind)
    (next next' : List Token) :
    nextKind (tokens ++ a :: next) = nextKind (tokens ++ b :: next') := by
  cases tokens with
  | nil => exact congrArg some h
  | cons token tokens => rfl

theorem ComparisonTree.DeriveAll.of_kind {trees : List ComparisonTree} {a b : Token}
    (h : DeriveAll trees (a :: next)) (hkind : a.kind = b.kind) (next' : List Token) :
    DeriveAll trees (b :: next') := by
  induction trees with
  | nil => trivial
  | cons tree trees ih =>
    obtain ⟨⟨hleft, hoperator, hright, hend⟩, hall⟩ := h
    refine ⟨⟨hleft, hoperator, hright, ?_⟩, ih hall⟩
    cases hnewline : tree.newline with
    | some newline => rwa [hnewline] at hend
    | none =>
      rw [hnewline] at hend
      exact (nextKind_append_cons _ hkind.symm _ _).trans hend

/-- What follows a closed filter does not matter. -/
theorem FilterTree.Derives.of_closed {tree : FilterTree} (h : tree.Derives next)
    (hclosed : tree.Closed) (next' : List Token) : tree.Derives next' := by
  cases tree with
  | line name newline => exact h
  | block name newline indent comparisons dedent =>
    obtain ⟨hname, hnewline, hindent, hne, hall, hdedent⟩ := h
    exact ⟨hname, hnewline, hindent, hne, hall.of_kind rfl _, hdedent⟩
  | last name => exact hclosed.elim

theorem FilterTree.DeriveAll.append {a b : List FilterTree} (hclosed : ∀ tree ∈ a, tree.Closed)
    (ha : DeriveAll a) (hb : DeriveAll b) : DeriveAll (a ++ b) := by
  induction a with
  | nil => exact hb
  | cons tree a ih =>
    obtain ⟨htree, hrest⟩ := List.forall_mem_cons.1 hclosed
    exact ⟨ha.1.of_closed htree _, ih hrest ha.2⟩

theorem FilterTree.DeriveAll.right {a b : List FilterTree} (h : DeriveAll (a ++ b)) :
    DeriveAll b := by
  induction a with
  | nil => exact h
  | cons tree a ih => exact ih h.2

theorem FilterTree.DeriveAll.left {a b : List FilterTree} (h : DeriveAll (a ++ b))
    (hclosed : ∀ tree ∈ a, tree.Closed) : DeriveAll a := by
  induction a with
  | nil => trivial
  | cons tree a ih =>
    obtain ⟨htree, hrest⟩ := List.forall_mem_cons.1 hclosed
    exact ⟨h.1.of_closed htree _, ih h.2 hrest⟩

/-- Filters whose tokens do not end with a name are closed. -/
theorem FilterTree.DeriveAll.closed (h : DeriveAll trees)
    (hlast : ∀ token, (trees.flatMap tokens).getLast? = some token → token.kind ≠ .name) :
    ∀ tree ∈ trees, tree.Closed := by
  induction trees with
  | nil => simp
  | cons tree trees ih =>
    rw [List.flatMap_cons] at hlast
    refine List.forall_mem_cons.2 ⟨?_, ih h.2 fun token htoken => hlast token ?_⟩
    · cases tree with
      | line name newline => trivial
      | block name newline indent comparisons dedent => trivial
      | last name =>
        obtain ⟨hname, hnil⟩ := h.1
        exact hlast name (by rw [hnil]; rfl) hname
    · rw [List.getLast?_append, htoken]
      rfl

theorem ComparisonTree.Derives.getLast? {tree : ComparisonTree} (h : tree.Derives next) :
    ∃ token, tree.tokens.getLast? = some token ∧ token.kind ≠ .dedent := by
  obtain ⟨left, operator, right, newline⟩ := tree
  obtain ⟨-, -, hright, hend⟩ := h
  cases newline with
  | some newline =>
    refine ⟨newline, rfl, fun hdedent => ?_⟩
    have hnewline : newline.kind = .newline := hend
    rw [hnewline] at hdedent
    cases hdedent
  | none =>
    refine ⟨right, rfl, fun hdedent => ?_⟩
    rw [show right.kind = .dedent from hdedent] at hright
    exact absurd hright (by decide)

theorem ComparisonTree.DeriveAll.getLast? {trees : List ComparisonTree} (h : DeriveAll trees next)
    (hne : trees ≠ []) :
    ∃ token, (trees.flatMap tokens).getLast? = some token ∧ token.kind ≠ .dedent := by
  induction trees with
  | nil => exact absurd rfl hne
  | cons tree trees ih =>
    rw [List.flatMap_cons, List.getLast?_append]
    by_cases hrest : trees = []
    · obtain ⟨token, htoken, hkind⟩ := h.1.getLast?
      exact ⟨token, by rw [hrest, htoken]; rfl, hkind⟩
    · obtain ⟨token, htoken, hkind⟩ := ih h.2 hrest
      exact ⟨token, by rw [htoken]; rfl, hkind⟩

/-! ### The end of the first file -/

theorem modifyLast_stop_self (filters : List Filter) :
    ∃ stop, (filters.modifyLast fun filter => { filter with stop }) = filters := by
  rcases List.eq_nil_or_concat' filters with rfl | ⟨init, last, rfl⟩
  · exact ⟨⟨1, 0⟩, rfl⟩
  · exact ⟨last.stop, List.modifyLast_concat _ _ _⟩

/-- A filter that ends with a dedent has a block, and the token before its end is no dedent. -/
theorem FilterTree.Derives.exists_block {tree : FilterTree} {before : List Token} {dedent : Token}
    (h : tree.Derives next) (htokens : tree.tokens = before ++ [dedent])
    (hdedent : dedent.kind = .dedent) :
    ∃ name newline indent comparisons, tree = .block name newline indent comparisons dedent ∧
      ∃ token, before.getLast? = some token ∧ token.kind ≠ .dedent := by
  have hend : tree.tokens.getLast? = some dedent := by rw [htokens, List.getLast?_concat]
  cases tree with
  | line name newline =>
    obtain rfl : newline = dedent := Option.some.inj hend
    rw [h.2] at hdedent
    cases hdedent
  | last name =>
    obtain rfl : name = dedent := Option.some.inj hend
    rw [h.1] at hdedent
    cases hdedent
  | block name newline indent comparisons found =>
    have hinit : [name, newline, indent] ++ comparisons.flatMap ComparisonTree.tokens ++ [found] =
        before ++ [dedent] := htokens
    obtain ⟨rfl, hfound⟩ := List.append_inj' hinit rfl
    cases hfound
    obtain ⟨-, -, -, hne, hall, -⟩ := h
    obtain ⟨token, htoken, hkind⟩ := hall.getLast? hne
    refine ⟨name, newline, indent, comparisons, rfl, token, ?_, hkind⟩
    rw [List.getLast?_append, htoken]
    rfl

/-- A file whose tokens end with a dedent ends with a filter that has a block, and the token before
is no dedent. -/
theorem IsDerivation.exists_block {tokens : List Token} {dedent : Token}
    (h : IsDerivation (tokens ++ [dedent]) trees) (hdedent : dedent.kind = .dedent) :
    ∃ init name newline indent comparisons,
      trees = init ++ [.block name newline indent comparisons dedent] ∧
      ∃ token, tokens.getLast? = some token ∧ token.kind ≠ .dedent := by
  obtain ⟨hspells, hall⟩ := h
  rcases List.eq_nil_or_concat' trees with rfl | ⟨init, tree, rfl⟩
  · simp at hspells
  rcases List.eq_nil_or_concat' tree.tokens with hnil | ⟨before, found, htokens⟩
  · exact absurd hnil tree.tokens_ne_nil
  rw [List.flatMap_append, List.flatMap_singleton, htokens, ← List.append_assoc] at hspells
  obtain ⟨rfl, hfound⟩ := List.append_inj' hspells rfl
  cases hfound
  obtain ⟨name, newline, indent, comparisons, rfl, token, htoken, hkind⟩ :=
    hall.right.1.exists_block htokens hdedent
  refine ⟨init, name, newline, indent, comparisons, rfl, token, ?_, hkind⟩
  rw [List.getLast?_append, htoken]
  rfl

/-- The filters of a file that ends with a newline or a dedent are closed. -/
theorem IsDerivation.closed {tokens : List Token} {opened : List Nat}
    (h : IsDerivation (tokens ++ opened.map fun _ => dedentAt stop) trees)
    (hlast : ∀ token, tokens.getLast? = some token → token.kind = .newline) :
    ∀ tree ∈ trees, tree.Closed := by
  refine h.derives.closed fun token htoken hname => ?_
  rw [h.spells, List.getLast?_append] at htoken
  cases hdedents : (opened.map fun _ => dedentAt stop).getLast? with
  | some dedent =>
    obtain ⟨_, -, rfl⟩ := List.mem_map.1 (List.mem_of_getLast? hdedents)
    rw [hdedents] at htoken
    cases htoken
    cases hname
  | none =>
    rw [hdedents, Option.none_or] at htoken
    rw [hlast token htoken] at hname
    cases hname

/-- At the end of a file at most one block is open. It is that of the last filter, and its dedent
can stand anywhere. -/
theorem IsDerivation.exists_moved {tokens : List Token} {opened : List Nat}
    (h : IsDerivation (tokens ++ opened.map fun _ => dedentAt stop) trees)
    (hclosed : ∀ tree ∈ trees, tree.Closed) (hrange : ∀ tree ∈ trees, tree.InRange)
    (location : Location) :
    ∃ moved, IsDerivation (tokens ++ opened.map fun _ => dedentAt location) moved ∧
      (∀ tree ∈ moved, tree.Closed) ∧ (∀ tree ∈ moved, tree.InRange) ∧
      ∃ stop, moved.map FilterTree.filter =
        (trees.map FilterTree.filter).modifyLast fun filter => { filter with stop } := by
  rcases List.eq_nil_or_concat' opened with rfl | ⟨others, level, rfl⟩
  · obtain ⟨stop, hstop⟩ := modifyLast_stop_self (trees.map FilterTree.filter)
    exact ⟨trees, h, hclosed, hrange, stop, hstop.symm⟩
  rw [List.map_append, List.map_singleton, ← List.append_assoc] at h
  obtain ⟨init, name, newline, indent, comparisons, rfl, token, htoken, hkind⟩ := h.exists_block rfl
  -- A second open block would be closed by the token before.
  obtain rfl : others = [] := by
    rcases List.eq_nil_or_concat' others with hnil | ⟨outer, inner, rfl⟩
    · exact hnil
    · rw [List.map_append, List.map_singleton, ← List.append_assoc, List.getLast?_concat,
        Option.some.injEq] at htoken
      rw [← htoken] at hkind
      exact absurd rfl hkind
  obtain ⟨hspells, hall⟩ := h
  obtain ⟨hinit, -⟩ := List.forall_mem_append.1 hclosed
  obtain ⟨hrangeInit, hrangeLast⟩ := List.forall_mem_append.1 hrange
  refine ⟨init ++ [.block name newline indent comparisons (dedentAt location)], ⟨?_, ?_⟩, ?_, ?_,
    location, ?_⟩
  · simp only [List.map_nil, List.append_nil, List.flatMap_append, List.flatMap_singleton,
      FilterTree.tokens, ← List.cons_append, ← List.append_assoc] at hspells ⊢
    rw [(List.append_inj' hspells rfl).1]
    rfl
  · obtain ⟨hname, hnewline, hindent, hne, hcomparisons, -⟩ := hall.right.1
    refine (hall.left hinit).append hinit ⟨⟨hname, hnewline, hindent, hne, ?_, rfl⟩, trivial⟩
    exact hcomparisons.of_kind (show (dedentAt stop).kind = (dedentAt location).kind from rfl) _
  · exact List.forall_mem_append.2 ⟨hinit, by simp [FilterTree.Closed]⟩
  · have hblock : (FilterTree.block name newline indent comparisons (dedentAt stop)).InRange :=
      hrangeLast _ (List.mem_singleton_self _)
    exact List.forall_mem_append.2 ⟨hrangeInit, List.forall_mem_singleton.2 hblock⟩
  · rw [List.map_append, List.map_append, List.map_singleton, List.map_singleton,
      List.modifyLast_concat]
    rfl

/-! ### Two files -/

/-- The second of two files is lexed as if it stood alone. -/
theorem lexLines_second {a b : List Char} {second : List Token} (ha : StartsLine a)
    (hb : lex b = .ok second) :
    lexLines [0] (endOfLines (sourceLines (a ++ b)))
      ((sourceLines b).map (Line.down (a.count '\n'))) =
      ⟨second.map (Token.down (a.count '\n')), none⟩ := by
  have hlexed : lexLines [0] (endOfLines (sourceLines b)) (sourceLines b) = ⟨second, none⟩ :=
    lex_eq_ok_iff.1 hb
  rw [sourceLines_append ha]
  by_cases hempty : sourceLines b = []
  · rw [hempty] at hlexed ⊢
    cases hlexed
    rfl
  · rw [endOfLines_append _ hempty, lexLines_down, hlexed]
    rfl

/-- The tokens of two files: the second one's come further down, and the dedents at the end of the
first one stand somewhere else. -/
theorem exists_lex_append {a b : List Char} {first second : List Token} (ha : StartsLine a)
    (hfirst : lex a = .ok first) (hsecond : lex b = .ok second)
    (hstart : nextKind second ≠ some .indent) :
    ∃ (tokens : List Token) (opened : List Nat) (stop location : Location),
      first = tokens ++ opened.map (fun _ => dedentAt stop) ∧
      (∀ token, tokens.getLast? = some token → token.kind = .newline) ∧
      lex (a ++ b) = .ok (tokens ++ opened.map (fun _ => dedentAt location) ++
        second.map (Token.down (a.count '\n'))) := by
  have halone : lexLines [0] (endOfLines (sourceLines a)) (sourceLines a) = ⟨first, none⟩ :=
    lex_eq_ok_iff.1 hfirst
  obtain ⟨tokens, after, hafter, hlast, happend⟩ := exists_lexLines_append Levels.zero
    (terminated_of_startsLine ha) (congrArg Stream.error halone)
  obtain ⟨opened, rfl, hopened⟩ := hafter.exists_inner
  have hbelow := lexLines_second ha hsecond
  obtain ⟨location, hlocation⟩ := exists_lexLines_of_open hopened (congrArg Stream.error hbelow)
    (by rwa [hbelow, nextKind_map_down])
  refine ⟨tokens, opened, endOfLines (sourceLines a), location, ?_, hlast, ?_⟩
  · have hclose := happend (endOfLines (sourceLines a)) []
    rw [List.append_nil, halone] at hclose
    simpa [lexLines, closeAll] using congrArg Stream.tokens hclose
  · rw [lex_eq_ok_iff, lexStream, sourceLines_append ha, happend, ← sourceLines_append ha,
      hlocation, hbelow, List.append_assoc]

theorem exists_silences_modifyLast {filters : List Filter} {warning : Warning} :
    (∃ filter ∈ filters.modifyLast fun filter => { filter with stop }, filter.Silences warning) ↔
      ∃ filter ∈ filters, filter.Silences warning := by
  rcases List.eq_nil_or_concat' filters with rfl | ⟨init, last, rfl⟩
  · rfl
  · have hlast : ({ last with stop } : Filter).Silences warning ↔ last.Silences warning := Iff.rfl
    simp [List.modifyLast_concat, or_and_right, exists_or, hlast]

/-- Filters of two files, whatever becomes of locations. -/
theorem exists_silences_append {first second : List Filter} {count : Nat} {warning : Warning} :
    (∃ filter ∈ (first.modifyLast fun filter => { filter with stop }) ++
      second.map (Filter.down count), filter.Silences warning) ↔
      (∃ filter ∈ first, filter.Silences warning) ∨ ∃ filter ∈ second, filter.Silences warning := by
  simp only [List.mem_append, or_and_right, exists_or, exists_silences_modifyLast, List.mem_map,
    exists_exists_and_eq_and, Filter.silences_down]

theorem loadIgnore_of_parse (name : String) {source : List Char} {filters : List Filter}
    (h : parse source = .ok filters) :
    loadIgnore name source =
      .ok (.compile (verify ⟨name, filters⟩ source).1, (verify ⟨name, filters⟩ source).2) := by
  rw [loadIgnore, h]
  rfl

/-- A file that is put after another one, which is empty or ends with a line feed: if both are
accepted, then so is the whole. Its filters are those of the first file, of which only the last one
may end elsewhere, and those of the second, further down by the lines of the first. It suppresses
what one of the two suppresses. -/
theorem parse_append_of_startsLine {a b : List Char} {first second : List Filter}
    (hstarts : StartsLine a) (ha : parse a = .ok first) (hb : parse b = .ok second) :
    (∃ stop, parse (a ++ b) = .ok ((first.modifyLast fun filter => { filter with stop }) ++
      second.map (Filter.down (a.count '\n')))) ∧
    ∀ nameA nameB name, ∃ ignoreA noticesA ignoreB noticesB ignore notices,
      loadIgnore nameA a = .ok (ignoreA, noticesA) ∧ loadIgnore nameB b = .ok (ignoreB, noticesB) ∧
      loadIgnore name (a ++ b) = .ok (ignore, notices) ∧
      ∀ warning, ignore.suppresses warning = true ↔
        ignoreA.suppresses warning = true ∨ ignoreB.suppresses warning = true := by
  obtain ⟨tokensA, treesA, hlexA, htreesA, hrangeA, rfl⟩ := exists_derivation_of_parse ha
  obtain ⟨tokensB, treesB, hlexB, ⟨rfl, htreesB⟩, hrangeB, rfl⟩ := exists_derivation_of_parse hb
  obtain ⟨tokens, opened, _, location, rfl, hlast, hlex⟩ := exists_lex_append hstarts hlexA hlexB
    htreesB.nextKind_ne_indent
  obtain ⟨moved, ⟨hspells, hmoved⟩, hclosed, hrange, stop, hfilters⟩ :=
    htreesA.exists_moved (htreesA.closed hlast) hrangeA location
  have hparse : parse (a ++ b) = .ok (((treesA.map FilterTree.filter).modifyLast fun filter =>
      { filter with stop }) ++ (treesB.map FilterTree.filter).map
      (Filter.down (a.count '\n'))) := by
    rw [← hfilters, List.map_map]
    have htrees : IsDerivation (tokens ++ opened.map (fun _ => dedentAt location) ++
        (treesB.flatMap FilterTree.tokens).map (Token.down (a.count '\n')))
        (moved ++ treesB.map (FilterTree.down (a.count '\n'))) := by
      refine ⟨?_, hmoved.append hclosed htreesB.down⟩
      rw [List.flatMap_append, hspells, FilterTree.flatMap_tokens_down]
    have hranges : ∀ tree ∈ moved ++ treesB.map (FilterTree.down (a.count '\n')), tree.InRange :=
      List.forall_mem_append.2 ⟨hrange,
        List.forall_mem_map.2 fun tree hmem => (hrangeB tree hmem).down⟩
    have hread := parse_of_derivation hlex htrees hranges
    have hdown : FilterTree.filter ∘ FilterTree.down (a.count '\n') =
        Filter.down (a.count '\n') ∘ FilterTree.filter :=
      funext FilterTree.filter_down
    rw [hread, List.map_append, List.map_map, hdown]
  refine ⟨⟨stop, hparse⟩, fun nameA nameB name => ⟨_, _, _, _, _, _, loadIgnore_of_parse nameA ha,
    loadIgnore_of_parse nameB hb, loadIgnore_of_parse name hparse, fun warning => ?_⟩⟩
  rw [compile_verify_suppresses_iff, compile_verify_suppresses_iff, compile_verify_suppresses_iff,
    exists_silences_append]

/-- A block at the end of the first file, which the second file closes after a comment. -/
theorem parse_append_of_startsLine_block :
    let a := "pep8\n  3 <= lineno\n".toList
    let b := "# more\nline-too-long".toList
    let first : List Filter := [⟨"pep8", [⟨.lessOrEqual, ⟨.literal (.integer 3), ⟨2, 2⟩, ⟨2, 3⟩⟩,
      ⟨.name "lineno", ⟨2, 7⟩, ⟨2, 13⟩⟩, ⟨2, 2⟩, ⟨2, 13⟩⟩], ⟨1, 0⟩, ⟨3, 0⟩⟩]
    let second : List Filter := [⟨"line-too-long", [], ⟨2, 0⟩, ⟨2, 13⟩⟩]
    (StartsLine a ∧ parse a = .ok first ∧ parse b = .ok second) ∧
      (∃ stop, parse (a ++ b) = .ok ((first.modifyLast fun filter => { filter with stop }) ++
        second.map (Filter.down (a.count '\n')))) ∧
      ∀ nameA nameB name, ∃ ignoreA noticesA ignoreB noticesB ignore notices,
        loadIgnore nameA a = .ok (ignoreA, noticesA) ∧
          loadIgnore nameB b = .ok (ignoreB, noticesB) ∧
        loadIgnore name (a ++ b) = .ok (ignore, notices) ∧
        ∀ warning, ignore.suppresses warning = true ↔
          ignoreA.suppresses warning = true ∨ ignoreB.suppresses warning = true := by
  intro a b first second
  have hstarts : StartsLine a := .inr ⟨"pep8\n  3 <= lineno".toList, by decide⟩
  have ha : parse a = .ok first := by decide +kernel
  have hb : parse b = .ok second := by decide +kernel
  exact ⟨⟨hstarts, ha, hb⟩, parse_append_of_startsLine hstarts ha hb⟩

end PythonLint.Ignore
