import PythonLint.Proofs.Ignore.Acceptance
import PythonLint.Proofs.Ignore.Meaning

/-!
# Moving an ignore file down

The same lines further down in a file: every location that is reported about them moves down by as
many lines, and nothing else changes. This is carried from the lines through the lexer and the
grammar to the filters, and what the filters mean does not change at all.

Main statements: `lexLines_down`, `FilterTree.DeriveAll.down`, `FilterTree.filter_down`,
`Filter.silences_down`.
-/

namespace PythonLint

/-- The location that lies `count` lines further down. -/
def Location.down (count : Nat) (location : Location) : Location :=
  { location with line := location.line + count }

namespace Ignore

variable {count : Nat}

/-! ### Lexing -/

def Line.down (count : Nat) (line : Line) : Line :=
  { line with number := line.number + count }

def Token.down (count : Nat) (token : Token) : Token :=
  { token with start := token.start.down count, stop := token.stop.down count }

def LexError.down (count : Nat) (error : LexError) : LexError :=
  { error with location := error.location.down count }

def Words.down (count : Nat) (words : Words) : Words :=
  ⟨words.tokens.map (Token.down count), words.column, words.error.map (LexError.down count)⟩

def Piece.down (count : Nat) (piece : Piece) : Piece :=
  ⟨piece.tokens.map (Token.down count), piece.levels, piece.error.map (LexError.down count)⟩

def Stream.down (count : Nat) (stream : Stream) : Stream :=
  ⟨stream.tokens.map (Token.down count), stream.error.map (LexError.down count)⟩

theorem lexWords_down (number column : Nat) (text : List Char) :
    lexWords (number + count) column text = (lexWords number column text).down count := by
  fun_induction lexWords number column text with
  | case1 column => rw [lexWords_nil]; rfl
  | case2 column c rest hgap ih => rw [lexWords_gap _ _ hgap, ih]
  | case3 column c rest hgap hword =>
    rw [lexWords, if_neg hgap, hword]
    rfl
  | case4 column c rest hgap kind lexeme hword stop others ih =>
    rw [lexWords, if_neg hgap, hword]
    simp only [show column + lexeme.length = stop from rfl, ih]
    rfl

theorem lexMargin_down (levels : List Nat) (number : Nat) (margin : List Char) :
    lexMargin levels (number + count) margin = (lexMargin levels number margin).down count := by
  unfold lexMargin
  simp only
  split
  · rfl
  · rw [Piece.down, List.map_map]
    split <;> rfl

theorem lineEnd_down (line : Line) (column : Nat) :
    lineEnd (line.down count) column = (lineEnd line column).map (Token.down count) := by
  unfold lineEnd
  change (if line.terminated then _ else _) = _
  split
  · rw [List.map_singleton, Token.down, Location.down, Location.down, Nat.add_right_comm]
    rfl
  · rfl

theorem lexLine_down (levels : List Nat) (line : Line) :
    lexLine levels (line.down count) = (lexLine levels line).down count := by
  have hskip : isSkipped (line.down count) = isSkipped line := rfl
  have hnumber : (line.down count).number = line.number + count := rfl
  have htext : (line.down count).text = line.text := rfl
  unfold lexLine
  simp only [hskip, hnumber, htext, lexMargin_down, lexWords_down, lineEnd_down, Words.down]
  split
  · rfl
  simp only [Piece.down, Option.isSome_map]
  split
  · rfl
  cases (lexWords line.number (line.text.takeWhile isGap).length
    (line.text.dropWhile isGap)).error with
  | some error => simp
  | none => simp

/-- The tokens of lines that stand further down in a file, which also ends further down. -/
theorem lexLines_down (levels : List Nat) (stop : Location) (lines : List Line) :
    lexLines levels (stop.down count) (lines.map (Line.down count)) =
      (lexLines levels stop lines).down count := by
  induction lines generalizing levels with
  | nil =>
    simp only [lexLines, closeAll, Stream.down, List.map_nil, List.map_map]
    rfl
  | cons line lines ih =>
    simp only [List.map_cons, lexLines, lexLine_down, Piece.down]
    cases (lexLine levels line).error with
    | some error => rfl
    | none => simp [ih, Stream.down]

/-! ### Trees and filters -/

def Operand.down (count : Nat) (operand : Operand) : Operand :=
  { operand with start := operand.start.down count, stop := operand.stop.down count }

def Expression.down (count : Nat) (expression : Expression) : Expression :=
  ⟨expression.operator, expression.left.down count, expression.right.down count,
    expression.start.down count, expression.stop.down count⟩

/-- The filter that stands `count` lines further down. -/
def Filter.down (count : Nat) (filter : Filter) : Filter :=
  ⟨filter.name, filter.expressions.map (Expression.down count), filter.start.down count,
    filter.stop.down count⟩

def ComparisonTree.down (count : Nat) (tree : ComparisonTree) : ComparisonTree :=
  ⟨tree.left.down count, tree.operator.down count, tree.right.down count,
    tree.newline.map (Token.down count)⟩

def FilterTree.down (count : Nat) : FilterTree → FilterTree
  | line name newline => line (name.down count) (newline.down count)
  | block name newline indent comparisons dedent =>
    block (name.down count) (newline.down count) (indent.down count)
      (comparisons.map (ComparisonTree.down count)) (dedent.down count)
  | last name => last (name.down count)

theorem nextKind_map_down (tokens : List Token) :
    nextKind (tokens.map (Token.down count)) = nextKind tokens := by
  cases tokens <;> rfl

theorem ComparisonTree.tokens_down (tree : ComparisonTree) :
    (tree.down count).tokens = tree.tokens.map (Token.down count) := by
  obtain ⟨left, operator, right, newline⟩ := tree
  cases newline <;> rfl

theorem ComparisonTree.flatMap_tokens_down (trees : List ComparisonTree) :
    (trees.map (ComparisonTree.down count)).flatMap tokens =
      (trees.flatMap tokens).map (Token.down count) := by
  rw [List.flatMap_map, List.map_flatMap]
  exact congrArg (trees.flatMap ·) (funext tokens_down)

theorem FilterTree.tokens_down (tree : FilterTree) :
    (tree.down count).tokens = tree.tokens.map (Token.down count) := by
  cases tree with
  | line name newline => rfl
  | block name newline indent comparisons dedent =>
    simp [tokens, down, ComparisonTree.flatMap_tokens_down]
  | last name => rfl

theorem FilterTree.flatMap_tokens_down (trees : List FilterTree) :
    (trees.map (FilterTree.down count)).flatMap tokens =
      (trees.flatMap tokens).map (Token.down count) := by
  rw [List.flatMap_map, List.map_flatMap]
  exact congrArg (trees.flatMap ·) (funext tokens_down)

theorem ComparisonTree.Derives.down {tree : ComparisonTree} {next : List Token}
    (h : tree.Derives next) : (tree.down count).Derives (next.map (Token.down count)) := by
  obtain ⟨left, operator, right, newline⟩ := tree
  refine ⟨h.1, h.2.1, h.2.2.1, ?_⟩
  have hend := h.2.2.2
  cases newline with
  | some newline => exact hend
  | none => exact (nextKind_map_down next).trans hend

theorem ComparisonTree.DeriveAll.down {trees : List ComparisonTree} {next : List Token}
    (h : DeriveAll trees next) :
    DeriveAll (trees.map (ComparisonTree.down count)) (next.map (Token.down count)) := by
  induction trees with
  | nil => trivial
  | cons tree trees ih =>
    refine ⟨?_, ih h.2⟩
    have htree : (tree.down count).Derives _ := h.1.down
    rwa [List.map_append, ← flatMap_tokens_down] at htree

theorem FilterTree.Derives.down {tree : FilterTree} {next : List Token} (h : tree.Derives next) :
    (tree.down count).Derives (next.map (Token.down count)) := by
  cases tree with
  | line name newline => exact h
  | block name newline indent comparisons dedent =>
    obtain ⟨hname, hnewline, hindent, hne, hall, hdedent⟩ := h
    exact ⟨hname, hnewline, hindent, by simpa using hne, hall.down, hdedent⟩
  | last name => exact ⟨h.1, by rw [h.2]; rfl⟩

/-- Trees that follow the rules do so further down. -/
theorem FilterTree.DeriveAll.down {trees : List FilterTree} (h : DeriveAll trees) :
    DeriveAll (trees.map (FilterTree.down count)) := by
  induction trees with
  | nil => trivial
  | cons tree trees ih =>
    refine ⟨?_, ih h.2⟩
    have htree : (tree.down count).Derives _ := h.1.down
    rwa [← flatMap_tokens_down] at htree

/-- A tree that is moved down stands for its filter further down. -/
theorem FilterTree.filter_down (tree : FilterTree) :
    (tree.down count).filter = tree.filter.down count := by
  cases tree with
  | line name newline => rfl
  | block name newline indent comparisons dedent =>
    simp only [down, filter, Filter.down, List.map_map]
    rfl
  | last name => rfl

theorem FilterTree.InRange.down {tree : FilterTree} (h : tree.InRange) :
    (tree.down count).InRange := by
  cases tree with
  | line name newline => exact fun _ hmem => nomatch hmem
  | block name newline indent comparisons dedent =>
    intro comparison hmem
    obtain ⟨tree, htree, rfl⟩ := List.mem_map.1 hmem
    exact h tree htree
  | last name => exact fun _ hmem => nomatch hmem

/-! ### Meaning -/

theorem Expression.wellFormed_down {target : Target} {expression : Expression} :
    (expression.down count).WellFormed target ↔ expression.WellFormed target := by
  rw [wellFormed_iff, wellFormed_iff]
  rfl

theorem Filter.silences_down {filter : Filter} {warning : Warning} :
    (filter.down count).Silences warning ↔ filter.Silences warning := by
  unfold Silences Filter.down
  simp only [List.forall_mem_map, Expression.wellFormed_down]
  rfl

end Ignore

end PythonLint
