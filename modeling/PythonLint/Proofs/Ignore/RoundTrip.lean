import PythonLint.Proofs.Ignore.Acceptance

/-!
# Writing ignore files

Filters are written one after the other, the name on a line of its own and the comparisons on lines
of their own below it, indented by blanks. What is written is read as the same filters.

Main statements: `exists_filterTree_of_lines`, `exists_content_of_parse_written`.
-/

namespace PythonLint.Ignore

variable {expression : Expression} {line : Line} {entries : List (List Char × Filter)}
    {margin : List Char}
  {others : List Line} {kind : OperandKind} {token : Token}

/-! ### Writing -/

def OperandKind.text : OperandKind → List Char
  | .name id => id.toList
  | .literal (.string value) => '"' :: value.toList ++ ['"']
  | .literal (.integer value) => value.repr.toList

/-- How a comparison is written. -/
def Expression.text (expression : Expression) : List Char :=
  expression.left.kind.text ++ ' ' :: (expression.operator.symbol.toList ++
    ' ' :: expression.right.kind.text)

/-- The lines of a filter whose comparisons are indented by `margin`. -/
def Filter.lines (margin : List Char) (filter : Filter) : List (List Char) :=
  filter.name.toList :: filter.expressions.map fun expression => margin ++ expression.text

/-- The lines of filters, each with the margin of its comparisons. -/
def fileLines (entries : List (List Char × Filter)) : List (List Char) :=
  entries.flatMap fun entry => entry.2.lines entry.1

def OperandKind.Writable : OperandKind → Prop
  | .name id => IsWord .name id.toList
  | .literal (.string value) => '"' ∉ value.toList ∧ '\n' ∉ value.toList
  | .literal (.integer value) => value < Nat.pow 2 64

/-- The names and the operands of the filter can be written. -/
def Filter.Writable (filter : Filter) : Prop :=
  IsWord .name filter.name.toList ∧
    ∀ expression ∈ filter.expressions,
      expression.left.kind.Writable ∧ expression.right.kind.Writable

/-- The margin is a run of spaces and tabs, at least one. -/
def IsMargin (margin : List Char) : Prop :=
  margin ≠ [] ∧ ∀ c ∈ margin, isGap c = true

-- Over characters, `List.all` is decided along the list and `∀` by going through all characters.
theorem isWord_name_iff {text : List Char} :
    IsWord .name text ↔ text.head?.any Char.isAlpha = true ∧ text.tail.all isNameChar = true := by
  rw [List.all_eq_true]
  constructor
  · rintro ⟨hc, hrest⟩
    exact ⟨hc, hrest⟩
  · rintro ⟨hhead, hrest⟩
    cases text with
    | nil => cases hhead
    | cons c rest => exact .name hhead hrest

instance (text : List Char) : Decidable (IsWord .name text) :=
  decidable_of_iff _ isWord_name_iff.symm

theorem isMargin_iff : IsMargin margin ↔ margin ≠ [] ∧ margin.all isGap = true := by
  rw [List.all_eq_true, IsMargin]

instance (margin : List Char) : Decidable (IsMargin margin) :=
  decidable_of_iff _ isMargin_iff.symm

instance (kind : OperandKind) : Decidable kind.Writable :=
  match kind with
  | .name id => inferInstanceAs (Decidable (IsWord .name id.toList))
  | .literal (.string value) =>
    inferInstanceAs (Decidable ('"' ∉ value.toList ∧ '\n' ∉ value.toList))
  | .literal (.integer value) => inferInstanceAs (Decidable (value < Nat.pow 2 64))

instance (filter : Filter) : Decidable filter.Writable :=
  inferInstanceAs (Decidable (_ ∧ _))

/-- What a comparison says, without locations. -/
def Expression.content (expression : Expression) : OperandKind × Operator × OperandKind :=
  (expression.left.kind, expression.operator, expression.right.kind)

/-- What a filter says, without locations. -/
def Filter.content (filter : Filter) : String × List (OperandKind × Operator × OperandKind) :=
  (filter.name, filter.expressions.map Expression.content)

/-! ### Words -/

/-- The kind of the token that an operand is written as. -/
def OperandKind.tokenKind : OperandKind → TokenKind
  | .name _ => .name
  | .literal (.string _) => .string
  | .literal (.integer _) => .integer

theorem OperandKind.Writable.isWord (h : kind.Writable) : IsWord kind.tokenKind kind.text := by
  match kind, h with
  | .name id, h => exact h
  | .literal (.string value), h => exact .string h.1
  | .literal (.integer value), _ =>
    have hdigits : ∀ c ∈ value.repr.toList, c.isDigit = true := by
      rw [Nat.toList_repr]
      exact fun c hc => Nat.isDigit_of_mem_toDigits (by decide) (by decide) hc
    have hne : value.repr.toList ≠ [] := by
      rw [Nat.toList_repr]
      exact Nat.toDigits_ne_nil
    obtain ⟨c, rest, htext⟩ := List.exists_cons_of_ne_nil hne
    rw [htext] at hdigits
    change IsWord .integer value.repr.toList
    rw [htext]
    exact .integer (hdigits c List.mem_cons_self) fun d hd => hdigits d (List.mem_cons_of_mem _ hd)

/-- The token that an operand is written as stands for the operand, and is in range. -/
theorem OperandKind.Writable.operand_eq (h : kind.Writable) (hkind : token.kind = kind.tokenKind)
    (hlexeme : token.lexeme = String.ofList kind.text) :
    token.operand.kind = kind ∧ token.kind.IsOperand ∧ token.InRange := by
  match kind, h with
  | .name id, _ =>
    have hname : token.kind = .name := hkind
    refine ⟨?_, .inl hname, fun hinteger => absurd (hname.symm.trans hinteger) (by decide)⟩
    simp [Token.operand, hname, hlexeme, text]
  | .literal (.string value), _ =>
    have hstring : token.kind = .string := hkind
    refine ⟨?_, .inr (.inl hstring), fun hinteger =>
      absurd (hstring.symm.trans hinteger) (by decide)⟩
    simp [Token.operand, hstring, hlexeme, text]
  | .literal (.integer value), hlt =>
    have hinteger : token.kind = .integer := hkind
    have hvalue : Nat.ofDigitChars 10 token.lexeme.toList 0 = value := by
      rw [hlexeme, String.toList_ofList, text, Nat.toList_repr, Nat.ofDigitChars_ten_toDigits]
    refine ⟨?_, .inr (.inr hinteger), fun _ => hvalue ▸ hlt⟩
    simp only [Token.operand, hinteger, hvalue]

theorem Token.operator_eq {operator : Operator}
    (h : token.lexeme = String.ofList operator.symbol.toList) : token.operator = operator := by
  rw [String.ofList_toList] at h
  rw [Token.operator, h]
  cases operator <;> rfl

theorem startsWithGap_nil : StartsWithGap [] := by
  rintro c ⟨⟩

theorem startsWithGap_space (rest : List Char) : StartsWithGap (' ' :: rest) := by
  rintro c ⟨⟩
  rfl

/-- A word starts with no blank and no mark of a comment. -/
theorem IsWord.exists_cons {kind : TokenKind} {lexeme : List Char} (h : IsWord kind lexeme) :
    ∃ c rest, lexeme = c :: rest ∧ isGap c = false ∧ c ≠ '#' := by
  obtain ⟨c, rest, rfl⟩ := List.exists_cons_of_ne_nil h.ne_nil
  refine ⟨c, rest, rfl, h.head_not_isGap, ?_⟩
  rintro rfl
  have hnone : wordAt ('#' :: rest) = none := rfl
  have hsome := h.wordAt_append startsWithGap_nil
  rw [List.append_nil, hnone] at hsome
  cases hsome

/-- A word before a blank or the end of the line becomes a token. -/
theorem IsWord.exists_token {kind : TokenKind} {lexeme rest : List Char} (h : IsWord kind lexeme)
    (hrest : StartsWithGap rest) (number column : Nat) :
    ∃ (token : Token) (stop : Nat), token.kind = kind ∧ token.lexeme = String.ofList lexeme ∧
      lexWords number column (lexeme ++ rest) =
        ⟨token :: (lexWords number stop rest).tokens, (lexWords number stop rest).column,
          (lexWords number stop rest).error⟩ :=
  ⟨_, _, rfl, rfl, lexWords_word number column h hrest⟩

theorem lexWords_text (hleft : expression.left.kind.Writable)
    (hright : expression.right.kind.Writable) (number column : Nat) :
    ∃ (left operator right : Token) (stop : Nat),
      lexWords number column expression.text = ⟨[left, operator, right], stop, none⟩ ∧
      left.kind.IsOperand ∧ operator.kind = .operator ∧ right.kind.IsOperand ∧ left.InRange ∧
      right.InRange ∧ (left.operand.kind, operator.operator, right.operand.kind) =
        expression.content := by
  obtain ⟨left, _, hleftKind, hleftLexeme, hleftWords⟩ :=
    hleft.isWord.exists_token (startsWithGap_space (expression.operator.symbol.toList ++
      ' ' :: expression.right.kind.text)) number column
  rw [lexWords_gap _ _ rfl] at hleftWords
  obtain ⟨operator, _, hoperatorKind, hoperatorLexeme, hoperatorWords⟩ :=
    (IsWord.operator expression.operator).exists_token
      (startsWithGap_space expression.right.kind.text) number _
  rw [lexWords_gap _ _ rfl] at hoperatorWords
  obtain ⟨right, stop, hrightKind, hrightLexeme, hrightWords⟩ :=
    hright.isWord.exists_token startsWithGap_nil number _
  rw [List.append_nil, lexWords_nil] at hrightWords
  obtain ⟨hleftEq, hleftOperand, hleftRange⟩ := hleft.operand_eq hleftKind hleftLexeme
  obtain ⟨hrightEq, hrightOperand, hrightRange⟩ := hright.operand_eq hrightKind hrightLexeme
  refine ⟨left, operator, right, stop, ?_, hleftOperand, hoperatorKind, hrightOperand, hleftRange,
    hrightRange, ?_⟩
  · rw [Expression.text, hleftWords, hoperatorWords, hrightWords]
  · rw [hleftEq, hrightEq, Token.operator_eq hoperatorLexeme, Expression.content]

/-! ### Margins -/

theorem lexMargin_outer (number : Nat) : lexMargin [0] number [] = ⟨[], [0], none⟩ := rfl

theorem lexMargin_close {width : Nat} (h : 0 < width) (number : Nat) :
    lexMargin [width, 0] number [] = ⟨[dedentAt ⟨number, 0⟩], [0], none⟩ := by
  simp [lexMargin, h]

theorem lexMargin_open (h : IsMargin margin) (number : Nat) :
    ∃ indent : Token, indent.kind = .indent ∧
      lexMargin [0] number margin = ⟨[indent], [margin.length, 0], none⟩ := by
  have hpos := List.length_pos_iff.2 h.1
  refine ⟨⟨.indent, String.ofList margin, ⟨number, 0⟩, ⟨number, margin.length⟩⟩, rfl, ?_⟩
  exact if_pos hpos

theorem lexMargin_same (margin : List Char) (number : Nat) :
    lexMargin [margin.length, 0] number margin = ⟨[], [margin.length, 0], none⟩ := by
  simp [lexMargin]

/-! ### Lines -/

theorem lexLines_cons {levels after : List Nat} {tokens : List Token}
    (h : lexLine levels line = ⟨tokens, after, none⟩) (stop : Location) (lines : List Line) :
    lexLines levels stop (line :: lines) =
      ⟨tokens ++ (lexLines after stop lines).tokens, (lexLines after stop lines).error⟩ := by
  rw [lexLines, h]

/-- The line of a name, whatever its margin does. -/
theorem exists_name_of_line {name : String} (hname : IsWord .name name.toList)
    (htext : line.text = name.toList) :
    ∃ (token : Token) (column : Nat), token.kind = .name ∧ token.lexeme = name ∧
      ∀ {levels after : List Nat} {marks : List Token},
        lexMargin levels line.number [] = ⟨marks, after, none⟩ →
        lexLine levels line = ⟨marks ++ token :: lineEnd line column, after, none⟩ := by
  obtain ⟨token, column, hkind, hlexeme, hwords⟩ :=
    hname.exists_token startsWithGap_nil line.number 0
  rw [List.append_nil, lexWords_nil] at hwords
  obtain ⟨c, rest, hcons, hgap, hcomment⟩ := hname.exists_cons
  refine ⟨token, column, hkind, by rw [hlexeme, String.ofList_toList], fun hmarks => ?_⟩
  rw [hcons] at htext hwords
  have hline : line.text = [] ++ c :: rest := htext
  rw [lexLine_of_words hline (by simp) hgap hcomment hmarks hwords, List.append_assoc]
  rfl

/-- The line of a comparison, whatever its margin does. The tree may lack its newline only where the
line is not terminated. -/
theorem exists_comparisonTree_of_line (hleft : expression.left.kind.Writable)
    (hright : expression.right.kind.Writable) (hmargin : IsMargin margin)
    (htext : line.text = margin ++ expression.text) :
    ∃ tree : ComparisonTree,
      (∀ {levels after : List Nat} {marks : List Token},
        lexMargin levels line.number margin = ⟨marks, after, none⟩ →
        lexLine levels line = ⟨marks ++ tree.tokens, after, none⟩) ∧
      (∀ next, (line.terminated = false → nextKind next = some .dedent) → tree.Derives next) ∧
      tree.InRange ∧ tree.expression.content = expression.content := by
  obtain ⟨left, operator, right, column, hwords, hleftKind, hoperator, hrightKind, hleftRange,
    hrightRange, hcontent⟩ := lexWords_text hleft hright line.number margin.length
  obtain ⟨c, rest, hcons, hgap, hcomment⟩ := hleft.isWord.exists_cons
  have htext' : expression.text = c :: (rest ++ ' ' :: (expression.operator.symbol.toList ++
      ' ' :: expression.right.kind.text)) := by
    rw [Expression.text, hcons, List.cons_append]
  rw [htext'] at htext hwords
  refine ⟨⟨left, operator, right, (lineEnd line column).head?⟩, fun hmarks => ?_,
    fun next hnext => ?_, ⟨hleftRange, hrightRange⟩, hcontent⟩
  · rw [lexLine_of_words htext hmargin.2 hgap hcomment hmarks hwords, List.append_assoc]
    cases hterminated : line.terminated <;> simp [lineEnd, hterminated, ComparisonTree.tokens]
  · refine ⟨hleftKind, hoperator, hrightKind, ?_⟩
    cases hterminated : line.terminated with
    | true => simp [lineEnd, hterminated]
    | false => simpa [lineEnd, hterminated] using hnext hterminated

/-- The lines of comparisons inside their block are the tokens of trees for them. -/
theorem exists_comparisonTrees_of_lines {expressions : List Expression}
    (hwritable : ∀ expression ∈ expressions, expression.left.kind.Writable ∧
      expression.right.kind.Writable)
    (hmargin : IsMargin margin) (stop : Location) {lines : List Line}
    (htext : lines.map Line.text = expressions.map fun expression => margin ++ expression.text)
    (hopen : OnlyLastOpen (lines ++ others)) :
    ∃ trees : List ComparisonTree,
      lexLines [margin.length, 0] stop (lines ++ others) =
        ⟨trees.flatMap ComparisonTree.tokens ++ (lexLines [margin.length, 0] stop others).tokens,
          (lexLines [margin.length, 0] stop others).error⟩ ∧
      (∀ next, nextKind next = some .dedent → ComparisonTree.DeriveAll trees next) ∧
      (∀ tree ∈ trees, tree.InRange) ∧
      trees.map (fun tree => tree.expression.content) = expressions.map Expression.content := by
  induction expressions generalizing lines with
  | nil =>
    obtain rfl : lines = [] := List.map_eq_nil_iff.1 htext
    exact ⟨[], rfl, fun _ _ => trivial, by simp, rfl⟩
  | cons expression expressions ih =>
    obtain ⟨⟨hleft, hright⟩, hwritable⟩ := List.forall_mem_cons.1 hwritable
    rw [List.map_cons] at htext
    obtain ⟨line, lines, rfl, hline, hlines⟩ := List.map_eq_cons_iff.1 htext
    obtain ⟨hterminated, hopen⟩ := hopen
    obtain ⟨tree, htokens, hderives, hrange, hcontent⟩ :=
      exists_comparisonTree_of_line hleft hright hmargin hline
    obtain ⟨trees, hlex, hall, hranges, hcontents⟩ := ih hwritable hlines hopen
    refine ⟨tree :: trees, ?_, fun next hnext => ⟨hderives _ fun hfalse => ?_, hall next hnext⟩,
      List.forall_mem_cons.2 ⟨hrange, hranges⟩, ?_⟩
    · rw [List.cons_append, lexLines_cons (htokens (lexMargin_same margin line.number)), hlex,
        List.nil_append, List.flatMap_cons, List.append_assoc]
    · -- Only the last line can lack its end, so that no tree comes between this one and the dedent.
      have hlast : lines ++ others = [] := by
        by_contra hne
        rw [hterminated hne] at hfalse
        cases hfalse
      obtain rfl := (List.append_eq_nil_iff.1 hlast).1
      obtain rfl : expressions = [] := List.map_eq_nil_iff.1 hlines.symm
      obtain rfl : trees = [] := List.map_eq_nil_iff.1 hcontents
      exact hnext
    · rw [List.map_cons, List.map_cons, hcontent, hcontents]

/-- The lines start with a name, unless there are none. -/
def StartWithName (lines : List Line) : Prop :=
  ∀ line ∈ lines.head?, ∃ name : String, IsWord .name name.toList ∧ line.text = name.toList

/-- Where a block ends, a dedent comes before the tokens that follow. -/
theorem exists_dedent (h : StartWithName others) {width : Nat} (hwidth : 0 < width)
    (stop : Location) :
    ∃ dedent : Token, dedent.kind = .dedent ∧
      lexLines [width, 0] stop others =
        ⟨dedent :: (lexLines [0] stop others).tokens, (lexLines [0] stop others).error⟩ := by
  cases others with
  | nil => exact ⟨dedentAt stop, rfl, rfl⟩
  | cons line others =>
    obtain ⟨name, hname, htext⟩ := h line rfl
    obtain ⟨token, column, -, -, htokens⟩ := exists_name_of_line hname htext
    refine ⟨dedentAt ⟨line.number, 0⟩, rfl, ?_⟩
    rw [lexLines_cons (htokens (lexMargin_close hwidth line.number)),
      lexLines_cons (htokens (lexMargin_outer line.number))]
    rfl

/-- Where a block starts, an indent comes before the tokens of its first line. -/
theorem exists_indent (hleft : expression.left.kind.Writable)
    (hright : expression.right.kind.Writable) (hmargin : IsMargin margin) (stop : Location)
    (htext : line.text = margin ++ expression.text) (others : List Line) :
    ∃ indent : Token, indent.kind = .indent ∧
      lexLines [0] stop (line :: others) =
        ⟨indent :: (lexLines [margin.length, 0] stop (line :: others)).tokens,
          (lexLines [margin.length, 0] stop (line :: others)).error⟩ := by
  obtain ⟨tree, htokens, -⟩ := exists_comparisonTree_of_line hleft hright hmargin htext
  obtain ⟨indent, hkind, hmarks⟩ := lexMargin_open hmargin line.number
  refine ⟨indent, hkind, ?_⟩
  rw [lexLines_cons (htokens hmarks), lexLines_cons (htokens (lexMargin_same margin line.number))]
  rfl

theorem exists_newline (h : line.terminated = true) (column : Nat) :
    ∃ newline : Token, newline.kind = .newline ∧ lineEnd line column = [newline] :=
  ⟨_, rfl, if_pos h⟩

/-! ### Filters -/

/-- The line of a name without comparisons is the tokens of a tree, whether it is terminated or
not. -/
theorem exists_filterTree_of_name (hkind : token.kind = .name)
    (hterminated : others ≠ [] → line.terminated = true) (column : Nat) (stop : Location) :
    ∃ tree : FilterTree, token :: lineEnd line column = tree.tokens ∧
      tree.Derives (lexLines [0] stop others).tokens ∧ tree.InRange ∧
      tree.filter.content = (token.lexeme, []) := by
  cases hline : line.terminated with
  | true =>
    obtain ⟨newline, hnewline, hend⟩ := exists_newline hline column
    exact ⟨.line token newline, by rw [hend]; rfl, ⟨hkind, hnewline⟩,
      FilterTree.inRange_of_comparisons_eq_nil rfl, rfl⟩
  | false =>
    obtain rfl : others = [] := by
      by_contra hne
      rw [hterminated hne] at hline
      cases hline
    exact ⟨.last token, by rw [lineEnd, hline]; rfl, ⟨hkind, rfl⟩,
      FilterTree.inRange_of_comparisons_eq_nil rfl, rfl⟩

theorem exists_filterTree_of_lines {filter : Filter} (hwritable : filter.Writable)
    (hmargin : IsMargin margin) (stop : Location) {lines : List Line}
    (htext : lines.map Line.text = filter.lines margin) (hopen : OnlyLastOpen (lines ++ others))
    (hothers : StartWithName others) :
    ∃ tree : FilterTree,
      lexLines [0] stop (lines ++ others) =
        ⟨tree.tokens ++ (lexLines [0] stop others).tokens, (lexLines [0] stop others).error⟩ ∧
      tree.Derives (lexLines [0] stop others).tokens ∧ tree.InRange ∧
      tree.filter.content = filter.content := by
  obtain ⟨name, expressions, start, finish⟩ := filter
  obtain ⟨hname, hwritable⟩ := hwritable
  obtain ⟨line, lines, rfl, hline, hlines⟩ := List.map_eq_cons_iff.1 htext
  obtain ⟨hterminated, hopen⟩ := hopen
  obtain ⟨token, column, hkind, rfl, htokens⟩ := exists_name_of_line hname hline
  have hlex := lexLines_cons (htokens (lexMargin_outer line.number)) stop (lines ++ others)
  rw [List.nil_append] at hlex
  rw [List.cons_append, hlex]
  cases expressions with
  | nil =>
    obtain rfl : lines = [] := List.map_eq_nil_iff.1 hlines
    obtain ⟨tree, htree, hderives, hrange, hcontent⟩ :=
      exists_filterTree_of_name hkind hterminated column stop
    exact ⟨tree, by rw [htree]; rfl, hderives, hrange, hcontent⟩
  | cons expression expressions =>
    obtain ⟨first, rest, rfl, hfirst, -⟩ := List.map_eq_cons_iff.1 hlines
    obtain ⟨newline, hnewline, hend⟩ := exists_newline (hterminated (by simp)) column
    obtain ⟨⟨hleft, hright⟩, -⟩ := List.forall_mem_cons.1 hwritable
    obtain ⟨indent, hindent, hblock⟩ :=
      exists_indent hleft hright hmargin stop hfirst (rest ++ others)
    obtain ⟨trees, htrees, hall, hranges, hcontents⟩ :=
      exists_comparisonTrees_of_lines hwritable hmargin stop hlines hopen
    obtain ⟨dedent, hdedent, hafter⟩ :=
      exists_dedent hothers (List.length_pos_iff.2 hmargin.1) stop
    have hne : trees ≠ [] := by
      rintro rfl
      cases hcontents
    refine ⟨.block token newline indent trees dedent, ?_,
      ⟨hkind, hnewline, hindent, hne, hall _ (congrArg some hdedent), hdedent⟩, hranges, ?_⟩
    · rw [← List.cons_append] at hblock
      rw [hend, hblock, htrees, hafter]
      simp [FilterTree.tokens]
    · rw [FilterTree.filter, Filter.content, Filter.content, List.map_map]
      exact congrArg _ hcontents

theorem startWithName_of_fileLines
    (hwritable : ∀ entry ∈ entries, entry.2.Writable ∧ IsMargin entry.1) {lines : List Line}
    (htext : lines.map Line.text = fileLines entries) : StartWithName lines := by
  cases entries with
  | nil =>
    obtain rfl : lines = [] := List.map_eq_nil_iff.1 htext
    rintro line ⟨⟩
  | cons entry entries =>
    obtain ⟨line, lines, rfl, hline, -⟩ := List.map_eq_cons_iff.1 htext
    rintro _ ⟨⟩
    exact ⟨entry.2.name, (hwritable entry List.mem_cons_self).1.1, hline⟩

/-- The lines of filters are the tokens of trees for them. -/
theorem exists_filterTrees_of_lines
    (hwritable : ∀ entry ∈ entries, entry.2.Writable ∧ IsMargin entry.1) (stop : Location)
    {lines : List Line} (htext : lines.map Line.text = fileLines entries)
    (hopen : OnlyLastOpen lines) :
    ∃ trees : List FilterTree,
      lexLines [0] stop lines = ⟨trees.flatMap FilterTree.tokens, none⟩ ∧
      FilterTree.DeriveAll trees ∧ (∀ tree ∈ trees, tree.InRange) ∧
      trees.map (fun tree => tree.filter.content) = entries.map fun entry => entry.2.content := by
  induction entries generalizing lines with
  | nil =>
    obtain rfl : lines = [] := List.map_eq_nil_iff.1 htext
    exact ⟨[], rfl, trivial, by simp, rfl⟩
  | cons entry entries ih =>
    obtain ⟨⟨hentry, hmargin⟩, hentries⟩ := List.forall_mem_cons.1 hwritable
    rw [fileLines, List.flatMap_cons] at htext
    obtain ⟨lines, others, rfl, hlines, hothers⟩ := List.map_eq_append_iff.1 htext
    obtain ⟨trees, hlex, hall, hranges, hcontents⟩ := ih hentries hothers hopen.right
    obtain ⟨tree, htokens, hderives, hrange, hcontent⟩ :=
      exists_filterTree_of_lines hentry hmargin stop
      hlines hopen (startWithName_of_fileLines hentries hothers)
    rw [hlex] at htokens hderives
    refine ⟨tree :: trees, htokens, ⟨hderives, hall⟩, List.forall_mem_cons.2 ⟨hrange, hranges⟩, ?_⟩
    rw [List.map_cons, List.map_cons, hcontent, hcontents]

/-- A text with the lines of filters is read as these filters. -/
theorem exists_content_of_sourceLines
    (hwritable : ∀ entry ∈ entries, entry.2.Writable ∧ IsMargin entry.1) {source : List Char}
    (htext : (sourceLines source).map Line.text = fileLines entries) :
    ∃ parsed, parse source = .ok parsed ∧
      parsed.map Filter.content = entries.map fun entry => entry.2.content := by
  obtain ⟨trees, hlex, hall, hrange, hcontents⟩ := exists_filterTrees_of_lines hwritable
    (endOfLines (sourceLines source)) htext (onlyLastOpen_linesFrom 1 (Text.segments source))
  refine ⟨trees.map FilterTree.filter,
    parse_of_derivation (lex_eq_ok_iff.2 hlex) ⟨rfl, hall⟩ hrange, ?_⟩
  rw [List.map_map]
  exact hcontents

/-! ### Texts -/

theorem IsPlainLine.append {a b : List Char} (ha : '\n' ∉ a) (hb : IsPlainLine b) :
    IsPlainLine (a ++ b) where
  ne_nil := List.append_ne_nil_of_right_ne_nil a hb.ne_nil
  lineFeed_not_mem hmem := (List.mem_append.1 hmem).elim ha hb.lineFeed_not_mem
  last_ne_return := by
    rw [List.getLast?_append, List.getLast?_eq_some_getLast hb.ne_nil, Option.some_or,
      ← List.getLast?_eq_some_getLast]
    exact hb.last_ne_return

theorem isPlainLine_of_isNameChar {text : List Char} (hne : text ≠ [])
    (h : ∀ c ∈ text, isNameChar c = true) : IsPlainLine text where
  ne_nil := hne
  lineFeed_not_mem hmem := absurd (h _ hmem) (by decide)
  last_ne_return hlast := absurd (h _ (List.mem_of_getLast? hlast)) (by decide)

theorem isPlainLine_name {text : List Char} (h : IsWord .name text) : IsPlainLine text := by
  refine isPlainLine_of_isNameChar h.ne_nil ?_
  cases h with
  | name hc hrest =>
    refine List.forall_mem_cons.2 ⟨?_, hrest⟩
    rw [isNameChar, hc, Bool.true_or, Bool.true_or, Bool.true_or]

theorem OperandKind.Writable.isPlainLine (h : kind.Writable) : IsPlainLine kind.text := by
  match kind, h with
  | .name id, h => exact isPlainLine_name h
  | .literal (.string value), h =>
    refine IsPlainLine.append ?_ ⟨by simp, by decide, by simp⟩
    rw [List.mem_cons, not_or]
    exact ⟨by decide, h.2⟩
  | .literal (.integer value), h =>
    refine isPlainLine_of_isNameChar h.isWord.ne_nil fun c hc => ?_
    rw [text, Nat.toList_repr] at hc
    rw [isNameChar, Nat.isDigit_of_mem_toDigits (by decide) (by decide) hc]
    simp

theorem isPlainLine_of_mem_fileLines
    (hwritable : ∀ entry ∈ entries, entry.2.Writable ∧ IsMargin entry.1) :
    ∀ line ∈ fileLines entries, IsPlainLine line := by
  intro line hmem
  obtain ⟨entry, hentry, hline⟩ := List.mem_flatMap.1 hmem
  obtain ⟨⟨hname, hexpressions⟩, -, hmargin⟩ := hwritable entry hentry
  rcases List.mem_cons.1 hline with rfl | hline
  · exact isPlainLine_name hname
  · obtain ⟨expression, hexpression, rfl⟩ := List.mem_map.1 hline
    obtain ⟨hleft, hright⟩ := hexpressions expression hexpression
    have hspace : '\n' ∉ [' '] := by decide
    have hsymbol : '\n' ∉ expression.operator.symbol.toList := by
      cases expression.operator <;> decide
    refine IsPlainLine.append (fun hmem => absurd (hmargin _ hmem) (by decide)) ?_
    exact .append hleft.isPlainLine.lineFeed_not_mem (.append hspace (.append hsymbol
      (.append hspace hright.isPlainLine)))

/-- Filters that are written are read as the same filters, in the same order, up to locations. The
last line may be terminated or not. -/
theorem exists_content_of_parse_written {entries : List (List Char × Filter)}
    (hwritable : ∀ entry ∈ entries, entry.2.Writable ∧ IsMargin entry.1) :
    ∀ source ∈ [(fileLines entries).flatMap (· ++ ['\n']), Text.unlines (fileLines entries)],
      ∃ parsed, parse source = .ok parsed ∧
        parsed.map Filter.content = entries.map fun entry => entry.2.content := by
  have hplain := isPlainLine_of_mem_fileLines hwritable
  intro source hmem
  refine exists_content_of_sourceLines hwritable ?_
  rcases List.mem_cons.1 hmem with rfl | hmem
  · exact map_text_sourceLines_flatMap hplain
  · rw [List.mem_singleton.1 hmem]
    exact map_text_sourceLines_unlines hplain

/-- Two filters, the first with a string that holds the mark of a comment, an operator and a
carriage return, and with the largest integer. -/
theorem exists_content_of_parse_written_pair :
    let here : Location := ⟨1, 0⟩
    let first : Filter := ⟨"line-2_x", [
      ⟨.equal, ⟨.literal (.string "# é <= \r"), here, here⟩, ⟨.name "message", here, here⟩,
        here, here⟩,
      ⟨.lessOrEqual, ⟨.name "line", here, here⟩,
        ⟨.literal (.integer (Nat.pow 2 64 - 1)), here, here⟩, here, here⟩], here, here⟩
    let second : Filter := ⟨"pep8", [], here, here⟩
    let entries : List (List Char × Filter) := [(['\t', ' '], first), ([' '], second)]
    (∀ entry ∈ entries, entry.2.Writable ∧ IsMargin entry.1) ∧
      ∃ parsed, parse ((fileLines entries).flatMap (· ++ ['\n'])) = .ok parsed ∧
        parsed.map Filter.content = [first.content, second.content] := by
  intro here first second entries
  have hwritable : ∀ entry ∈ entries, entry.2.Writable ∧ IsMargin entry.1 := by decide +kernel
  exact ⟨hwritable, exists_content_of_parse_written hwritable _ List.mem_cons_self⟩

end PythonLint.Ignore
