import PythonLint.Proofs.Ignore.Line
import PythonLint.Ignore.Filter

/-!
# The grammar of ignore files

The grammar is stated over the kinds of tokens. A derivation is a tree whose leaves are the tokens,
and what a file says is read off its tree:

    file       := filter*
    filter     := name (newline [indent comparison+ dedent] | end of the tokens)
    comparison := operand operator operand (newline | before a dedent)
    operand    := name | string | integer

Main statements: `IsDerivation.unique`.

## Design notes

A rule looks at the token after it in two places, so `Derives` takes the tokens that follow.
-/

namespace PythonLint.Ignore

def nextKind (tokens : List Token) : Option TokenKind :=
  tokens.head?.map Token.kind

@[simp]
theorem nextKind_nil : nextKind [] = none := rfl

@[simp]
theorem nextKind_cons (token : Token) (tokens : List Token) :
    nextKind (token :: tokens) = some token.kind := rfl

/-! ### Operands -/

def TokenKind.IsOperand (kind : TokenKind) : Prop :=
  kind = .name ∨ kind = .string ∨ kind = .integer

instance (kind : TokenKind) : Decidable kind.IsOperand :=
  inferInstanceAs (Decidable (_ ∨ _))

/-- An integer stands for a number below 2^64. -/
def Token.InRange (token : Token) : Prop :=
  token.kind = .integer → Nat.ofDigitChars 10 token.lexeme.toList 0 < Nat.pow 2 64

/-- The operand that a token stands for: a name, a string without its quotes, or the value of an
integer. -/
def Token.operand (token : Token) : Operand where
  kind :=
    match token.kind with
    | .name => .name token.lexeme
    | .string => .literal (.string (String.ofList token.lexeme.toList.tail.dropLast))
    | _ => .literal (.integer (Nat.ofDigitChars 10 token.lexeme.toList 0))
  start := token.start
  stop := token.stop

def Token.operator (token : Token) : Operator :=
  match token.lexeme with
  | "<=" => .lessOrEqual
  | ">=" => .greaterOrEqual
  | "<" => .less
  | ">" => .greater
  | _ => .equal

/-! ### Comparisons -/

/-- A derivation of a comparison. The newline is missing before the end of the block. -/
structure ComparisonTree where
  left : Token
  operator : Token
  right : Token
  newline : Option Token

namespace ComparisonTree

def tokens (tree : ComparisonTree) : List Token :=
  tree.left :: tree.operator :: tree.right :: tree.newline.toList

/-- The tree follows the rule of comparisons when `next` comes after it. -/
def Derives (tree : ComparisonTree) (next : List Token) : Prop :=
  tree.left.kind.IsOperand ∧ tree.operator.kind = .operator ∧ tree.right.kind.IsOperand ∧
    match tree.newline with
    | some newline => newline.kind = .newline
    | none => nextKind next = some .dedent

/-- The trees follow the rule of comparisons, one after the other, when `next` comes after them. -/
def DeriveAll : List ComparisonTree → List Token → Prop
  | [], _ => True
  | tree :: trees, next => tree.Derives (trees.flatMap tokens ++ next) ∧ DeriveAll trees next

def expression (tree : ComparisonTree) : Expression :=
  ⟨tree.operator.operator, tree.left.operand, tree.right.operand, tree.left.start, tree.right.stop⟩

/-- The integers of a tree are below 2^64. -/
def InRange (tree : ComparisonTree) : Prop :=
  tree.left.InRange ∧ tree.right.InRange

end ComparisonTree

/-! ### Filters -/

/-- A derivation of a filter. -/
inductive FilterTree where
  | line (name newline : Token)
  | block (name newline indent : Token) (comparisons : List ComparisonTree) (dedent : Token)
  | last (name : Token)

namespace FilterTree

def tokens : FilterTree → List Token
  | line name newline => [name, newline]
  | block name newline indent comparisons dedent =>
    name :: newline :: indent :: (comparisons.flatMap ComparisonTree.tokens ++ [dedent])
  | last name => [name]

def comparisons : FilterTree → List ComparisonTree
  | block _ _ _ comparisons _ => comparisons
  | _ => []

/-- The tree follows the rule of filters when `next` comes after it. -/
def Derives : FilterTree → List Token → Prop
  | line name newline, _ => name.kind = .name ∧ newline.kind = .newline
  | block name newline indent comparisons dedent, next =>
    name.kind = .name ∧ newline.kind = .newline ∧ indent.kind = .indent ∧ comparisons ≠ [] ∧
      ComparisonTree.DeriveAll comparisons (dedent :: next) ∧ dedent.kind = .dedent
  | last name, next => name.kind = .name ∧ next = []

/-- The trees follow the rule of filters, one after the other, up to the end of the tokens. -/
def DeriveAll : List FilterTree → Prop
  | [] => True
  | tree :: trees => tree.Derives (trees.flatMap tokens) ∧ DeriveAll trees

def filter : FilterTree → Filter
  | line name newline => ⟨name.lexeme, [], name.start, newline.start⟩
  | block name _ _ comparisons dedent =>
    ⟨name.lexeme, comparisons.map ComparisonTree.expression, name.start, dedent.stop⟩
  | last name => ⟨name.lexeme, [], name.start, name.stop⟩

/-- The integers of a tree are below 2^64. -/
def InRange (tree : FilterTree) : Prop :=
  ∀ comparison ∈ tree.comparisons, comparison.InRange

end FilterTree

/-- The trees derive the tokens of a file. -/
structure IsDerivation (tokens : List Token) (trees : List FilterTree) : Prop where
  spells : trees.flatMap FilterTree.tokens = tokens
  derives : FilterTree.DeriveAll trees

/-! ### Uniqueness -/

theorem ComparisonTree.Derives.nextKind_tokens {tree : ComparisonTree} {next : List Token}
    (h : tree.Derives next) (others : List Token) :
    ∃ kind : TokenKind, nextKind (tree.tokens ++ others) = some kind ∧ kind.IsOperand :=
  ⟨tree.left.kind, rfl, h.1⟩

/-- A comparison is determined by tokens that start with it. -/
theorem ComparisonTree.Derives.unique {a b : ComparisonTree} {next next' : List Token}
    (ha : a.Derives next) (hb : b.Derives next') (h : a.tokens ++ next = b.tokens ++ next') :
    a = b ∧ next = next' := by
  obtain ⟨left, operator, right, newline⟩ := a
  obtain ⟨left', operator', right', newline'⟩ := b
  simp only [ComparisonTree.tokens, List.cons_append, List.cons.injEq] at h
  obtain ⟨rfl, rfl, rfl, h⟩ := h
  have hend := ha.2.2.2
  have hend' := hb.2.2.2
  -- A newline on one side only would be the dedent that the other side stands before.
  cases newline with
  | none =>
    cases newline' with
    | none => exact ⟨rfl, h⟩
    | some found =>
      simp only [Option.toList_none, Option.toList_some, List.nil_append,
        List.singleton_append] at h
      rw [h, nextKind_cons, hend'] at hend
      cases hend
  | some found =>
    cases newline' with
    | none =>
      simp only [Option.toList_none, Option.toList_some, List.nil_append,
        List.singleton_append] at h
      rw [← h, nextKind_cons, hend] at hend'
      cases hend'
    | some found' =>
      simp only [Option.toList_some, List.singleton_append, List.cons.injEq] at h
      obtain ⟨rfl, rfl⟩ := h
      exact ⟨rfl, rfl⟩

theorem ComparisonTree.Derives.ne_dedent {tree : ComparisonTree} {next others after : List Token}
    {dedent : Token} (h : tree.Derives next) (hdedent : dedent.kind = .dedent) :
    tree.tokens ++ others ≠ dedent :: after := by
  intro heq
  obtain ⟨kind, hkind, hoperand⟩ := h.nextKind_tokens others
  rw [heq, nextKind_cons, hdedent] at hkind
  cases hkind
  exact absurd hoperand (by decide)

/-- The comparisons of a block are determined by tokens that start with it. -/
theorem ComparisonTree.DeriveAll.unique {a b : List ComparisonTree} {dedent dedent' : Token}
    {next next' : List Token} (ha : DeriveAll a (dedent :: next))
    (hb : DeriveAll b (dedent' :: next')) (hdedent : dedent.kind = .dedent)
    (hdedent' : dedent'.kind = .dedent)
    (h : a.flatMap tokens ++ dedent :: next = b.flatMap tokens ++ dedent' :: next') :
    a = b ∧ dedent = dedent' ∧ next = next' := by
  induction a generalizing b with
  | nil =>
    cases b with
    | nil =>
      rw [List.flatMap_nil, List.nil_append, List.nil_append, List.cons.injEq] at h
      exact ⟨rfl, h⟩
    | cons first others =>
      rw [List.flatMap_nil, List.nil_append, List.flatMap_cons, List.append_assoc] at h
      exact absurd h.symm (hb.1.ne_dedent hdedent)
  | cons tree trees ih =>
    cases b with
    | nil =>
      rw [List.flatMap_nil, List.nil_append, List.flatMap_cons, List.append_assoc] at h
      exact absurd h (ha.1.ne_dedent hdedent')
    | cons first others =>
      rw [List.flatMap_cons, List.flatMap_cons, List.append_assoc, List.append_assoc] at h
      obtain ⟨rfl, hrest⟩ := ha.1.unique hb.1 h
      obtain ⟨rfl, hdedents, hnext⟩ := ih ha.2 hb.2 hrest
      exact ⟨rfl, hdedents, hnext⟩

theorem FilterTree.DeriveAll.nextKind_tokens {trees : List FilterTree} (h : DeriveAll trees) :
    nextKind (trees.flatMap tokens) = none ∨ nextKind (trees.flatMap tokens) = some .name := by
  cases trees with
  | nil => exact .inl rfl
  | cons tree trees =>
    refine .inr ?_
    cases tree with
    | line name newline => exact congrArg some h.1.1
    | block name newline indent comparisons dedent => exact congrArg some h.1.1
    | last name => exact congrArg some h.1.1

theorem FilterTree.DeriveAll.nextKind_ne_indent {trees : List FilterTree} (h : DeriveAll trees) :
    nextKind (trees.flatMap tokens) ≠ some .indent := by
  intro hkind
  rcases h.nextKind_tokens with h | h <;> rw [h] at hkind <;> cases hkind

/-- A filter is determined by the tokens that start with it, when no indent comes after it. -/
theorem FilterTree.Derives.unique {a b : FilterTree} {next next' : List Token}
    (ha : a.Derives next) (hb : b.Derives next') (hnext : nextKind next ≠ some .indent)
    (hnext' : nextKind next' ≠ some .indent) (h : a.tokens ++ next = b.tokens ++ next') :
    a = b ∧ next = next' := by
  cases a with
  | line name newline =>
    cases b with
    | line name' newline' =>
      simp only [tokens, List.cons_append, List.nil_append, List.cons.injEq] at h
      obtain ⟨rfl, rfl, rfl⟩ := h
      exact ⟨rfl, rfl⟩
    | block name' newline' indent' comparisons' dedent' =>
      simp only [tokens, List.cons_append, List.nil_append, List.cons.injEq] at h
      rw [h.2.2, nextKind_cons, hb.2.2.1] at hnext
      exact absurd rfl hnext
    | last name' =>
      rw [hb.2] at h
      simp [tokens] at h
  | block name newline indent comparisons dedent =>
    cases b with
    | line name' newline' =>
      simp only [tokens, List.cons_append, List.nil_append, List.cons.injEq] at h
      rw [← h.2.2, nextKind_cons, ha.2.2.1] at hnext'
      exact absurd rfl hnext'
    | block name' newline' indent' comparisons' dedent' =>
      simp only [tokens, List.cons_append, List.append_assoc, List.nil_append, List.cons.injEq] at h
      obtain ⟨rfl, rfl, rfl, hblock⟩ := h
      obtain ⟨-, -, -, -, hall, hdedent⟩ := ha
      obtain ⟨-, -, -, -, hall', hdedent'⟩ := hb
      obtain ⟨rfl, rfl, rfl⟩ := hall.unique hall' hdedent hdedent' hblock
      exact ⟨rfl, rfl⟩
    | last name' =>
      rw [hb.2] at h
      simp [tokens] at h
  | last name =>
    obtain ⟨-, rfl⟩ := ha
    cases b with
    | line name' newline' => simp [tokens] at h
    | block name' newline' indent' comparisons' dedent' => simp [tokens] at h
    | last name' =>
      simp only [tokens, List.cons_append, List.nil_append, List.cons.injEq] at h
      obtain ⟨rfl, rfl⟩ := h
      exact ⟨rfl, rfl⟩

theorem FilterTree.tokens_ne_nil (tree : FilterTree) : tree.tokens ≠ [] := by
  cases tree <;> exact List.cons_ne_nil _ _

/-- A file has at most one derivation. -/
theorem IsDerivation.unique {found : List Token} {a b : List FilterTree}
    (ha : IsDerivation found a) (hb : IsDerivation found b) : a = b := by
  obtain ⟨hspells, ha⟩ := ha
  obtain ⟨rfl, hb⟩ := hb
  induction a generalizing b with
  | nil =>
    cases b with
    | nil => rfl
    | cons first others =>
      rw [List.flatMap_nil, List.flatMap_cons] at hspells
      exact absurd (List.append_eq_nil_iff.1 hspells.symm).1 first.tokens_ne_nil
  | cons tree trees ih =>
    cases b with
    | nil =>
      rw [List.flatMap_nil, List.flatMap_cons] at hspells
      exact absurd (List.append_eq_nil_iff.1 hspells).1 tree.tokens_ne_nil
    | cons first others =>
      rw [List.flatMap_cons, List.flatMap_cons] at hspells
      obtain ⟨rfl, hrest⟩ :=
        ha.1.unique hb.1 ha.2.nextKind_ne_indent hb.2.nextKind_ne_indent hspells
      rw [ih ha.2 hb.2 hrest]

end PythonLint.Ignore
