import PythonLint.Proofs.Ignore.Grammar
import PythonLint.Proofs.Ignore.Reading

/-!
# What is accepted as an ignore file

The reader of ignore files accepts what the grammar derives, with integers in range, and nothing
else. One lemma for each reader of tokens says when it succeeds and with what. From these follow,
rule by rule, that what is read has a tree and that the tokens of a tree are read. An error that
ends the tokens is met by the reader of the whole file at the latest, so that only files without
errors are accepted.

Main statements: `exists_comparisonTree`, `exists_filterTree`, `exists_filterTrees`,
`comparison_tokens`, `filter_tokens`, `filters_tokens`, `parse_eq_ok_iff_isDerivation`.
-/

namespace PythonLint.Ignore

variable {value : Filter} {after input : Input} {source : List Char} {values : List Filter}
    {next tokens : List Token}
  {token : Token}

/-! ### Readers of tokens -/

section Readers

variable {α β : Type} {input after : Input}

theorem bind_eq_ok_iff {p : Parser Input α} {f : α → Parser Input β} {b : β} :
    (p >>= f) input = .ok (b, after) ↔
      ∃ a middle, p input = .ok (a, middle) ∧ f a middle = .ok (b, after) := by
  have hbind : (p >>= f) input = (p input).bind fun found => f found.1 found.2 := rfl
  rw [hbind]
  cases hp : p input with
  | error error =>
    constructor
    · intro h
      cases h
    · rintro ⟨a, middle, h, -⟩
      cases h
  | ok found =>
    constructor
    · intro h
      exact ⟨found.1, found.2, rfl, h⟩
    · rintro ⟨a, middle, h, hf⟩
      cases h
      exact hf

theorem pure_eq_ok_iff {a b : α} :
    (pure a : Parser Input α) input = .ok (b, after) ↔ b = a ∧ after = input := by
  have hpure : (pure a : Parser Input α) input = .ok (a, input) := rfl
  rw [hpure, Except.ok.injEq, Prod.mk.injEq]
  exact and_congr eq_comm eq_comm

/-- Looking ahead fails only where an error ends the tokens. -/
theorem peekKind_eq_ok_iff {kind : Option TokenKind} :
    peekKind input = .ok (kind, after) ↔
      (input.tokens = [] → input.error = none) ∧ kind = nextKind input.tokens ∧ after = input := by
  obtain ⟨tokens, last, error⟩ := input
  cases tokens with
  | nil =>
    cases error with
    | none => simp [peekKind, Input.peekKind, eq_comm]
    | some error => simp [peekKind, Input.peekKind]
  | cons token tokens => simp [peekKind, Input.peekKind, eq_comm]

theorem take_eq_ok_iff :
    take input = .ok (token, after) ↔
      ∃ rest, input.tokens = token :: rest ∧ after = ⟨rest, token.stop, input.error⟩ := by
  obtain ⟨tokens, last, error⟩ := input
  cases tokens with
  | nil =>
    cases error with
    | none => simp [take, Input.take]
    | some error => simp [take, Input.take]
  | cons first tokens =>
    simp only [take, Input.take, Except.ok.injEq, Prod.mk.injEq, List.cons.injEq]
    constructor
    · rintro ⟨rfl, rfl⟩
      exact ⟨tokens, ⟨rfl, rfl⟩, rfl⟩
    · rintro ⟨rest, ⟨rfl, rfl⟩, rfl⟩
      exact ⟨rfl, rfl⟩

theorem refuse_ne_ok {a : α} : refuse token input ≠ .ok (a, after) := by
  intro h
  cases h

theorem expect_eq_ok_iff {kinds : List TokenKind} :
    expect kinds input = .ok (token, after) ↔
      ∃ rest, input.tokens = token :: rest ∧ token.kind ∈ kinds ∧
        after = ⟨rest, token.stop, input.error⟩ := by
  rw [expect, bind_eq_ok_iff]
  constructor
  · rintro ⟨found, middle, htake, h⟩
    obtain ⟨rest, htokens, rfl⟩ := take_eq_ok_iff.1 htake
    split at h
    · next hkind =>
      obtain ⟨rfl, rfl⟩ := pure_eq_ok_iff.1 h
      exact ⟨rest, htokens, by simpa using hkind, rfl⟩
    · exact absurd h refuse_ne_ok
  · rintro ⟨rest, htokens, hkind, rfl⟩
    refine ⟨token, _, take_eq_ok_iff.2 ⟨rest, htokens, rfl⟩, ?_⟩
    rw [if_pos (by simpa using hkind)]
    exact pure_eq_ok_iff.2 ⟨rfl, rfl⟩

theorem test_eq_ok_iff {test : Option TokenKind → Bool} {b : Bool} :
    (do return test (← peekKind) : Parser Input Bool) input = .ok (b, after) ↔
      (input.tokens = [] → input.error = none) ∧ b = test (nextKind input.tokens) ∧
        after = input := by
  rw [bind_eq_ok_iff]
  constructor
  · rintro ⟨kind, middle, hpeek, h⟩
    obtain ⟨hend, rfl, rfl⟩ := peekKind_eq_ok_iff.1 hpeek
    obtain ⟨rfl, rfl⟩ := pure_eq_ok_iff.1 h
    exact ⟨hend, rfl, rfl⟩
  · rintro ⟨hend, rfl, rfl⟩
    exact ⟨_, _, peekKind_eq_ok_iff.2 ⟨hend, rfl, rfl⟩, pure_eq_ok_iff.2 ⟨rfl, rfl⟩⟩

/-- One step of a repetition, where an item uses up tokens. -/
theorem readMany_eq_ok_iff {test : Option TokenKind → Bool} {item : Parser Input α} {items : List α}
    (hitem : ∀ {a middle}, item input = .ok (a, middle) →
      middle.tokens.length < input.tokens.length) :
    readMany (do return test (← peekKind)) item input = .ok (items, after) ↔
      (do return test (← peekKind) : Parser Input Bool) input = .ok (false, after) ∧ items = [] ∨
        ∃ ahead first middle others,
          (do return test (← peekKind) : Parser Input Bool) input = .ok (true, ahead) ∧
          item input = .ok (first, middle) ∧
          readMany (do return test (← peekKind)) item middle = .ok (others, after) ∧
          items = first :: others := by
  rw [readMany]
  constructor
  · intro h
    split at h
    · cases h
    · next hmore =>
      cases h
      exact .inl ⟨hmore, rfl⟩
    · next ahead hmore =>
      obtain ⟨-, -, rfl⟩ := test_eq_ok_iff.1 hmore
      split at h
      · cases h
      · next first middle hfirst =>
        rw [if_pos (show left middle < left ahead from hitem hfirst)] at h
        split at h
        · cases h
        · next others rest hothers =>
          cases h
          exact .inr ⟨ahead, first, middle, others, hmore, hfirst, hothers, rfl⟩
  · rintro (⟨hmore, rfl⟩ | ⟨ahead, first, middle, others, hmore, hfirst, hothers, rfl⟩)
    · simp only [hmore]
    · obtain ⟨-, -, rfl⟩ := test_eq_ok_iff.1 hmore
      simp only [hmore, hfirst, hothers, if_pos (show left middle < left ahead from hitem hfirst)]

end Readers

/-! ### Operands -/

theorem Spelled.tail (h : Spelled (token :: tokens)) : Spelled tokens :=
  fun other hmem => h other (List.mem_cons_of_mem _ hmem)

theorem Spelled.right {a b : List Token} (h : Spelled (a ++ b)) : Spelled b :=
  fun other hmem => h other (List.mem_append_right _ hmem)

/-- The text of a string without quotes is what stands between its two quotes. -/
theorem unquoted_eq {lexeme : String} (h : IsWord .string lexeme.toList) :
    unquoted lexeme = String.ofList lexeme.toList.tail.dropLast := by
  obtain ⟨content, hcontent, hlexeme⟩ := h.exists_content
  have hkept : content.filter (· ≠ '"') = content := by
    refine List.filter_eq_self.2 fun c hc => ?_
    simp only [ne_eq, decide_eq_true_eq]
    rintro rfl
    exact hcontent hc
  have hfilter : ('"' :: content ++ ['"']).filter (· ≠ '"') = content := by
    rw [List.filter_append, List.filter_cons_of_neg (by simp), hkept,
      List.filter_cons_of_neg (by simp), List.filter_nil, List.append_nil]
  have hinner : ('"' :: content ++ ['"']).tail.dropLast = content := by simp
  rw [unquoted, hlexeme, hfilter, hinner]

/-- An operator is read as what its token stands for. -/
theorem ofSymbol?_eq (h : IsWord .operator token.lexeme.toList) :
    Operator.ofSymbol? token.lexeme = some token.operator := by
  obtain ⟨operator, hsymbol⟩ := h.exists_symbol
  have hlexeme : token.lexeme = operator.symbol := String.toList_inj.1 hsymbol
  unfold Token.operator
  rw [hlexeme]
  cases operator <;> decide

theorem exists_operator_of_expect {operator : Token} (hspelled : Spelled input.tokens)
    (h : expect [.operator] input = .ok (operator, after)) :
    ∃ rest, input.tokens = operator :: rest ∧ operator.kind = .operator ∧
      Operator.ofSymbol? operator.lexeme = some operator.operator ∧
      after = ⟨rest, operator.stop, input.error⟩ := by
  obtain ⟨rest, htokens, hmem, hafter⟩ := expect_eq_ok_iff.1 h
  have hkind : operator.kind = .operator := List.mem_singleton.1 hmem
  have hword := hspelled operator (by rw [htokens]; exact List.mem_cons_self) (.inr (.inl hkind))
  rw [hkind] at hword
  exact ⟨rest, htokens, hkind, ofSymbol?_eq hword, hafter⟩

/-- An operand is a token of one of three kinds, in range. -/
theorem operand_eq_ok_iff {value : Operand} (hspelled : Spelled input.tokens) :
    operand input = .ok (value, after) ↔
      ∃ token rest, input.tokens = token :: rest ∧ token.kind.IsOperand ∧ token.InRange ∧
        value = token.operand ∧ after = ⟨rest, token.stop, input.error⟩ := by
  rw [operand, bind_eq_ok_iff]
  constructor
  · rintro ⟨token, middle, hexpect, h⟩
    obtain ⟨rest, htokens, hkind, rfl⟩ := expect_eq_ok_iff.1 hexpect
    have hoperand : token.kind.IsOperand := by simpa [TokenKind.IsOperand] using hkind
    refine ⟨token, rest, htokens, hoperand, ?_⟩
    rcases hoperand with hname | hstring | hinteger
    · simp only [hname] at h
      obtain ⟨rfl, rfl⟩ := pure_eq_ok_iff.1 h
      exact ⟨fun hk => absurd (hname.symm.trans hk) (by decide), by simp [Token.operand, hname],
        rfl⟩
    · simp only [hstring] at h
      obtain ⟨rfl, rfl⟩ := pure_eq_ok_iff.1 h
      have hword := hspelled token (htokens ▸ List.mem_cons_self) (.inr (.inr (.inl hstring)))
      rw [hstring] at hword
      exact ⟨fun hk => absurd (hstring.symm.trans hk) (by decide),
        by simp [Token.operand, hstring, unquoted_eq hword], rfl⟩
    · simp only [hinteger] at h
      split at h
      · next hlt =>
        obtain ⟨rfl, rfl⟩ := pure_eq_ok_iff.1 h
        exact ⟨fun _ => hlt, by rw [Token.operand, hinteger]; rfl, rfl⟩
      · cases h
  · rintro ⟨token, rest, htokens, hoperand, hrange, rfl, rfl⟩
    refine ⟨token, _, expect_eq_ok_iff.2 ⟨rest, htokens, ?_, rfl⟩, ?_⟩
    · simpa [TokenKind.IsOperand] using hoperand
    rcases hoperand with hname | hstring | hinteger
    · simp only [hname]
      exact pure_eq_ok_iff.2 ⟨by simp [Token.operand, hname], rfl⟩
    · have hword := hspelled token (htokens ▸ List.mem_cons_self) (.inr (.inr (.inl hstring)))
      rw [hstring] at hword
      simp only [hstring]
      exact pure_eq_ok_iff.2 ⟨by simp [Token.operand, hstring, unquoted_eq hword], rfl⟩
    · simp only [hinteger]
      have hlt : decimalValue token.lexeme.toList < Nat.pow 2 64 := hrange hinteger
      rw [if_pos hlt]
      exact pure_eq_ok_iff.2 ⟨by rw [Token.operand, hinteger]; rfl, rfl⟩

/-! ### Comparisons -/

theorem ne_nil_of_nextKind {kind : TokenKind} (h : nextKind tokens = some kind) : tokens ≠ [] := by
  rintro rfl
  cases h

/-- A comparison that is read has a tree. It follows the rule, unless the tokens end where a newline
or a dedent should come. -/
theorem exists_comparisonTree {value : Expression} (hspelled : Spelled input.tokens)
    (h : comparison input = .ok (value, after)) :
    ∃ tree : ComparisonTree, input.tokens = tree.tokens ++ after.tokens ∧
      (after.tokens ≠ [] → tree.Derives after.tokens) ∧ tree.InRange ∧ value = tree.expression ∧
      after.error = input.error := by
  obtain ⟨tokens, last, error⟩ := input
  rw [comparison, bind_eq_ok_iff] at h
  obtain ⟨_, _, hleft, h⟩ := h
  obtain ⟨left, rest, rfl, hleftKind, hleftRange, rfl, rfl⟩ := (operand_eq_ok_iff hspelled).1 hleft
  rw [bind_eq_ok_iff] at h
  obtain ⟨operator, _, hoperator, h⟩ := h
  obtain ⟨rest', htokens, hoperatorKind, hsymbol, rfl⟩ :=
    exists_operator_of_expect hspelled.tail hoperator
  obtain rfl : rest = operator :: rest' := htokens
  rw [hsymbol] at h
  simp only at h
  rw [bind_eq_ok_iff] at h
  obtain ⟨_, _, hright, h⟩ := h
  obtain ⟨right, rest, htokens, hrightKind, hrightRange, rfl, rfl⟩ :=
    (operand_eq_ok_iff hspelled.tail.tail).1 hright
  obtain rfl : rest' = right :: rest := htokens
  rw [bind_eq_ok_iff] at h
  obtain ⟨kind, _, hpeek, h⟩ := h
  obtain ⟨-, hnext, rfl⟩ := peekKind_eq_ok_iff.1 hpeek
  -- The line ends with the tokens, before a dedent, or with a newline.
  split at h
  · obtain ⟨rfl, rfl⟩ := pure_eq_ok_iff.1 h
    have hnil : rest = [] := by simpa [nextKind] using hnext.symm
    exact ⟨⟨left, operator, right, none⟩, rfl, fun hne => absurd hnil hne,
      ⟨hleftRange, hrightRange⟩, rfl, rfl⟩
  · obtain ⟨rfl, rfl⟩ := pure_eq_ok_iff.1 h
    exact ⟨⟨left, operator, right, none⟩, rfl,
      fun _ => ⟨hleftKind, hoperatorKind, hrightKind, hnext.symm⟩,
      ⟨hleftRange, hrightRange⟩, rfl, rfl⟩
  · rw [bind_eq_ok_iff] at h
    obtain ⟨newline, _, hnewline, h⟩ := h
    obtain ⟨others, htokens, hkind, rfl⟩ := expect_eq_ok_iff.1 hnewline
    obtain rfl : rest = newline :: others := htokens
    obtain ⟨rfl, rfl⟩ := pure_eq_ok_iff.1 h
    exact ⟨⟨left, operator, right, some newline⟩, rfl,
      fun _ => ⟨hleftKind, hoperatorKind, hrightKind, List.mem_singleton.1 hkind⟩,
      ⟨hleftRange, hrightRange⟩, rfl, rfl⟩

theorem comparison_tokens {tree : ComparisonTree} (last : Location) (error : Option LexError)
    (hspelled : Spelled (tree.tokens ++ next)) (hderives : tree.Derives next)
    (hrange : tree.InRange) :
    ∃ stop, comparison (⟨tree.tokens ++ next, last, error⟩ : Input) =
      .ok (tree.expression, ⟨next, stop, error⟩) := by
  obtain ⟨left, operator, right, newline⟩ := tree
  obtain ⟨hleft, hoperator, hright, hend⟩ := hderives
  have hword := hspelled operator (by simp [ComparisonTree.tokens]) (.inr (.inl hoperator))
  rw [hoperator] at hword
  refine ⟨(newline.getD right).stop, ?_⟩
  rw [comparison, bind_eq_ok_iff]
  refine ⟨_, _, (operand_eq_ok_iff hspelled).2 ⟨left, _, rfl, hleft, hrange.1, rfl, rfl⟩, ?_⟩
  rw [bind_eq_ok_iff]
  refine ⟨operator, _, expect_eq_ok_iff.2 ⟨_, rfl, List.mem_singleton.2 hoperator, rfl⟩, ?_⟩
  rw [ofSymbol?_eq hword]
  simp only
  rw [bind_eq_ok_iff]
  refine ⟨_, _,
    (operand_eq_ok_iff hspelled.tail.tail).2 ⟨right, _, rfl, hright, hrange.2, rfl, rfl⟩, ?_⟩
  rw [bind_eq_ok_iff]
  cases newline with
  | some newline =>
    have hkind : newline.kind = .newline := hend
    refine ⟨some .newline, _, peekKind_eq_ok_iff.2 ⟨by simp, by simp [hkind], rfl⟩, ?_⟩
    simp only
    rw [bind_eq_ok_iff]
    exact ⟨newline, _, expect_eq_ok_iff.2 ⟨next, rfl, List.mem_singleton.2 hkind, rfl⟩,
      pure_eq_ok_iff.2 ⟨rfl, rfl⟩⟩
  | none =>
    have hdedent : nextKind next = some .dedent := hend
    refine ⟨some .dedent, _, peekKind_eq_ok_iff.2 ⟨fun hnil => ?_, hdedent.symm, rfl⟩,
      pure_eq_ok_iff.2 ⟨rfl, rfl⟩⟩
    exact absurd hnil (ne_nil_of_nextKind hdedent)

theorem length_lt_of_comparison {value : Expression} (hspelled : Spelled input.tokens)
    (h : comparison input = .ok (value, after)) : after.tokens.length < input.tokens.length := by
  obtain ⟨tree, htokens, -⟩ := exists_comparisonTree hspelled h
  rw [htokens, List.length_append, ComparisonTree.tokens, List.length_cons]
  omega

theorem exists_comparisonTrees {values : List Expression} (hspelled : Spelled input.tokens)
    (h : readMany (do return (← peekKind) ≠ some .dedent) comparison input = .ok (values, after)) :
    ∃ trees :
      List ComparisonTree, input.tokens = trees.flatMap ComparisonTree.tokens ++ after.tokens ∧
      nextKind after.tokens = some .dedent ∧ ComparisonTree.DeriveAll trees after.tokens ∧
      (∀ tree ∈ trees, tree.InRange) ∧ values = trees.map ComparisonTree.expression ∧
      after.error = input.error := by
  induction values generalizing input with
  | nil =>
    rcases (readMany_eq_ok_iff (length_lt_of_comparison hspelled)).1 h with
      ⟨hmore, -⟩ | ⟨_, _, _, _, -, -, -, hvalues⟩
    · obtain ⟨-, hdedent, rfl⟩ := test_eq_ok_iff.1 hmore
      exact ⟨[], rfl, by simpa using hdedent, trivial, by simp, rfl, rfl⟩
    · cases hvalues
  | cons value values ih =>
    rcases (readMany_eq_ok_iff (length_lt_of_comparison hspelled)).1 h with
      ⟨-, hvalues⟩ | ⟨ahead, first, middle, others, -, hfirst, hothers, hvalues⟩
    · cases hvalues
    · cases hvalues
      obtain ⟨tree, htokens, hderives, hrange, rfl, herror⟩ := exists_comparisonTree hspelled hfirst
      obtain ⟨trees, hmiddle, hdedent, hall, hranges, rfl, herror'⟩ :=
        ih (htokens ▸ hspelled).right hothers
      -- The dedent that ends the block shows that no comparison was cut off by the end of the
      -- tokens.
      have hne : middle.tokens ≠ [] := by
        rw [hmiddle]
        exact List.append_ne_nil_of_right_ne_nil _ (ne_nil_of_nextKind hdedent)
      refine ⟨tree :: trees, ?_, hdedent, ⟨hmiddle ▸ hderives hne, hall⟩, ?_, rfl,
        herror'.trans herror⟩
      · rw [htokens, hmiddle, List.flatMap_cons, List.append_assoc]
      · exact List.forall_mem_cons.2 ⟨hrange, hranges⟩

/-- The tokens of trees before a dedent are read as their comparisons. -/
theorem comparisons_tokens {trees : List ComparisonTree} (last : Location) (error : Option LexError)
    (hspelled : Spelled (trees.flatMap ComparisonTree.tokens ++ next))
    (hnext : nextKind next = some .dedent) (hall : ComparisonTree.DeriveAll trees next)
    (hrange : ∀ tree ∈ trees, tree.InRange) :
    ∃ stop, readMany (do return (← peekKind) ≠ some .dedent) comparison
        (⟨trees.flatMap ComparisonTree.tokens ++ next, last, error⟩ : Input) =
      .ok (trees.map ComparisonTree.expression, ⟨next, stop, error⟩) := by
  induction trees generalizing last with
  | nil =>
    refine ⟨last, (readMany_eq_ok_iff (length_lt_of_comparison hspelled)).2 (.inl ⟨?_, rfl⟩)⟩
    exact test_eq_ok_iff.2 ⟨fun hnil =>
      absurd hnil (ne_nil_of_nextKind hnext), by simp [hnext], rfl⟩
  | cons tree trees ih =>
    rw [List.flatMap_cons, List.append_assoc] at hspelled ⊢
    obtain ⟨hderives, hall⟩ := hall
    obtain ⟨middle, hfirst⟩ := comparison_tokens last error hspelled hderives
      (hrange tree List.mem_cons_self)
    obtain ⟨stop, hothers⟩ := ih middle hspelled.right hall
      fun other hmem => hrange other (List.mem_cons_of_mem _ hmem)
    obtain ⟨kind, hkind, hoperand⟩ :=
      hderives.nextKind_tokens (trees.flatMap ComparisonTree.tokens ++ next)
    refine ⟨stop, (readMany_eq_ok_iff (length_lt_of_comparison hspelled)).2 (.inr ⟨_, _, _, _,
      test_eq_ok_iff.2 ⟨fun hnil => absurd hnil (ne_nil_of_nextKind hkind), ?_, rfl⟩,
      hfirst, hothers, rfl⟩)⟩
    rw [hkind]
    rcases hoperand with rfl | rfl | rfl <;> rfl

/-! ### Filters -/

/-- After the name of a filter the tokens end or a newline comes. -/
theorem nameEnd_eq_ok_iff {name : Token} {stop : Location} :
    nameEnd name input = .ok (stop, after) ↔
      input.tokens = [] ∧ input.error = none ∧ stop = name.stop ∧ after = input ∨
        ∃ newline rest, input.tokens = newline :: rest ∧ newline.kind = .newline ∧
          stop = newline.start ∧ after = ⟨rest, newline.stop, input.error⟩ := by
  rw [nameEnd, bind_eq_ok_iff]
  constructor
  · rintro ⟨kind, middle, hpeek, h⟩
    obtain ⟨hend, hnext, rfl⟩ := peekKind_eq_ok_iff.1 hpeek
    split at h
    · obtain ⟨rfl, rfl⟩ := pure_eq_ok_iff.1 h
      have hnil : after.tokens = [] := by simpa [nextKind] using hnext.symm
      exact .inl ⟨hnil, hend hnil, rfl, rfl⟩
    · rw [bind_eq_ok_iff] at h
      obtain ⟨newline, _, hnewline, h⟩ := h
      obtain ⟨rest, htokens, hkind, rfl⟩ := expect_eq_ok_iff.1 hnewline
      obtain ⟨rfl, rfl⟩ := pure_eq_ok_iff.1 h
      exact .inr ⟨newline, rest, htokens, List.mem_singleton.1 hkind, rfl, rfl⟩
  · rintro (⟨htokens, herror, rfl, rfl⟩ | ⟨newline, rest, htokens, hkind, rfl, rfl⟩)
    · exact ⟨none, _, peekKind_eq_ok_iff.2 ⟨fun _ => herror, by rw [htokens]; rfl, rfl⟩,
        pure_eq_ok_iff.2 ⟨rfl, rfl⟩⟩
    · refine ⟨some .newline, _,
        peekKind_eq_ok_iff.2 ⟨by simp [htokens], by simp [htokens, hkind], rfl⟩, ?_⟩
      simp only
      rw [bind_eq_ok_iff]
      exact ⟨newline, _, expect_eq_ok_iff.2 ⟨rest, htokens, List.mem_singleton.2 hkind, rfl⟩,
        pure_eq_ok_iff.2 ⟨rfl, rfl⟩⟩

/-- All that reading a filter can do: read a name and the end of its line, and then a block if an
indent comes. -/
theorem filter_eq_ok_iff :
    filter input = .ok (value, after) ↔
      ∃ name rest stop middle, input.tokens = name :: rest ∧ name.kind = .name ∧
        nameEnd name (⟨rest, name.stop, input.error⟩ : Input) = .ok (stop, middle) ∧
        (middle.tokens = [] → middle.error = none) ∧
        (nextKind middle.tokens ≠ some .indent ∧ value = ⟨name.lexeme, [], name.start, stop⟩ ∧
            after = middle ∨
          ∃ indent inner expressions ahead dedent next, middle.tokens = indent :: inner ∧
            indent.kind = .indent ∧
            readMany (do return (← peekKind) ≠ some .dedent) comparison
              (⟨inner, indent.stop, middle.error⟩ : Input) = .ok (expressions, ahead) ∧
            ahead.tokens = dedent :: next ∧ dedent.kind = .dedent ∧
            value = ⟨name.lexeme, expressions, name.start, dedent.stop⟩ ∧
            after = ⟨next, dedent.stop, ahead.error⟩) := by
  rw [filter, bind_eq_ok_iff]
  constructor
  · rintro ⟨name, _, hname, h⟩
    obtain ⟨rest, htokens, hkind, rfl⟩ := expect_eq_ok_iff.1 hname
    rw [bind_eq_ok_iff] at h
    obtain ⟨stop, middle, hstop, h⟩ := h
    rw [bind_eq_ok_iff] at h
    obtain ⟨kind, _, hpeek, h⟩ := h
    obtain ⟨hend, hnext, rfl⟩ := peekKind_eq_ok_iff.1 hpeek
    refine ⟨name, rest, stop, _, htokens, List.mem_singleton.1 hkind, hstop, hend, ?_⟩
    split at h
    · next hindent =>
      rw [bind_eq_ok_iff] at h
      obtain ⟨indent, _, htake, h⟩ := h
      obtain ⟨inner, hinner, rfl⟩ := take_eq_ok_iff.1 htake
      rw [hindent, hinner, nextKind_cons, Option.some.injEq] at hnext
      rw [bind_eq_ok_iff] at h
      obtain ⟨expressions, ahead, hblock, h⟩ := h
      rw [bind_eq_ok_iff] at h
      obtain ⟨dedent, _, hdedent, h⟩ := h
      obtain ⟨next, hahead, hkind, rfl⟩ := expect_eq_ok_iff.1 hdedent
      obtain ⟨rfl, rfl⟩ := pure_eq_ok_iff.1 h
      exact .inr ⟨indent, inner, expressions, ahead, dedent, next, hinner, hnext.symm,
        hblock, hahead, List.mem_singleton.1 hkind, rfl, rfl⟩
    · next hindent =>
      obtain ⟨rfl, rfl⟩ := pure_eq_ok_iff.1 h
      exact .inl ⟨hnext ▸ hindent, rfl, rfl⟩
  · rintro ⟨name, rest, stop, middle, htokens, hkind, hstop, hend, h⟩
    refine ⟨name, _, expect_eq_ok_iff.2 ⟨rest, htokens, List.mem_singleton.2 hkind, rfl⟩, ?_⟩
    rw [bind_eq_ok_iff]
    refine ⟨stop, middle, hstop, ?_⟩
    rw [bind_eq_ok_iff]
    refine ⟨_, _, peekKind_eq_ok_iff.2 ⟨hend, rfl, rfl⟩, ?_⟩
    rcases h with ⟨hindent, rfl, rfl⟩ |
      ⟨indent, inner, expressions, ahead, dedent, next, hinner, hindent, hblock, hahead,
        hdedent, rfl, rfl⟩
    · rw [if_neg hindent]
      exact pure_eq_ok_iff.2 ⟨rfl, rfl⟩
    · rw [if_pos (by rw [hinner, nextKind_cons, hindent]), bind_eq_ok_iff]
      refine ⟨indent, _, take_eq_ok_iff.2 ⟨inner, hinner, rfl⟩, ?_⟩
      rw [bind_eq_ok_iff]
      refine ⟨expressions, ahead, hblock, ?_⟩
      rw [bind_eq_ok_iff]
      exact ⟨dedent, _, expect_eq_ok_iff.2 ⟨next, hahead, List.mem_singleton.2 hdedent, rfl⟩,
        pure_eq_ok_iff.2 ⟨rfl, rfl⟩⟩

theorem IndentsOpen.right {a b : List Token} (h : IndentsOpen (a ++ b)) : IndentsOpen b := by
  intro before token after heq
  exact h (a ++ before) token after (by rw [heq, List.append_assoc])

theorem FilterTree.inRange_of_comparisons_eq_nil {tree : FilterTree} (h : tree.comparisons = []) :
    tree.InRange := by
  intro comparison hmem
  rw [h] at hmem
  cases hmem

theorem exists_filterTree (hspelled : Spelled input.tokens) (hopen : IndentsOpen input.tokens)
    (h : filter input = .ok (value, after)) :
    ∃ tree : FilterTree, input.tokens = tree.tokens ++ after.tokens ∧ tree.Derives after.tokens ∧
      tree.InRange ∧ value = tree.filter ∧ after.error = input.error := by
  obtain ⟨tokens, last, error⟩ := input
  obtain ⟨name, rest, stop, middle, htokens, hname, hstop, -, h⟩ := filter_eq_ok_iff.1 h
  obtain rfl : tokens = name :: rest := htokens
  rcases nameEnd_eq_ok_iff.1 hstop with
    ⟨hnil, -, rfl, rfl⟩ | ⟨newline, rest', htokens, hnewline, rfl, rfl⟩
  · obtain rfl : rest = [] := hnil
    rcases h with ⟨-, rfl, rfl⟩ | ⟨_, _, _, _, _, _, hinner, -⟩
    · exact ⟨.last name, rfl, ⟨hname, rfl⟩, FilterTree.inRange_of_comparisons_eq_nil rfl, rfl, rfl⟩
    · cases hinner
  · obtain rfl : rest = newline :: rest' := htokens
    rcases h with ⟨-, rfl, rfl⟩ |
      ⟨indent, inner, expressions, ahead, dedent, next, hinner, hindent, hblock, hahead,
        hdedent, rfl, rfl⟩
    · exact ⟨.line name newline, rfl, ⟨hname, hnewline⟩,
        FilterTree.inRange_of_comparisons_eq_nil rfl, rfl, rfl⟩
    · obtain rfl : rest' = indent :: inner := hinner
      obtain ⟨trees, htrees, -, hall, hranges, rfl, herror⟩ :=
        exists_comparisonTrees hspelled.tail.tail.tail hblock
      have hblockTokens : inner = trees.flatMap ComparisonTree.tokens ++ dedent :: next :=
        hahead ▸ htrees
      -- A block without comparisons would be an indent right before a dedent.
      have hne : trees ≠ [] := by
        rintro rfl
        obtain ⟨word, _, hafter, hword⟩ := hopen [name, newline] indent inner rfl hindent
        rw [hblockTokens, List.flatMap_nil, List.nil_append, List.cons.injEq] at hafter
        rw [← hafter.1, hdedent] at hword
        exact absurd hword (by decide)
      refine ⟨.block name newline indent trees dedent, ?_,
        ⟨hname, hnewline, hindent, hne, hahead ▸ hall, hdedent⟩, hranges, rfl, herror⟩
      simp only [FilterTree.tokens, hblockTokens, List.cons_append, List.append_assoc,
        List.nil_append]

/-- The tokens of a tree are read as its filter, when no indent comes after them. -/
theorem filter_tokens {tree : FilterTree} (last : Location)
    (hspelled : Spelled (tree.tokens ++ next)) (hderives : tree.Derives next)
    (hnext : nextKind next ≠ some .indent) (hrange : tree.InRange) :
    ∃ stop, filter (⟨tree.tokens ++ next, last, none⟩ : Input) =
      .ok (tree.filter, ⟨next, stop, none⟩) := by
  cases tree with
  | line name newline =>
    obtain ⟨hname, hnewline⟩ := hderives
    exact ⟨newline.stop, filter_eq_ok_iff.2 ⟨name, _, _, _, rfl, hname,
      nameEnd_eq_ok_iff.2 (.inr ⟨newline, next, rfl, hnewline, rfl, rfl⟩), fun _ => rfl,
      .inl ⟨hnext, rfl, rfl⟩⟩⟩
  | block name newline indent comparisons dedent =>
    obtain ⟨hname, hnewline, hindent, -, hall, hdedent⟩ := hderives
    simp only [FilterTree.tokens, List.cons_append, List.append_assoc,
      List.nil_append] at hspelled ⊢
    obtain ⟨stop, hblock⟩ := comparisons_tokens indent.stop none hspelled.tail.tail.tail
      (congrArg some hdedent) hall hrange
    exact ⟨dedent.stop, filter_eq_ok_iff.2 ⟨name, _, _, _, rfl, hname,
      nameEnd_eq_ok_iff.2 (.inr ⟨newline, _, rfl, hnewline, rfl, rfl⟩), fun _ => rfl,
      .inr ⟨indent, _, _, _, dedent, next, rfl, hindent, hblock, rfl, hdedent, rfl, rfl⟩⟩⟩
  | last name =>
    obtain ⟨hname, rfl⟩ := hderives
    exact ⟨name.stop, filter_eq_ok_iff.2 ⟨name, _, _, _, rfl, hname,
      nameEnd_eq_ok_iff.2 (.inl ⟨rfl, rfl, rfl, rfl⟩), fun _ => rfl, .inl ⟨hnext, rfl, rfl⟩⟩⟩

theorem length_lt_of_filter (hspelled : Spelled input.tokens) (hopen : IndentsOpen input.tokens)
    (h : filter input = .ok (value, after)) : after.tokens.length < input.tokens.length := by
  obtain ⟨tree, htokens, -⟩ := exists_filterTree hspelled hopen h
  have hpos := List.length_pos_iff.2 tree.tokens_ne_nil
  rw [htokens, List.length_append]
  omega

/-! ### Files -/

/-- Filters that are read have trees, and no error ends the tokens. -/
theorem exists_filterTrees (hspelled : Spelled input.tokens) (hopen : IndentsOpen input.tokens)
    (h : filters input = .ok (values, after)) :
    input.error = none ∧ ∃ trees, IsDerivation input.tokens trees ∧ (∀ tree ∈ trees, tree.InRange) ∧
      values = trees.map FilterTree.filter := by
  induction values generalizing input with
  | nil =>
    rcases (readMany_eq_ok_iff (length_lt_of_filter hspelled hopen)).1 h with
      ⟨hmore, -⟩ | ⟨_, _, _, _, -, -, -, hvalues⟩
    · obtain ⟨herror, hnone, -⟩ := test_eq_ok_iff.1 hmore
      have hnil : input.tokens = [] := by simpa [nextKind] using hnone.symm
      exact ⟨herror hnil, [], ⟨hnil.symm, trivial⟩, by simp, rfl⟩
    · cases hvalues
  | cons value values ih =>
    rcases (readMany_eq_ok_iff (length_lt_of_filter hspelled hopen)).1 h with
      ⟨-, hvalues⟩ | ⟨ahead, first, middle, others, -, hfirst, hothers, hvalues⟩
    · cases hvalues
    · cases hvalues
      obtain ⟨tree, htokens, hderives, hrange, rfl, herror⟩ :=
        exists_filterTree hspelled hopen hfirst
      obtain ⟨hnone, trees, ⟨hspells, hall⟩, hranges, rfl⟩ :=
        ih (htokens ▸ hspelled).right (htokens ▸ hopen).right hothers
      refine ⟨herror.symm.trans hnone, tree :: trees, ⟨?_, hspells.symm ▸ hderives, hall⟩, ?_, rfl⟩
      · rw [htokens, List.flatMap_cons, hspells]
      · exact List.forall_mem_cons.2 ⟨hrange, hranges⟩

theorem filters_tokens {trees : List FilterTree} (last : Location)
    (hspelled : Spelled (trees.flatMap FilterTree.tokens))
    (hopen : IndentsOpen (trees.flatMap FilterTree.tokens)) (hall : FilterTree.DeriveAll trees)
    (hrange : ∀ tree ∈ trees, tree.InRange) :
    ∃ after, filters (⟨trees.flatMap FilterTree.tokens, last, none⟩ : Input) =
      .ok (trees.map FilterTree.filter, after) := by
  induction trees generalizing last with
  | nil =>
    exact ⟨⟨[], last, none⟩, (readMany_eq_ok_iff (length_lt_of_filter hspelled hopen)).2
      (.inl ⟨test_eq_ok_iff.2 ⟨fun _ => rfl, rfl, rfl⟩, rfl⟩)⟩
  | cons tree trees ih =>
    have hsome : (nextKind ((tree :: trees).flatMap FilterTree.tokens)).isSome = true := by
      rw [nextKind, Option.isSome_map, List.isSome_head?, List.flatMap_cons]
      simp [tree.tokens_ne_nil]
    rw [List.flatMap_cons] at hspelled hopen hsome ⊢
    obtain ⟨hderives, hall⟩ := hall
    obtain ⟨middle, hfirst⟩ := filter_tokens last hspelled hderives hall.nextKind_ne_indent
      (hrange tree List.mem_cons_self)
    obtain ⟨after, hothers⟩ := ih middle hspelled.right hopen.right hall
      fun other hmem => hrange other (List.mem_cons_of_mem _ hmem)
    exact ⟨after, (readMany_eq_ok_iff (length_lt_of_filter hspelled hopen)).2 (.inr ⟨_, _, _, _,
      test_eq_ok_iff.2 ⟨fun _ => rfl, hsome.symm, rfl⟩, hfirst, hothers, rfl⟩)⟩

theorem parse_eq_ok_iff :
    parse source = .ok values ↔
      ∃ after, filters (Input.mk (lexStream source).tokens ⟨1, 0⟩ (lexStream source).error) =
        .ok (values, after) := by
  rw [parse_eq]
  cases filters (Input.mk (lexStream source).tokens ⟨1, 0⟩ (lexStream source).error) with
  | error error => simp [Except.map]
  | ok found =>
    obtain ⟨others, after⟩ := found
    simp [Except.map]

/-- An accepted file has a derivation, which its filters are read off. -/
theorem exists_derivation_of_parse (h : parse source = .ok values) :
    ∃ tokens trees, lex source = .ok tokens ∧ IsDerivation tokens trees ∧
      (∀ tree ∈ trees, tree.InRange) ∧ values = trees.map FilterTree.filter := by
  obtain ⟨after, hread⟩ := parse_eq_ok_iff.1 h
  obtain ⟨herror, trees, htrees, hrange, rfl⟩ :=
    exists_filterTrees (spelled_lexStream source) (indentsOpen_lexStream source) hread
  have hstream : lexStream source = ⟨(lexStream source).tokens, none⟩ := by
    rw [← show (lexStream source).error = none from herror]
  exact ⟨(lexStream source).tokens, trees, lex_eq_ok_iff.2 hstream, htrees, hrange, rfl⟩

theorem parse_of_derivation {trees : List FilterTree} (hlex : lex source = .ok tokens)
    (htrees : IsDerivation tokens trees) (hrange : ∀ tree ∈ trees, tree.InRange) :
    parse source = .ok (trees.map FilterTree.filter) := by
  obtain ⟨rfl, hall⟩ := htrees
  have hstream := lex_eq_ok_iff.1 hlex
  have hspelled := spelled_lexStream source
  have hopen := indentsOpen_lexStream source
  rw [hstream] at hspelled hopen
  rw [parse_eq_ok_iff, hstream]
  exact filters_tokens ⟨1, 0⟩ hspelled hopen hall hrange

/-- An ignore file is accepted exactly when it falls into tokens that the grammar derives, with
integers below 2^64. There is one derivation, and the filters of the file are read off it. -/
theorem parse_eq_ok_iff_isDerivation (source : List Char) :
    ((∃ values, parse source = .ok values) ↔
      ∃ tokens trees, lex source = .ok tokens ∧ IsDerivation tokens trees ∧
        ∀ tree ∈ trees, tree.InRange) ∧
    ∀ values, parse source = .ok values →
      ∃ tokens trees, lex source = .ok tokens ∧ IsDerivation tokens trees ∧
        (∀ others, IsDerivation tokens others → others = trees) ∧
        (∀ tree ∈ trees, tree.InRange) ∧ values = trees.map FilterTree.filter := by
  refine ⟨⟨?_, ?_⟩, ?_⟩
  · rintro ⟨values, h⟩
    obtain ⟨tokens, trees, hlex, htrees, hrange, -⟩ := exists_derivation_of_parse h
    exact ⟨tokens, trees, hlex, htrees, hrange⟩
  · rintro ⟨tokens, trees, hlex, htrees, hrange⟩
    exact ⟨_, parse_of_derivation hlex htrees hrange⟩
  · intro values h
    obtain ⟨tokens, trees, hlex, htrees, hrange, hvalues⟩ := exists_derivation_of_parse h
    exact ⟨tokens, trees, hlex, htrees, fun others hothers => hothers.unique htrees,
      hrange, hvalues⟩

end PythonLint.Ignore
