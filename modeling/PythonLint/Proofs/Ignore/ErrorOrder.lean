import PythonLint.Proofs.Ignore.Exactness
import PythonLint.Proofs.Ignore.Lookahead

/-!
# Which error an ignore file reports

Tokens are viable when they can be continued to the tokens of an accepted file. The rules of ignore
files refuse a token as soon as it makes the tokens up to it not viable, so that the first such
token decides. Where an error of a line ends the tokens, it is reported if they are viable, and
otherwise a token on an earlier line is refused. The tokens never end where one is needed: each
indent is answered by a dedent, and up to there a comparison is refused or complete.

Main statements: `filter_error_cases`, `exists_comparisonTree_of_lexing`,
`exists_filterTree_of_lexing`, `viable_of_lexing`, `not_viable`, `exists_indent_of_filters_ended`,
`parse_reports_first`.
-/

namespace PythonLint.Ignore

/-- Some continuation of the tokens is accepted: nothing that comes before their end is wrong. -/
def Viable (tokens : List Token) : Prop :=
  ∃ more trees, Spelled (tokens ++ more) ∧ IsDerivation (tokens ++ more) trees ∧
    ∀ tree ∈ trees, tree.InRange

theorem Viable.left {a b : List Token} (h : Viable (a ++ b)) : Viable a := by
  obtain ⟨more, trees, hspelled, hderives, hrange⟩ := h
  rw [List.append_assoc] at hspelled hderives
  exact ⟨b ++ more, trees, hspelled, hderives, hrange⟩

/-! ### Tokens of derivations -/

theorem IndentsOpen.cons {token : Token} {tokens : List Token} (h : IndentsOpen tokens)
    (hfirst : token.kind = .indent → ∃ word rest, tokens = word :: rest ∧ word.kind.IsWordKind) :
    IndentsOpen (token :: tokens) := by
  intro before other after heq hkind
  cases before with
  | nil =>
    obtain ⟨rfl, rfl⟩ := List.cons.inj heq
    exact hfirst hkind
  | cons first before => exact h before other after (List.cons.inj heq).2 hkind

namespace ComparisonTree

variable {tree : ComparisonTree} {trees : List ComparisonTree} {next : List Token} {token : Token}

theorem Derives.ne_mark (h : tree.Derives next) (hmem : token ∈ tree.tokens) :
    token.kind ≠ .indent ∧ token.kind ≠ .dedent := by
  obtain ⟨left, operator, right, newline⟩ := tree
  obtain ⟨hleft, hoperator, hright, hend⟩ := h
  have hoperand : ∀ {kind : TokenKind}, kind.IsOperand → kind ≠ .indent ∧ kind ≠ .dedent := by
    rintro _ (rfl | rfl | rfl) <;> decide
  rcases List.mem_cons.1 hmem with rfl | hmem
  · exact hoperand hleft
  rcases List.mem_cons.1 hmem with rfl | hmem
  · rw [show token.kind = .operator from hoperator]
    decide
  rcases List.mem_cons.1 hmem with rfl | hmem
  · exact hoperand hright
  · cases newline with
    | none => cases hmem
    | some newline =>
      rw [List.mem_singleton.1 hmem, show newline.kind = .newline from hend]
      decide

theorem DeriveAll.ne_mark (h : DeriveAll trees next) (hmem : token ∈ trees.flatMap tokens) :
    token.kind ≠ .indent ∧ token.kind ≠ .dedent := by
  induction trees with
  | nil => cases hmem
  | cons tree trees ih =>
    rcases List.mem_append.1 (List.flatMap_cons ▸ hmem) with hmem | hmem
    · exact h.1.ne_mark hmem
    · exact ih h.2 hmem

/-- Of the tokens after it, a comparison depends on the kind of the first one. -/
theorem Derives.congr (h : tree.Derives next) {other : List Token}
    (hkind : nextKind other = nextKind next) : tree.Derives other := by
  obtain ⟨left, operator, right, newline⟩ := tree
  obtain ⟨hleft, hoperator, hright, hend⟩ := h
  refine ⟨hleft, hoperator, hright, ?_⟩
  cases newline with
  | none => exact hkind.trans hend
  | some newline => exact hend

theorem DeriveAll.congr (h : DeriveAll trees next) {other : List Token}
    (hkind : nextKind other = nextKind next) : DeriveAll trees other := by
  induction trees with
  | nil => trivial
  | cons tree trees ih =>
    refine ⟨h.1.congr ?_, ih h.2⟩
    unfold nextKind at hkind ⊢
    rw [List.head?_append, List.head?_append, Option.map_or, Option.map_or, hkind]

end ComparisonTree

namespace FilterTree

variable {tree : FilterTree} {trees : List FilterTree} {next : List Token}

/-- A filter that is not at the end does not depend on the tokens after it. -/
theorem Derives.congr (h : tree.Derives next) (hne : next ≠ []) (other : List Token) :
    tree.Derives other := by
  cases tree with
  | line name newline => exact h
  | block name newline indent comparisons dedent =>
    obtain ⟨hname, hnewline, hindent, hcomparisons, hall, hdedent⟩ := h
    exact ⟨hname, hnewline, hindent, hcomparisons, hall.congr rfl, hdedent⟩
  | last name => exact absurd h.2 hne

/-- In a derivation a comparison follows each indent. -/
theorem Derives.indentsOpen (h : tree.Derives next) : IndentsOpen tree.tokens := by
  have hnil : IndentsOpen [] := indentsOpen_of_forall_ne (by simp)
  have hother : ∀ {token : Token} {kind : TokenKind} {goal : Prop}, token.kind = kind →
    kind ≠ .indent →
      token.kind = .indent → goal := fun hkind hne hindent => absurd (hkind.symm.trans hindent) hne
  cases tree with
  | line name newline =>
    exact (hnil.cons (hother h.2 (by decide))).cons (hother h.1 (by decide))
  | block name newline indent comparisons dedent =>
    obtain ⟨hname, hnewline, hindent, hne, hall, hdedent⟩ := h
    have hblock : IndentsOpen (comparisons.flatMap ComparisonTree.tokens ++ [dedent]) :=
      (indentsOpen_of_forall_ne fun token hmem => (hall.ne_mark hmem).1).append
        (hnil.cons (hother hdedent (by decide)))
    refine ((hblock.cons fun _ => ?_).cons (hother hnewline (by decide))).cons
      (hother hname (by decide))
    obtain ⟨first, others, rfl⟩ := List.exists_cons_of_ne_nil hne
    refine ⟨first.left, _, rfl, ?_⟩
    rcases hall.1.1 with h | h | h <;> rw [h] <;> decide
  | last name => exact hnil.cons (hother h.1 (by decide))

theorem DeriveAll.indentsOpen (h : DeriveAll trees) : IndentsOpen (trees.flatMap tokens) := by
  induction trees with
  | nil => exact indentsOpen_of_forall_ne (by simp)
  | cons tree trees ih => exact h.1.indentsOpen.append (ih h.2)

end FilterTree

/-- Tokens that are refused however they go on are not viable. -/
theorem not_viable {tokens : List Token} {last : Location} {problem : IgnoreError}
    (h : ∀ more, filters (⟨tokens ++ more, last, none⟩ : Input) = .error problem) :
    ¬Viable tokens := by
  rintro ⟨more, trees, hspelled, ⟨hspells, hall⟩, hrange⟩
  rw [← hspells] at hspelled
  obtain ⟨after, hread⟩ := filters_tokens last hspelled hall.indentsOpen hall hrange
  rw [hspells, h more] at hread
  cases hread

/-! ### Calling for more tokens -/

section Lexing

variable {input : Input} {error : LexError}

theorem peekKind_eq_lexing (h : peekKind input = .error (.lexing error)) : input.tokens = [] := by
  obtain ⟨tokens, last, error'⟩ := input
  cases tokens with
  | nil => rfl
  | cons token tokens => cases h

theorem peekKind_ne_parsing {refusal : ParseError} :
    peekKind input ≠ .error (.parsing refusal) := by
  obtain ⟨tokens, last, error'⟩ := input
  cases tokens <;> cases error' <;> exact nofun

theorem take_eq_lexing (h : take input = .error (.lexing error)) : input.tokens = [] := by
  obtain ⟨tokens, last, error'⟩ := input
  cases tokens with
  | nil => rfl
  | cons token tokens => cases h

theorem expect_eq_lexing {kinds : List TokenKind}
    (h : expect kinds input = .error (.lexing error)) : input.tokens = [] := by
  rcases bind_eq_error_iff.1 h with h | ⟨token, middle, -, h⟩
  · exact take_eq_lexing h
  · split at h <;> cases h

theorem operand_eq_lexing (h : operand input = .error (.lexing error)) : input.tokens = [] := by
  rcases bind_eq_error_iff.1 h with h | ⟨token, middle, hexpect, h⟩
  · exact expect_eq_lexing h
  · obtain ⟨-, -, hkind, -⟩ := expect_eq_ok_iff.1 hexpect
    have hoperand : token.kind.IsOperand := by simpa [TokenKind.IsOperand] using hkind
    rcases hoperand with hname | hstring | hinteger
    · simp only [hname] at h
      cases h
    · simp only [hstring] at h
      cases h
    · simp only [hinteger] at h
      split at h <;> cases h

theorem nameEnd_eq_lexing {name : Token} (h : nameEnd name input = .error (.lexing error)) :
    input.tokens = [] := by
  rcases bind_eq_error_iff.1 h with h | ⟨kind, middle, hpeek, h⟩
  · exact peekKind_eq_lexing h
  · obtain ⟨-, -, rfl⟩ := peekKind_eq_ok_iff.1 hpeek
    cases kind with
    | none => cases h
    | some kind =>
      rcases bind_eq_error_iff.1 h with h | ⟨newline, after, -, h⟩
      · exact expect_eq_lexing h
      · cases h

end Lexing

variable {tokens : List Token} {last : Location} {error : LexError}

/-- All that can stop a filter: its name, the end of the line, the look ahead for an indent, or a
comparison of its block. A dedent always follows the comparisons. -/
theorem filter_error_cases {error : Option LexError} {problem : IgnoreError}
    (hspelled : Spelled tokens) (h : filter (⟨tokens, last, error⟩ : Input) = .error problem) :
    expect [.name] (⟨tokens, last, error⟩ : Input) = .error problem ∨
      ∃ name rest, tokens = name :: rest ∧ name.kind = .name ∧
        (nameEnd name (⟨rest, name.stop, error⟩ : Input) = .error problem ∨
          ∃ newline others, rest = newline :: others ∧ newline.kind = .newline ∧
            (peekKind (⟨others, newline.stop, error⟩ : Input) = .error problem ∨
              ∃ indent inner, others = indent :: inner ∧ indent.kind = .indent ∧
                readMany (do return (← peekKind) ≠ some .dedent) comparison
                  (⟨inner, indent.stop, error⟩ : Input) =
                  .error problem)) := by
  rw [filter, bind_eq_error_iff] at h
  refine h.imp_right ?_
  rintro ⟨name, _, hexpect, h⟩
  obtain ⟨rest, htokens, hkind, rfl⟩ := expect_eq_ok_iff.1 hexpect
  obtain rfl : tokens = name :: rest := htokens
  refine ⟨name, rest, rfl, List.mem_singleton.1 hkind, ?_⟩
  rw [bind_eq_error_iff] at h
  refine h.imp_right ?_
  rintro ⟨stop, middle, hstop, h⟩
  rw [bind_eq_error_iff] at h
  rcases nameEnd_eq_ok_iff.1 hstop with ⟨hnil, rfl, -, rfl⟩ | ⟨newline, others, htokens,
    hnewline, -, rfl⟩
  · -- At the end of the tokens a filter is complete.
    obtain rfl : rest = [] := hnil
    rcases h with h | ⟨kind, _, hpeek, h⟩
    · cases h
    · obtain ⟨-, rfl, rfl⟩ := peekKind_eq_ok_iff.1 hpeek
      cases h
  obtain rfl : rest = newline :: others := htokens
  refine ⟨newline, others, rfl, hnewline, h.imp_right ?_⟩
  rintro ⟨kind, _, hpeek, h⟩
  obtain ⟨-, hnext, rfl⟩ := peekKind_eq_ok_iff.1 hpeek
  split at h
  · next hindent =>
    obtain ⟨indent, inner, rfl⟩ :=
      List.exists_cons_of_ne_nil (ne_nil_of_nextKind (hnext.symm.trans hindent))
    rw [bind_of_ok (show take _ = .ok (indent, ⟨inner, indent.stop, error⟩) from rfl),
      bind_eq_error_iff] at h
    refine ⟨indent, inner, rfl, Option.some.inj (hnext.symm.trans hindent), h.resolve_right ?_⟩
    rintro ⟨expressions, ahead, hblock, h⟩
    obtain ⟨_, -, hdedent, -⟩ := exists_comparisonTrees hspelled.tail.tail.tail hblock
    obtain ⟨dedent, next, hahead⟩ := List.exists_cons_of_ne_nil (ne_nil_of_nextKind hdedent)
    rw [hahead, nextKind_cons, Option.some.injEq] at hdedent
    rw [bind_of_ok (expect_eq_ok_iff.2 ⟨next, hahead, List.mem_singleton.2 hdedent, rfl⟩)] at h
    cases h
  · cases h

/-! ### Completions -/

/-- A token with which others can be completed. Its place does not matter. -/
def sample (kind : TokenKind) (lexeme : String) : Token :=
  ⟨kind, lexeme, ⟨1, 0⟩, ⟨1, 0⟩⟩

/-- The tokens of a comparison that can stand anywhere. -/
def sampleLine : List Token :=
  [sample .name "a", sample .operator "=", sample .name "a", sample .newline "\n"]

theorem spelled_sampleLine : Spelled sampleLine := by
  have hname : IsWord .name ['a'] := .name (by decide) (by simp)
  have hoperator : IsWord .operator ['='] := .operator .equal
  have hnewline : ¬TokenKind.newline.IsWordKind := by decide
  simp [Spelled, sampleLine, sample, hname, hoperator, hnewline]

theorem Spelled.of_subset {a b : List Token} (h : Spelled b) (hsubset : ∀ token ∈ a, token ∈ b) :
    Spelled a :=
  fun token hmem => h token (hsubset token hmem)

/-- Tokens after which a comparison calls for more can be completed to one. -/
theorem exists_comparisonTree_of_lexing (hspelled : Spelled tokens)
    (h : comparison (⟨tokens, last, some error⟩ : Input) = .error (.lexing error)) :
    ∃ (tree : ComparisonTree) (more : List Token), tree.tokens = tokens ++ more ∧ Spelled more ∧
      tree.InRange ∧ ∀ next, tree.Derives next := by
  have hname : (sample .name "a").kind.IsOperand := .inl rfl
  have hrange : (sample .name "a").InRange := fun hinteger => by cases hinteger
  have hsamples : ∀ n, Spelled (sampleLine.drop n) := fun n =>
    spelled_sampleLine.of_subset fun token hmem => List.mem_of_mem_drop hmem
  rw [comparison, bind_eq_error_iff] at h
  rcases h with h | ⟨_, _, hleft, h⟩
  · obtain rfl : tokens = [] := operand_eq_lexing h
    exact ⟨⟨_, _, _, some _⟩, sampleLine, rfl, hsamples 0, ⟨hrange, hrange⟩,
      fun _ => ⟨hname, rfl, hname, rfl⟩⟩
  obtain ⟨left, rest, rfl, hleftKind, hleftRange, rfl, rfl⟩ := (operand_eq_ok_iff hspelled).1 hleft
  rw [bind_eq_error_iff] at h
  rcases h with h | ⟨operator, _, hoperator, h⟩
  · obtain rfl : rest = [] := expect_eq_lexing h
    exact ⟨⟨left, _, _, some _⟩, sampleLine.drop 1, rfl, hsamples 1, ⟨hleftRange, hrange⟩,
      fun _ => ⟨hleftKind, rfl, hname, rfl⟩⟩
  obtain ⟨rest', htokens, hoperatorKind, hsymbol, rfl⟩ :=
    exists_operator_of_expect hspelled.tail hoperator
  obtain rfl : rest = operator :: rest' := htokens
  rw [hsymbol] at h
  simp only at h
  rw [bind_eq_error_iff] at h
  rcases h with h | ⟨_, _, hright, h⟩
  · obtain rfl : rest' = [] := operand_eq_lexing h
    exact ⟨⟨left, operator, _, some _⟩, sampleLine.drop 2, rfl, hsamples 2, ⟨hleftRange, hrange⟩,
      fun _ => ⟨hleftKind, hoperatorKind, hname, rfl⟩⟩
  obtain ⟨right, rest, htokens, hrightKind, hrightRange, rfl, rfl⟩ :=
    (operand_eq_ok_iff hspelled.tail.tail).1 hright
  obtain rfl : rest' = right :: rest := htokens
  -- What is left is the end of the line, where both the look ahead and the newline call for a
  -- token.
  have hnil : rest = [] := by
    rw [bind_eq_error_iff] at h
    rcases h with h | ⟨kind, _, hpeek, h⟩
    · exact peekKind_eq_lexing h
    obtain ⟨-, -, rfl⟩ := peekKind_eq_ok_iff.1 hpeek
    split at h
    · cases h
    · cases h
    · rcases bind_eq_error_iff.1 h with h | ⟨_, _, -, h⟩
      · exact expect_eq_lexing h
      · cases h
  subst hnil
  exact ⟨⟨left, operator, right, some _⟩, sampleLine.drop 3, rfl, hsamples 3,
    ⟨hleftRange, hrightRange⟩, fun _ => ⟨hleftKind, hoperatorKind, hrightKind, rfl⟩⟩

/-- The comparisons start with the tokens and go on with others, and any tokens can come after
them. -/
structure ComparisonTree.Complete (trees : List ComparisonTree)
    (tokens more : List Token) : Prop where
  ne_nil : trees ≠ []
  spells : trees.flatMap ComparisonTree.tokens = tokens ++ more
  spelled : Spelled more
  inRange : ∀ tree ∈ trees, tree.InRange
  derives : ∀ next, ComparisonTree.DeriveAll trees next

theorem ComparisonTree.Complete.tokens_ne_nil {trees : List ComparisonTree} {more : List Token}
    (h : ComparisonTree.Complete trees tokens more) : tokens ++ more ≠ [] := by
  obtain ⟨tree, others, rfl⟩ := List.exists_cons_of_ne_nil h.ne_nil
  rw [← h.spells]
  exact List.cons_ne_nil _ _

theorem ComparisonTree.Complete.cons {value : Expression} {rest more : List Token} {stop : Location}
    {trees : List ComparisonTree} (h : ComparisonTree.Complete trees rest more)
    (hspelled : Spelled tokens) (hfirst : comparison (⟨tokens, last, some error⟩ : Input) =
      .ok (value, ⟨rest, stop, some error⟩)) :
    ∃ tree, ComparisonTree.Complete (tree :: trees) tokens more := by
  have hlonger := isItem_comparison.reads.extend_ok hfirst more none
  obtain ⟨tree, htokens, hderives, hrange, -, -⟩ :=
    exists_comparisonTree (hspelled.append h.spelled) hlonger
  refine ⟨tree, List.cons_ne_nil _ _, ?_, h.spelled, List.forall_mem_cons.2 ⟨hrange, h.inRange⟩,
    fun next => ⟨?_, h.derives next⟩⟩
  · rw [List.flatMap_cons, h.spells]
    exact htokens.symm
  · rw [h.spells]
    refine (hderives h.tokens_ne_nil).congr ?_
    obtain ⟨token, others, hcons⟩ := List.exists_cons_of_ne_nil h.tokens_ne_nil
    simp [hcons]

/-- Tokens after which the comparisons of a block call for more can be completed to comparisons. -/
theorem exists_complete_of_lexing (hspelled : Spelled tokens)
    (h : readMany (do return (← peekKind) ≠ some .dedent) comparison
      (⟨tokens, last, some error⟩ : Input) = .error (.lexing error)) :
    ∃ trees more, ComparisonTree.Complete trees tokens more := by
  induction hlength : tokens.length using Nat.strongRecOn generalizing tokens last with
  | _ n ih =>
    -- A comparison that is not complete is the last one.
    have hlast : comparison (⟨tokens, last, some error⟩ : Input) = .error (.lexing error) →
        ∃ trees more, ComparisonTree.Complete trees tokens more := by
      intro hitem
      obtain ⟨tree, more, htokens, hmore, hrange, hderives⟩ :=
        exists_comparisonTree_of_lexing hspelled hitem
      exact ⟨[tree], more, List.cons_ne_nil _ _, by simpa using htokens,
        hmore, by simpa using hrange, fun next => ⟨hderives _, trivial⟩⟩
    rcases readMany_error_cases (fun kind => kind ≠ some .dedent) isItem_comparison h with
      h | ⟨-, h⟩ | ⟨first, used, rest, stop, hfirst, htokens, hshorter, h⟩
    · obtain rfl : tokens = [] := peekKind_eq_lexing h
      exact hlast rfl
    · exact hlast h
    · have hrest : Spelled rest := (htokens ▸ hspelled).right
      obtain ⟨trees, more, hcomplete⟩ := ih rest.length (hlength ▸ hshorter) hrest h rfl
      obtain ⟨tree, hcons⟩ := hcomplete.cons hspelled hfirst
      exact ⟨tree :: trees, more, hcons⟩

/-- Tokens after which a filter calls for more can be completed to one. -/
theorem exists_filterTree_of_lexing (hspelled : Spelled tokens)
    (h : filter (⟨tokens, last, some error⟩ : Input) = .error (.lexing error)) :
    ∃ (tree : FilterTree) (more : List Token), tree.tokens = tokens ++ more ∧ Spelled more ∧
      tree.InRange ∧ ∀ next, tree.Derives next := by
  have hname : Spelled [sample .name "a"] := spelled_sampleLine.of_subset (by simp [sampleLine])
  have hnewline : Spelled [sample .newline "\n"] :=
    spelled_sampleLine.of_subset (by simp [sampleLine])
  have hdedent : Spelled [sample .dedent ""] := fun token hmem hword => by
    rw [List.mem_singleton.1 hmem] at hword
    exact absurd hword (TokenKind.not_isWordKind (.inr (.inl rfl)))
  have hrange : ∀ a b, (FilterTree.line a b).InRange :=
    fun _ _ => FilterTree.inRange_of_comparisons_eq_nil rfl
  rcases filter_error_cases hspelled h with h | ⟨name, rest, rfl, hnameKind,
    h | ⟨newline, others, rfl, hnewlineKind, h | ⟨indent, inner, rfl, hindentKind, h⟩⟩⟩
  · obtain rfl : tokens = [] := expect_eq_lexing h
    exact ⟨.line _ _, _, rfl, hname.append hnewline, hrange _ _, fun _ => ⟨rfl, rfl⟩⟩
  · obtain rfl : rest = [] := nameEnd_eq_lexing h
    exact ⟨.line name _, _, rfl, hnewline, hrange _ _, fun _ => ⟨hnameKind, rfl⟩⟩
  · obtain rfl : others = [] := peekKind_eq_lexing h
    exact ⟨.line name newline, [], rfl, by simp [Spelled], hrange _ _,
      fun _ => ⟨hnameKind, hnewlineKind⟩⟩
  · obtain ⟨trees, more, hcomplete⟩ := exists_complete_of_lexing hspelled.tail.tail.tail h
    refine ⟨.block name newline indent trees (sample .dedent ""), more ++ [sample .dedent ""], ?_,
      hcomplete.spelled.append hdedent, hcomplete.inRange,
      fun next => ⟨hnameKind, hnewlineKind, hindentKind, hcomplete.ne_nil,
        hcomplete.derives _, rfl⟩⟩
    simp [FilterTree.tokens, hcomplete.spells]

/-- Tokens after which the file calls for more are viable. It is enough that they stand before
others in a file whose indents are followed by words. -/
theorem viable_of_lexing {others : List Token} (hne : others ≠ [])
    (hspelled : Spelled (tokens ++ others)) (hopen : IndentsOpen (tokens ++ others))
    (h : filters (⟨tokens, last, some error⟩ : Input) = .error (.lexing error)) :
    Viable tokens := by
  induction hlength : tokens.length using Nat.strongRecOn generalizing tokens last with
  | _ n ih =>
    have hleft : Spelled tokens := hspelled.of_subset fun token hmem => List.mem_append_left _ hmem
    rcases readMany_error_cases Option.isSome isItem_filter h with
      h | ⟨-, h⟩ | ⟨first, _, rest, stop, hfirst, -, hshorter, h⟩
    · obtain rfl : tokens = [] := peekKind_eq_lexing h
      exact ⟨[], [], by simp [Spelled], ⟨rfl, trivial⟩, by simp⟩
    · obtain ⟨tree, more, htokens, hmore, hrange, hderives⟩ := exists_filterTree_of_lexing hleft h
      exact ⟨more, [tree], hleft.append hmore,
        ⟨by simpa using htokens, hderives _, trivial⟩, by simpa using hrange⟩
    · have hlonger := isItem_filter.reads.extend_ok hfirst others none
      obtain ⟨tree, htokens, hderives, hrange, -, -⟩ := exists_filterTree hspelled hopen hlonger
      have hsplit : tokens ++ others = tree.tokens ++ (rest ++ others) := htokens
      rw [hsplit] at hspelled hopen
      obtain ⟨more, trees, hmore, ⟨hspells, hall⟩, hranges⟩ :=
        ih rest.length (hlength ▸ hshorter) hspelled.right hopen.right h rfl
      obtain rfl : tokens = tree.tokens ++ rest := by simpa [← List.append_assoc] using hsplit
      refine ⟨more, tree :: trees, ?_, ⟨?_, ?_, hall⟩, List.forall_mem_cons.2 ⟨hrange, hranges⟩⟩
      · rw [List.append_assoc]
        exact (hspelled.of_subset fun token hmem => List.mem_append_left _ hmem).append hmore
      · rw [List.flatMap_cons, hspells, List.append_assoc]
      · exact hderives.congr (by simp [hne]) _

/-! ### The end of the tokens -/

section Ended

variable {stop : Location}

/-- The comparisons of a block reach the end only where no dedent comes. -/
theorem ne_dedent_of_comparisons_ended (hspelled : Spelled tokens)
    (h : readMany (do return (← peekKind) ≠ some .dedent) comparison
      (⟨tokens, last, none⟩ : Input) = .error (.parsing ⟨.endOfInput, stop⟩)) :
    ∀ token ∈ tokens, token.kind ≠ .dedent := by
  intro token hmem
  have hlexing := leftToRight_comparisons.lexing_of_ended h ⟨.noWord, stop⟩
  obtain ⟨trees, more, hcomplete⟩ := exists_complete_of_lexing hspelled hlexing
  have hin : token ∈ trees.flatMap ComparisonTree.tokens := by
    rw [hcomplete.spells]
    exact List.mem_append_left _ hmem
  exact ((hcomplete.derives []).ne_mark hin).2

/-- A filter reaches the end only in a block that no dedent ends. -/
theorem exists_indent_of_filter_ended (hspelled : Spelled tokens) (hne : tokens ≠ [])
    (h : filter (⟨tokens, last, none⟩ : Input) = .error (.parsing ⟨.endOfInput, stop⟩)) :
    ∃ before indent after, tokens = before ++ indent :: after ∧ indent.kind = .indent ∧
      ∀ token ∈ after, token.kind ≠ .dedent := by
  rcases filter_error_cases hspelled h with h | ⟨name, rest, rfl, -, h | ⟨newline, others, rfl, -,
    h | ⟨indent, inner, rfl, hindent, h⟩⟩⟩
  · exact absurd (expect_eq_lexing ((isItem_expect _).reads.lexing_of_ended h ⟨.noWord, stop⟩)) hne
  · obtain rfl : rest = [] :=
      nameEnd_eq_lexing ((leftToRight_nameEnd name).lexing_of_ended h ⟨.noWord, stop⟩)
    cases h
  · exact absurd h peekKind_ne_parsing
  · exact ⟨[name, newline], indent, inner, rfl, hindent,
      ne_dedent_of_comparisons_ended hspelled.tail.tail.tail h⟩

/-- The end is reached only in a block that no dedent ends. -/
theorem exists_indent_of_filters_ended (hspelled : Spelled tokens)
    (h : filters (⟨tokens, last, none⟩ : Input) = .error (.parsing ⟨.endOfInput, stop⟩)) :
    ∃ before indent after, tokens = before ++ indent :: after ∧ indent.kind = .indent ∧
      ∀ token ∈ after, token.kind ≠ .dedent := by
  induction hlength : tokens.length using Nat.strongRecOn generalizing tokens last with
  | _ n ih =>
    rcases readMany_error_cases Option.isSome isItem_filter h with
      h | ⟨hsome, h⟩ | ⟨first, used, rest, _, -, rfl, hshorter, h⟩
    · exact absurd h peekKind_ne_parsing
    · refine exists_indent_of_filter_ended hspelled ?_ h
      rintro rfl
      cases hsome
    · obtain ⟨before, indent, after, rfl, hindent, hafter⟩ :=
        ih rest.length (hlength ▸ hshorter) hspelled.right h rfl
      exact ⟨used ++ before, indent, after, by rw [List.append_assoc], hindent, hafter⟩

end Ended

/-- An indent is answered by a dedent, unless its level stays open. -/
theorem Leads.exists_dedent {before after : List Token} {indent : Token}
    (h : Leads [0] (before ++ indent :: after) [0]) (hindent : indent.kind = .indent) :
    ∃ token ∈ after, token.kind = .dedent := by
  obtain ⟨levels, -, hrest⟩ := h.exists_of_append
  cases hrest with
  | indent hopens hafter =>
    have hcount := hafter.count_kinds
    rw [List.length_singleton, List.length_cons, List.length_cons] at hcount
    have hpos : 0 < (after.map Token.kind).count .dedent := by omega
    exact List.mem_map.1 (List.count_pos_iff.1 hpos)
  | dedent hkind _ => exact absurd (hkind.symm.trans hindent) (by decide)
  | other hkind _ => exact absurd hindent hkind.1

/-! ### All sources -/

theorem parse_eq_error_iff {source : List Char} {problem : IgnoreError} :
    parse source = .error problem ↔
      filters (Input.mk (lexStream source).tokens ⟨1, 0⟩ (lexStream source).error) =
        .error problem := by
  rw [parse_eq]
  cases filters (Input.mk (lexStream source).tokens ⟨1, 0⟩ (lexStream source).error) <;>
    simp [Except.map]

/-- A refusal is about the first token up to which the tokens are not viable. -/
theorem exists_refuses_of_parse {source : List Char} {refusal : ParseError}
    (h : parse source = .error (.parsing refusal)) :
    ∃ before token after, (lexStream source).tokens = before ++ token :: after ∧
      Refuses token refusal ∧ Viable before ∧ ¬Viable (before ++ [token]) := by
  have hspelled := spelled_lexStream source
  have hopen := indentsOpen_lexStream source
  have hread := parse_eq_error_iff.1 h
  cases (leftToRight_filters _).error _ hread with
  | ended herror =>
    -- All levels are closed at the end of a file without errors.
    have hnone : (lexStream source).error = none := herror
    have hleads :=
      leads_of_lex (lex_eq_ok_iff.2 (show lexStream source = ⟨(lexStream source).tokens, none⟩ by
      rw [← hnone]))
    rw [hnone] at hread
    obtain ⟨before, indent, after, htokens, hindent, hafter⟩ :=
      exists_indent_of_filters_ended hspelled hread
    rw [htokens] at hleads
    obtain ⟨dedent, hmem, hdedent⟩ := hleads.exists_dedent hindent
    exact absurd hdedent (hafter dedent hmem)
  | @refused _ before token after hrefused =>
    have htokens : (lexStream source).tokens = before ++ token :: after := hrefused.tokens
    rw [htokens] at hspelled hopen
    have hserves : ∀ more, filters (⟨before ++ [token] ++ more, ⟨1, 0⟩, none⟩ : Input) =
        .error (.parsing refusal) := by
      intro more
      rw [List.append_assoc, List.singleton_append]
      exact hrefused.serves more none
    exact ⟨before, token, after, htokens, hrefused.refuses,
      viable_of_lexing (List.cons_ne_nil _ _) hspelled hopen (hrefused.cut ⟨.noWord, ⟨1, 0⟩⟩),
      not_viable hserves⟩

/-- The error of a line is reported exactly when the tokens above it are viable; otherwise one of
them is refused. -/
theorem parse_of_lex_error {source : List Char} {error : LexError} (h : lex source = .error error) :
    Viable (lexStream source).tokens ∧ parse source = .error (.lexing error) ∨
      ¬Viable (lexStream source).tokens ∧ ∃ refusal, parse source = .error (.parsing refusal) := by
  have hspelled := spelled_lexStream source
  have hopen := indentsOpen_lexStream source
  have herror := lex_eq_error_iff.1 h
  cases hread : parse source with
  | ok values =>
    obtain ⟨after, hfilters⟩ := parse_eq_ok_iff.1 hread
    have hnone : (lexStream source).error = none := (exists_filterTrees hspelled hopen hfilters).1
    rw [herror] at hnone
    cases hnone
  | error problem =>
    have hfilters := parse_eq_error_iff.1 hread
    cases (leftToRight_filters _).error _ hfilters with
    | @lexing found hfound =>
      obtain rfl : error = found := Option.some.inj (herror.symm.trans hfound)
      refine .inl ⟨?_, rfl⟩
      rw [herror] at hfilters
      have hnewline : ∀ token ∈ [sample .newline "\n"], token.kind ≠ .indent := by simp [sample]
      exact viable_of_lexing (List.cons_ne_nil (sample .newline "\n") [])
        (hspelled.append (spelled_sampleLine.of_subset (by simp [sampleLine])))
        (hopen.append (indentsOpen_of_forall_ne hnewline)) hfilters
    | ended hnone => cases herror.symm.trans hnone
    | refused _ =>
      obtain ⟨before, token, after, htokens, -, -, hnot⟩ := exists_refuses_of_parse hread
      refine .inr ⟨fun hviable => hnot ?_, _, rfl⟩
      rw [htokens, ← List.singleton_append, ← List.append_assoc] at hviable
      exact hviable.left

/-- A file with a bad line reports the error of that line if the tokens of the lines above it are
viable, and otherwise refuses a token of an earlier line. A token is refused when the tokens up to
it are the first that are not viable, and the end of the tokens is never reported. -/
theorem parse_reports_first (source : List Char) :
    (∀ error, lex source = .error error → ∃ first rest tokens, source = first ++ rest ∧
      StartsLine first ∧ error.location.line = first.count '\n' + 1 ∧ lex first = .ok tokens ∧
      (Viable (tokens.filter (·.start.line < error.location.line)) ∧
        parse source = .error (.lexing error) ∨
        ¬Viable (tokens.filter (·.start.line < error.location.line)) ∧
          ∃ refusal, parse source = .error (.parsing refusal) ∧
            refusal.location.line < error.location.line)) ∧
    ∀ refusal, parse source = .error (.parsing refusal) →
      refusal.fault ≠ .endOfInput ∧
        ∃ before token after, (lexStream source).tokens = before ++ token :: after ∧
          refusal.location = token.start ∧ Refuses token refusal ∧ Viable before ∧
          ¬Viable (before ++ [token]) := by
  constructor
  · intro error hlex
    obtain ⟨first, rest, line, levels, hfault⟩ := exists_isFirstFault hlex
    obtain ⟨tokens, hfirst, habove⟩ := hfault.exists_lex
    obtain ⟨-, hline, -⟩ := lexLine_error (hfault.leads.levels Levels.zero) hfault.fault
    refine ⟨first, rest, tokens, hfault.split, hfault.starts, hline.trans hfault.number, hfirst, ?_⟩
    rw [hline, habove]
    refine (parse_of_lex_error hlex).imp_right fun ⟨hnot, refusal, hread⟩ =>
      ⟨hnot, refusal, hread, ?_⟩
    obtain ⟨before, token, after, htokens, hrefuses, -⟩ := exists_refuses_of_parse hread
    rw [hrefuses.location_eq]
    exact hfault.above token (by simp [htokens])
  · intro refusal hread
    obtain ⟨before, token, after, htokens, hrefuses, hviable, hnot⟩ := exists_refuses_of_parse hread
    exact ⟨hrefuses.fault_ne, before, token, after, htokens, hrefuses.location_eq, hrefuses,
      hviable, hnot⟩

/-- Three files: one whose last line is reported, since the lines above it can go on; one where a
name stands in the place of a line end, two lines above a margin that falls between levels; and one
where a comparison ends too early. -/
theorem parse_reports_first_threeFiles :
    let viable := "foo\n  a = 1\n  ! 2\n".toList
    let misplaced := "foo bar\n  a = 1\n !".toList
    let short := "foo\n  a =\n".toList
    (∃ first rest tokens, viable = first ++ rest ∧ lex first = .ok tokens ∧
      Viable (tokens.filter (·.start.line < 3)) ∧
      parse viable = .error (.lexing ⟨.noWord, ⟨3, 2⟩⟩)) ∧
    (lex misplaced = .error ⟨.unmatchedLevel, ⟨3, 1⟩⟩ ∧
      ∃ refusal, parse misplaced = .error (.parsing refusal) ∧ refusal.location.line < 3) ∧
    parse short = .error (.parsing ⟨.unexpected .newline "\n", ⟨2, 5⟩⟩) ∧
      ∃ before token, token.start = ⟨2, 5⟩ ∧ Viable before ∧ ¬Viable (before ++ [token]) := by
  intro viable misplaced short
  have hviable : parse viable = .error (.lexing ⟨.noWord, ⟨3, 2⟩⟩) := by decide +kernel
  have hmisplaced : parse misplaced = .error (.parsing ⟨.unexpected .name "bar", ⟨1, 4⟩⟩) := by
    decide +kernel
  have hshort : parse short = .error (.parsing ⟨.unexpected .newline "\n", ⟨2, 5⟩⟩) := by
    decide +kernel
  have hnoWord : lex viable = .error ⟨.noWord, ⟨3, 2⟩⟩ := lex_eq_error_iff.2 (by decide +kernel)
  have hunmatched : lex misplaced = .error ⟨.unmatchedLevel, ⟨3, 1⟩⟩ :=
    lex_eq_error_iff.2 (by decide +kernel)
  refine ⟨?_, ⟨hunmatched, ?_⟩, hshort, ?_⟩
  · obtain ⟨first, rest, tokens, hsplit, -, -, hfirst, ⟨hgoesOn, hread⟩ | ⟨-, refusal, hread, -⟩⟩ :=
      (parse_reports_first viable).1 _ hnoWord
    · exact ⟨first, rest, tokens, hsplit, hfirst, hgoesOn, hread⟩
    · rw [hviable] at hread
      cases hread
  · obtain ⟨-, -, -, -, -, -, -, ⟨-, hread⟩ | ⟨-, hrefusal⟩⟩ :=
      (parse_reports_first misplaced).1 _ hunmatched
    · rw [hmisplaced] at hread
      cases hread
    · exact hrefusal
  · obtain ⟨-, before, token, -, -, hstart, -, hbefore, hnot⟩ :=
      (parse_reports_first short).2 _ hshort
    exact ⟨before, token, hstart.symm, hbefore, hnot⟩

end PythonLint.Ignore
