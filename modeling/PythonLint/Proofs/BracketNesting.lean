import PythonLint.Proofs.TreeText

/-!
# Nested brackets

A source has a tree exactly if its brackets are properly nested and no statement ends inside a
bracket, and otherwise the first bracket or line end that breaks this rule is reported. In the tree,
brackets stand only at the two ends of groups.

Nesting is defined on the tokens alone, by a grammar. The builder keeps a stack of open groups
instead; `Unclosed` is what relates the two, for it says which brackets of some tokens have no
partner among them. What a step of the builder does to its groups is what the token does to the
unclosed brackets, so a run either follows the tokens to their end or stops at the first violation.
That a source cannot have both follows from `openAfter`, which reads the unclosed brackets off the
tokens.

Main statements: `Follows.push`, `Follows.exists_violation`, `FirstViolation.unique`,
`WellBuilt.push`, `buildTree_iff_nested`.
-/

namespace PythonLint

variable {fault : BracketFault} {kind : BranchKind} {children : List Node}
    {brackets tokens : List Token}
  {location : Location} {tree : Node} {token : Token}

/-! ### Nesting -/

namespace Token

def Opens (token : Token) : Prop :=
  token.kind = .op ∧ token.lexeme ∈ ["(", "[", "\x7b"]

def Closes (token : Token) : Prop :=
  token.kind = .op ∧ token.lexeme ∈ [")", "]", "\x7d"]

/-- The two tokens are brackets of the same type. -/
def Pairs (opening closing : Token) : Prop :=
  (opening.lexeme, closing.lexeme) ∈ [("(", ")"), ("[", "]"), ("\x7b", "\x7d")]

def EndsStatement (token : Token) : Prop :=
  token.kind = .newline ∨ token.kind = .endMarker

instance (token : Token) : Decidable token.Opens := inferInstanceAs (Decidable (_ ∧ _))

instance (token : Token) : Decidable token.Closes := inferInstanceAs (Decidable (_ ∧ _))

instance (opening closing : Token) : Decidable (opening.Pairs closing) :=
  inferInstanceAs (Decidable (_ ∈ _))

end Token

/-- The brackets among the tokens come in properly nested pairs of the same type. -/
inductive Balanced : List Token → Prop
  | nil : Balanced []
  | other {token : Token} {rest : List Token} (hopens : ¬token.Opens) (hcloses : ¬token.Closes)
      (hrest : Balanced rest) : Balanced (token :: rest)
  | group {opening closing : Token} {inner rest : List Token} (hopens : opening.Opens)
      (hcloses : closing.Closes) (hpairs : opening.Pairs closing) (hinner : Balanced inner)
      (hrest : Balanced rest) : Balanced (opening :: inner ++ closing :: rest)

/-- The brackets among the tokens are properly nested but for those that are still open, the
innermost first. -/
inductive Unclosed : List Token → (brackets : List Token) → Prop
  | nested {tokens : List Token} (h : Balanced tokens) : Unclosed tokens []
  | opened {tokens brackets inner : List Token} {opening : Token} (h : Unclosed tokens brackets)
      (hopens : opening.Opens) (hinner : Balanced inner) :
      Unclosed (tokens ++ opening :: inner) (opening :: brackets)

def ClosedAtEnds (tokens : List Token) : Prop :=
  ∀ before token after, tokens = before ++ token :: after → token.EndsStatement → Balanced before

/-- A token is out of place when the given brackets are open, and where this is reported. -/
inductive Violates : (brackets : List Token) → Token → BracketFault → Location → Prop
  | unmatched {token : Token} (h : token.Closes) :
      Violates [] token (.unmatched token.lexeme) token.start
  | mismatched {token opening : Token} {brackets : List Token} (h : token.Closes)
      (hpairs : ¬opening.Pairs token) :
      Violates (opening :: brackets) token (.mismatched token.lexeme opening.lexeme) token.start
  | unclosed {token opening : Token} {brackets : List Token} (h : token.EndsStatement) :
      Violates (opening :: brackets) token (.unclosed opening.lexeme) opening.start

/-- The first token that is out of place: nothing is wrong with those before it. -/
def FirstViolation (tokens : List Token) (fault : BracketFault) (location : Location) : Prop :=
  ∃ before token after brackets, tokens = before ++ token :: after ∧ Unclosed before brackets ∧
    ClosedAtEnds before ∧ Violates brackets token fault location

namespace Token

variable {opening token : Token}

theorem opens_iff : token.Opens ↔ token.kind = .op ∧ opensGroup token.lexeme = true := by
  rw [Opens, opensGroup, List.contains_iff_mem]

theorem closes_iff : token.Closes ↔ token.kind = .op ∧ closesGroup token.lexeme = true := by
  rw [Closes, closesGroup, List.contains_iff_mem]

theorem Pairs.lexeme_eq (h : opening.Pairs token) : token.lexeme = closingOf opening.lexeme := by
  simp only [Pairs, List.mem_cons, List.not_mem_nil, or_false, Prod.mk.injEq] at h
  obtain ⟨ho, ht⟩ | ⟨ho, ht⟩ | ⟨ho, ht⟩ := h
  all_goals rw [ho, ht]; decide

theorem Opens.pairs_of_lexeme_eq (hopens : opening.Opens)
    (h : token.lexeme = closingOf opening.lexeme) : opening.Pairs token := by
  have hmem := hopens.2
  simp only [List.mem_cons, List.not_mem_nil, or_false] at hmem
  rw [Pairs, h]
  obtain ho | ho | ho := hmem
  all_goals rw [ho]; decide

theorem Opens.not_closes (h : token.Opens) : ¬token.Closes := by
  rintro ⟨-, hcloses⟩
  have hopens := h.2
  simp only [List.mem_cons, List.not_mem_nil, or_false] at hopens hcloses
  obtain ho | ho | ho := hopens
  all_goals rw [ho] at hcloses; revert hcloses; decide

theorem EndsStatement.not_op (h : token.EndsStatement) : token.kind ≠ .op := by
  obtain h | h := h
  all_goals rw [h]; decide

theorem not_bracket_of_not_op (h : token.kind ≠ .op) : ¬token.Opens ∧ ¬token.Closes :=
  ⟨fun hopens => h hopens.1, fun hcloses => h hcloses.1⟩

end Token

theorem Balanced.append {a b : List Token} (ha : Balanced a) (hb : Balanced b) :
    Balanced (a ++ b) := by
  induction ha with
  | nil => exact hb
  | other hopens hcloses _ ih => exact .other hopens hcloses ih
  | group hopens hcloses hpairs hinner _ _ ih =>
    rw [List.append_assoc, List.cons_append]
    exact .group hopens hcloses hpairs hinner ih

theorem Balanced.singleton (hopens : ¬token.Opens) (hcloses : ¬token.Closes) : Balanced [token] :=
  .other hopens hcloses .nil

theorem Unclosed.append {more : List Token} (h : Unclosed tokens brackets) (hmore : Balanced more) :
    Unclosed (tokens ++ more) brackets := by
  cases h with
  | nested h => exact .nested (h.append hmore)
  | opened h hopens hinner =>
    rw [List.append_assoc, List.cons_append]
    exact .opened h hopens (hinner.append hmore)

theorem ClosedAtEnds.concat (h : ClosedAtEnds tokens)
    (htoken : token.EndsStatement → Balanced tokens) : ClosedAtEnds (tokens ++ [token]) := by
  intro before ending after hsplit hends
  obtain rfl | ⟨after, last, rfl⟩ := List.eq_nil_or_concat' after
  · obtain ⟨rfl, hlast⟩ := List.append_inj' hsplit rfl
    obtain rfl : token = ending := by simpa using hlast
    exact htoken hends
  · have hcut : tokens ++ [token] = (before ++ ending :: after) ++ [last] := by
      rw [hsplit, List.append_assoc, List.cons_append]
    exact h before ending after (List.append_inj' hcut rfl).1 hends

/-! ### A source has one first violation, and none if it is nested -/

/-- The brackets that are open after one more token, unless it closes what is not open. -/
def stepOpen (brackets : List Token) (token : Token) : Option (List Token) :=
  if token.Opens then some (token :: brackets)
  else if token.Closes then
    match brackets with
    | [] => none
    | opening :: outer => if opening.Pairs token then some outer else none
  else some brackets

def openAfter (brackets tokens : List Token) : Option (List Token) :=
  tokens.foldlM stepOpen brackets

section Step

variable {token opening : Token} (brackets : List Token)

theorem stepOpen_of_opens (h : token.Opens) :
    stepOpen brackets token = some (token :: brackets) := by
  unfold stepOpen
  rw [if_pos h]

theorem stepOpen_of_other (hopens : ¬token.Opens) (hcloses : ¬token.Closes) :
    stepOpen brackets token = some brackets := by
  unfold stepOpen
  rw [if_neg hopens, if_neg hcloses]

theorem stepOpen_of_closes (h : token.Closes) :
    stepOpen (opening :: brackets) token = if opening.Pairs token then some brackets else none := by
  unfold stepOpen
  rw [if_neg fun hopens => hopens.not_closes h, if_pos h]

theorem stepOpen_nil_of_closes (h : token.Closes) : stepOpen [] token = none := by
  unfold stepOpen
  rw [if_neg fun hopens => hopens.not_closes h, if_pos h]

theorem openAfter_cons (token : Token) (rest : List Token) :
    openAfter brackets (token :: rest) = (stepOpen brackets token).bind (openAfter · rest) := by
  rw [openAfter, List.foldlM_cons]
  rfl

theorem openAfter_append (a b : List Token) :
    openAfter brackets (a ++ b) = (openAfter brackets a).bind (openAfter · b) := by
  rw [openAfter, List.foldlM_append]
  rfl

end Step

theorem Balanced.openAfter_eq (h : Balanced tokens) (brackets : List Token) :
    openAfter brackets tokens = some brackets := by
  induction h generalizing brackets with
  | nil => rfl
  | other hopens hcloses _ ih =>
    rw [openAfter_cons, stepOpen_of_other _ hopens hcloses, Option.bind_some, ih]
  | group hopens hcloses hpairs _ _ ihinner ihrest =>
    rw [List.cons_append, openAfter_cons, stepOpen_of_opens _ hopens, Option.bind_some,
      openAfter_append, ihinner, Option.bind_some, openAfter_cons, stepOpen_of_closes _ hcloses,
      if_pos hpairs, Option.bind_some, ihrest]

theorem Unclosed.openAfter_eq (h : Unclosed tokens brackets) :
    openAfter [] tokens = some brackets := by
  induction h with
  | nested h => exact h.openAfter_eq []
  | opened _ hopens hinner ih =>
    rw [openAfter_append, ih, Option.bind_some, openAfter_cons, stepOpen_of_opens _ hopens,
      Option.bind_some, hinner.openAfter_eq]

theorem Unclosed.brackets_eq {a b : List Token} (ha : Unclosed tokens a) (hb : Unclosed tokens b) :
    a = b :=
  Option.some.inj (ha.openAfter_eq.symm.trans hb.openAfter_eq)

/-- Tokens with nothing wrong among them hold no token that is out of place. -/
theorem Violates.false_of_unclosed {before after final : List Token}
    (h : Violates brackets token fault location) (hbefore : Unclosed before brackets)
    (hall : Unclosed (before ++ token :: after) final)
    (hends : ClosedAtEnds (before ++ token :: after)) : False := by
  have hopen := hall.openAfter_eq
  rw [openAfter_append, hbefore.openAfter_eq, Option.bind_some, openAfter_cons] at hopen
  cases h with
  | unmatched hcloses =>
    rw [stepOpen_nil_of_closes hcloses] at hopen
    cases hopen
  | mismatched hcloses hpairs =>
    rw [stepOpen_of_closes _ hcloses, if_neg hpairs] at hopen
    cases hopen
  | unclosed hend =>
    have hnested := Unclosed.nested (hends before token after rfl hend)
    cases hnested.brackets_eq hbefore

theorem Violates.unique {fault' : BracketFault} {location' : Location}
    (h : Violates brackets token fault location) (h' : Violates brackets token fault' location') :
    fault = fault' ∧ location = location' := by
  cases h with
  | unmatched hcloses =>
    cases h'
    exact ⟨rfl, rfl⟩
  | mismatched hcloses hpairs =>
    cases h' with
    | mismatched => exact ⟨rfl, rfl⟩
    | unclosed hend => exact absurd hcloses.1 hend.not_op
  | unclosed hend =>
    cases h' with
    | mismatched hcloses => exact absurd hcloses.1 hend.not_op
    | unclosed => exact ⟨rfl, rfl⟩

/-- Nothing is wrong before the second of two tokens that are out of place, so it is the first
one. -/
theorem Violates.unique_of_later {before more after after' brackets' : List Token} {token' : Token}
    {fault' : BracketFault} {location' : Location} (h : Violates brackets token fault location)
    (hbefore : Unclosed before brackets) (h' : Violates brackets' token' fault' location')
    (hlater : Unclosed (before ++ more) brackets') (hends : ClosedAtEnds (before ++ more))
    (hmore : token :: after = more ++ token' :: after') :
    fault = fault' ∧ location = location' := by
  cases more with
  | nil =>
    obtain ⟨rfl, -⟩ := List.cons.inj hmore
    rw [List.append_nil] at hlater
    rw [hlater.brackets_eq hbefore] at h'
    exact h.unique h'
  | cons first more =>
    obtain ⟨rfl, -⟩ := List.cons.inj hmore
    exact (h.false_of_unclosed hbefore hlater hends).elim

namespace FirstViolation

variable {tokens : List Token} {fault fault' : BracketFault} {location location' : Location}

theorem not_nested (h : FirstViolation tokens fault location) :
    ¬(Balanced tokens ∧ ClosedAtEnds tokens) := by
  obtain ⟨before, token, after, brackets, rfl, hbefore, -, hviolates⟩ := h
  rintro ⟨hnested, hends⟩
  exact hviolates.false_of_unclosed hbefore (.nested hnested) hends

theorem unique (h : FirstViolation tokens fault location)
    (h' : FirstViolation tokens fault' location') : fault = fault' ∧ location = location' := by
  obtain ⟨before, token, after, brackets, htokens, hbefore, hends, hviolates⟩ := h
  obtain ⟨before', token', after', brackets', htokens', hbefore', hends', hviolates'⟩ := h'
  obtain ⟨more, rfl, hmore⟩ | ⟨more, rfl, hmore⟩ :=
    List.append_eq_append_iff.1 (htokens.symm.trans htokens')
  · exact hviolates.unique_of_later hbefore hviolates' hbefore' hends' hmore
  · obtain ⟨hfault, hlocation⟩ := hviolates'.unique_of_later hbefore' hviolates hbefore hends hmore
    exact ⟨hfault.symm, hlocation.symm⟩

end FirstViolation

/-! ### The builder follows the tokens -/

/-- The open groups of a builder are the brackets that are still open after the tokens that it has
read. -/
def Follows (builder : Builder) (tokens : List Token) : Prop :=
  Unclosed tokens (builder.enclosing.map Enclosing.opening) ∧ ClosedAtEnds tokens

namespace Follows

variable {dialect : Dialect} {builder next : Builder} {tokens : List Token} {before : String}
    {token : Token}

theorem empty : Follows .empty [] :=
  ⟨.nested .nil,
    fun _ _ _ h => absurd h.symm (List.append_ne_nil_of_right_ne_nil _ (List.cons_ne_nil _ _))⟩

theorem other (h : Follows builder tokens) (hopens : ¬token.Opens) (hcloses : ¬token.Closes)
    (hends : ¬token.EndsStatement) : Follows builder (tokens ++ [token]) :=
  ⟨h.1.append (.singleton hopens hcloses), h.2.concat fun hend => absurd hend hends⟩

/-- A token that ends a statement is read only when no group is open. -/
theorem lineEnd (h : Follows builder tokens) (henclosing : builder.enclosing = [])
    (hends : token.EndsStatement) :
    Balanced (tokens ++ [token]) ∧ ClosedAtEnds (tokens ++ [token]) := by
  have hunclosed := h.1
  rw [henclosing] at hunclosed
  cases hunclosed with
  | nested hnested =>
    have hother := Token.not_bracket_of_not_op hends.not_op
    exact ⟨hnested.append (.singleton hother.1 hother.2), h.2.concat fun _ => hnested⟩

theorem push (h : Follows builder tokens)
    (hpush : builder.push dialect (before, token) = .ok next) :
    Follows next (tokens ++ [token]) := by
  obtain ⟨hkind, hopens, rfl⟩ | ⟨hkind, hcloses, group, outer, henclosing, hlexeme, rfl⟩ |
    ⟨hkind, henclosing, rfl⟩ | ⟨hkind, henclosing, rfl⟩ | ⟨hopens, hcloses, hline, hend, rfl⟩ :=
    Builder.push_cases hpush
  · have hopens : token.Opens := Token.opens_iff.2 ⟨hkind, hopens⟩
    refine ⟨.opened h.1 hopens .nil, h.2.concat fun hends => absurd hkind hends.not_op⟩
  · have hcloses : token.Closes := Token.closes_iff.2 ⟨hkind, hcloses⟩
    refine ⟨?_, h.2.concat fun hends => absurd hkind hends.not_op⟩
    have hunclosed := h.1
    rw [henclosing, List.map_cons] at hunclosed
    -- The group that is closed becomes part of what stands in the group around it.
    cases hunclosed with
    | opened houter hopens hinner =>
      rw [List.append_assoc, List.cons_append]
      exact houter.append (.group hopens hcloses (hopens.pairs_of_lexeme_eq hlexeme) hinner .nil)
  · obtain ⟨hnested, hends⟩ := h.lineEnd henclosing (.inl hkind)
    refine ⟨?_, hends⟩
    rw [Builder.enclosing_endStatement, henclosing]
    exact .nested hnested
  · obtain ⟨hnested, hends⟩ := h.lineEnd henclosing (.inr hkind)
    refine ⟨?_, hends⟩
    show Unclosed _ ((builder.endStatement builder.nodes).enclosing.map _)
    rw [Builder.enclosing_endStatement, henclosing]
    exact .nested hnested
  · exact h.other (mt Token.opens_iff.1 hopens) (mt Token.closes_iff.1 hcloses)
      (not_or.2 ⟨hline, hend⟩)

theorem exists_violation {error : AnalysisError} (h : Follows builder tokens)
    (hpush : builder.push dialect (before, token) = .error error) (after : List Token) :
    ∃ fault location, FirstViolation (tokens ++ token :: after) fault location ∧
      error = bracketError fault location := by
  have hunclosed := h.1
  obtain ⟨hkind, hcloses, ⟨henclosing, rfl⟩ | ⟨group, outer, henclosing, hlexeme, rfl⟩⟩ |
    ⟨hends, group, outer, henclosing, rfl⟩ := Builder.push_error_cases hpush
  · rw [henclosing] at hunclosed
    exact ⟨_, _, ⟨tokens, token, after, [], rfl, hunclosed, h.2,
      .unmatched (Token.closes_iff.2 ⟨hkind, hcloses⟩)⟩, rfl⟩
  · rw [henclosing] at hunclosed
    exact ⟨_, _, ⟨tokens, token, after, _, rfl, hunclosed, h.2,
      .mismatched (Token.closes_iff.2 ⟨hkind, hcloses⟩) fun hpairs => hlexeme hpairs.lexeme_eq⟩,
      rfl⟩
  · rw [henclosing] at hunclosed
    exact ⟨_, _, ⟨tokens, token, after, _, rfl, hunclosed, h.2, .unclosed hends⟩, rfl⟩

/-- A run of the builder follows the tokens to their end, or stops at the first one that is out of
place. The marks of blocks, which the builder does not see, are no brackets and end no statement. -/
theorem foldlM {seen : List Token} (h : Follows builder seen) (text : List Char) (last : Location) :
    (∀ final, (attachText text last (tokens.filter fun token => !token.kind.isBlockMark)).foldlM
      (Builder.push dialect) builder = .ok final → Follows final (seen ++ tokens)) ∧
    ∀ error, (attachText text last (tokens.filter fun token => !token.kind.isBlockMark)).foldlM
      (Builder.push dialect) builder = .error error →
        ∃ fault location, FirstViolation (seen ++ tokens) fault location ∧
          error = bracketError fault location := by
  induction tokens generalizing seen builder last with
  | nil =>
    refine ⟨?_, ?_⟩
    · rintro final ⟨⟩
      rwa [List.append_nil]
    · rintro error ⟨⟩
  | cons token tokens ih =>
    have happend : seen ++ token :: tokens = seen ++ [token] ++ tokens := by simp
    by_cases hmark : token.kind.isBlockMark = true
    · rw [List.filter_cons_of_neg (by simpa using hmark), happend]
      have hkind : token.kind = .indent ∨ token.kind = .dedent := by
        simpa [TokenKind.isBlockMark] using hmark
      have hop : token.kind ≠ .op := by
        obtain h | h := hkind
        all_goals rw [h]; decide
      have hends : ¬token.EndsStatement := by
        rintro (hend | hend)
        all_goals rw [hend] at hkind; revert hkind; decide
      obtain ⟨hopens, hcloses⟩ := Token.not_bracket_of_not_op hop
      exact ih (h.other hopens hcloses hends) last
    · rw [List.filter_cons_of_pos (by simpa using hmark), attachText, List.foldlM_cons]
      cases hpush : builder.push dialect
        (String.ofList (textBetween text last token.start), token) with
      | ok next =>
        rw [happend]
        exact ih (h.push hpush) token.stop
      | error error =>
        refine ⟨?_, ?_⟩
        · rintro final ⟨⟩
        · rintro _ ⟨⟩
          exact h.exists_violation hpush tokens

end Follows

/-! ### Where brackets stand in a tree -/

namespace Node

def IsBracket : Node → Prop
  | leaf _ token => token.Opens ∨ token.Closes
  | branch _ _ _ _ _ => False

/-- The first and the last child of a group are brackets of the same type. No other child of any
node is a bracket. -/
def BracketsAtEnds (kind : BranchKind) (children : List Node) : Prop :=
  if kind.isGroup then
    ∃ beforeOpening opening contents beforeClosing closing,
      children = leaf beforeOpening opening :: contents ++ [leaf beforeClosing closing] ∧
      opening.Opens ∧ closing.Closes ∧ opening.Pairs closing ∧ ∀ child ∈ contents, ¬child.IsBracket
  else ∀ child ∈ children, ¬child.IsBracket

/-- A node with children starts with the first one, text before it included, and ends with the last
one. Its brackets stand where they should. -/
def WellBracketed : Node → Prop
  | leaf _ _ => True
  | branch kind before start stop children =>
    (∃ first last, children.head? = some first ∧ children.getLast? = some last ∧
      before = first.before ∧ start = first.start ∧ stop = last.stop) ∧
    BracketsAtEnds kind children

/-- The node may be a child anywhere, and all nodes in it are well bracketed. -/
def IsPart (node : Node) : Prop :=
  (∀ inner ∈ node.postOrder, inner.WellBracketed) ∧ ¬node.IsBracket

theorem mem_postOrderOfList {inner : Node} {nodes : List Node} :
    inner ∈ postOrderOfList nodes ↔ ∃ node ∈ nodes, inner ∈ node.postOrder := by
  induction nodes with
  | nil => simp [postOrderOfList]
  | cons node nodes ih => simp [postOrderOfList, ih]

theorem ofChildren_eq (h : children ≠ []) (kind : BranchKind) :
    ∃ first last, children.head? = some first ∧ children.getLast? = some last ∧
      ofChildren kind children = branch kind first.before first.start last.stop children := by
  obtain ⟨first, rest, rfl⟩ := List.exists_cons_of_ne_nil h
  obtain ⟨last, hlast⟩ : ∃ last, (first :: rest).getLast? = some last :=
    Option.isSome_iff_exists.1 (by simp)
  refine ⟨first, last, rfl, hlast, ?_⟩
  rw [ofChildren, hlast]
  rfl

/-- A node is a part of the tree when its children are and its brackets stand where they should. -/
theorem isPart_ofChildren (h : children ≠ [])
    (hinner : ∀ child ∈ children, ∀ inner ∈ child.postOrder, inner.WellBracketed)
    (hbrackets : BracketsAtEnds kind children) : (ofChildren kind children).IsPart := by
  obtain ⟨first, last, hfirst, hlast, hnode⟩ := ofChildren_eq h kind
  rw [hnode]
  refine ⟨fun inner hmem => ?_, not_false⟩
  rw [postOrder, List.mem_append, mem_postOrderOfList, List.mem_singleton] at hmem
  obtain ⟨child, hchild, hmem⟩ | rfl := hmem
  · exact hinner child hchild inner hmem
  · exact ⟨⟨first, last, hfirst, hlast, rfl, rfl, rfl⟩, hbrackets⟩

theorem isPart_statement (h : children ≠ []) (hparts : ∀ child ∈ children, child.IsPart)
    (hkind : kind.isGroup = false) : (ofChildren kind children).IsPart := by
  refine isPart_ofChildren h (fun child hchild => (hparts child hchild).1) ?_
  rw [BracketsAtEnds, hkind, if_neg Bool.false_ne_true]
  exact fun child hchild => (hparts child hchild).2

theorem wellBracketed_of_mem_leaf {before : String} {inner : Node}
    (h : inner ∈ (leaf before token).postOrder) : inner.WellBracketed := by
  obtain rfl : inner = leaf before token := by simpa [postOrder] using h
  exact trivial

theorem isPart_leaf (before : String) (hopens : ¬token.Opens) (hcloses : ¬token.Closes) :
    (leaf before token).IsPart :=
  ⟨fun _ => wellBracketed_of_mem_leaf, not_or.2 ⟨hopens, hcloses⟩⟩

end Node

theorem isGroup_classify (dialect : Dialect) (outermost : Bool) (opening : String)
    (siblings contents : List Node) :
    (classify dialect outermost opening siblings contents).isGroup = true := by
  unfold classify classifySquare classifyRound classifyBraces
  simp only
  repeat' split
  all_goals rfl

/-- All nodes of a builder are parts of the tree, and its groups were opened by brackets. -/
structure WellBuilt (builder : Builder) : Prop where
  statements : ∀ node ∈ builder.statements, node.IsPart
  nodes : ∀ node ∈ builder.nodes, node.IsPart
  enclosing : ∀ group ∈ builder.enclosing,
    group.opening.Opens ∧ ∀ node ∈ group.siblings, node.IsPart

namespace WellBuilt

variable {dialect : Dialect} {builder next : Builder} {before : String} {token : Token}

theorem empty : WellBuilt .empty :=
  ⟨fun _ h => absurd h List.not_mem_nil, fun _ h => absurd h List.not_mem_nil,
    fun _ h => absurd h List.not_mem_nil⟩

theorem endStatement (h : WellBuilt builder) {nodes : List Node}
    (hnodes : ∀ node ∈ nodes, node.IsPart) : WellBuilt (builder.endStatement nodes) := by
  unfold Builder.endStatement
  split
  · exact h
  · next hempty =>
    refine ⟨?_, fun _ hmem => absurd hmem List.not_mem_nil, h.enclosing⟩
    intro node hmem
    obtain rfl | hmem := List.mem_cons.1 hmem
    · refine Node.isPart_statement ?_ (fun child hchild =>
        hnodes child (List.mem_reverse.1 hchild)) rfl
      simpa using hempty
    · exact h.statements node hmem

theorem isPart_group (h : WellBuilt builder) {group : Enclosing}
    (hgroup : group ∈ builder.enclosing) (hcloses : token.Closes)
    (hpairs : group.opening.Pairs token) (hkind : kind.isGroup = true) :
    (Node.ofChildren kind
      (.leaf group.before group.opening :: builder.nodes.reverse ++
        [.leaf before token])).IsPart := by
  have hcontents : ∀ child ∈ builder.nodes.reverse, child.IsPart :=
    fun child hchild => h.nodes child (List.mem_reverse.1 hchild)
  refine Node.isPart_ofChildren (by simp) ?_ ?_
  · intro child hchild inner hinner
    simp only [List.cons_append, List.mem_cons, List.mem_append, List.not_mem_nil,
      or_false] at hchild
    obtain rfl | hchild | rfl := hchild
    · exact Node.wellBracketed_of_mem_leaf hinner
    · exact (hcontents child hchild).1 inner hinner
    · exact Node.wellBracketed_of_mem_leaf hinner
  · rw [Node.BracketsAtEnds, hkind, if_pos rfl]
    exact ⟨_, _, _, _, _, rfl, (h.enclosing group hgroup).1, hcloses, hpairs,
      fun child hchild => (hcontents child hchild).2⟩

theorem push (h : WellBuilt builder) (hpush : builder.push dialect (before, token) = .ok next) :
    WellBuilt next := by
  obtain ⟨hkind, hopens, rfl⟩ | ⟨hkind, hcloses, group, outer, henclosing, hlexeme, rfl⟩ |
    ⟨hkind, -, rfl⟩ | ⟨hkind, -, rfl⟩ | ⟨hopens, hcloses, -, -, rfl⟩ := Builder.push_cases hpush
  · refine ⟨h.statements, fun _ hmem => absurd hmem List.not_mem_nil, fun group hmem => ?_⟩
    obtain rfl | hmem := List.mem_cons.1 hmem
    · exact ⟨Token.opens_iff.2 ⟨hkind, hopens⟩, h.nodes⟩
    · exact h.enclosing group hmem
  · have hgroup : group ∈ builder.enclosing := by
      rw [henclosing]
      exact List.mem_cons_self
    obtain ⟨hopens, hsiblings⟩ := h.enclosing group hgroup
    refine ⟨h.statements, fun node hmem => ?_, fun other hmem => ?_⟩
    · obtain rfl | hmem := List.mem_cons.1 hmem
      · exact h.isPart_group hgroup (Token.closes_iff.2 ⟨hkind, hcloses⟩)
          (hopens.pairs_of_lexeme_eq hlexeme)
          (isGroup_classify _ _ _ _ _)
      · exact hsiblings node hmem
    · refine h.enclosing other ?_
      rw [henclosing]
      exact List.mem_cons_of_mem _ hmem
  · have hother := Token.not_bracket_of_not_op (by rw [hkind]; decide : token.kind ≠ .op)
    exact h.endStatement
      (List.forall_mem_cons.2 ⟨Node.isPart_leaf before hother.1 hother.2, h.nodes⟩)
  · have hother := Token.not_bracket_of_not_op (by rw [hkind]; decide : token.kind ≠ .op)
    have hended := h.endStatement h.nodes
    exact ⟨List.forall_mem_cons.2 ⟨Node.isPart_leaf before hother.1 hother.2, hended.statements⟩,
      hended.nodes, hended.enclosing⟩
  · have hleaf :=
      Node.isPart_leaf before (mt Token.opens_iff.1 hopens) (mt Token.closes_iff.1 hcloses)
    exact ⟨h.statements, List.forall_mem_cons.2 ⟨hleaf, h.nodes⟩, h.enclosing⟩

theorem foldlM {items : List (String × Token)} {final : Builder} (h : WellBuilt builder)
    (hrun : items.foldlM (Builder.push dialect) builder = .ok final) : WellBuilt final :=
  Builder.invariant_of_foldlM (fun _ _ _ _ hbuilt hpush => hbuilt.push hpush) h hrun

end WellBuilt

/-! ### Sources -/

theorem exists_endMarker {text : List Char} (h : (tokenize text).error = none) :
    ∃ init token, (tokenize text).tokens = init ++ [token] ∧ token.kind = .endMarker := by
  obtain ⟨init, ends, htokens, -, hends⟩ := List.map_eq_append_iff.1 (toPiece_tokenize h)
  obtain ⟨token, rfl, htoken⟩ := List.map_eq_singleton_iff.1 hends
  exact ⟨init, token, htokens, by rw [htoken, endPiece]⟩

section Source

variable {dialect : Dialect} {text : List Char}

theorem buildTree_of_complete (h : (tokenize text).error = none) :
    buildTree dialect text = treeOfTokens dialect
      (attachText text ⟨1, 0⟩ ((tokenize text).tokens.filter fun token =>
        !token.kind.isBlockMark)) := by
  rw [buildTree, treeOfStream, h]
  exact bind_pure _

/-- The tree of a source is all that the builder leaves, and it cannot be empty. -/
theorem exists_of_buildTree (h : (tokenize text).error = none)
    (htree : buildTree dialect text = .ok tree) :
    ∃ final,
      (attachText text ⟨1, 0⟩ ((tokenize text).tokens.filter fun token =>
        !token.kind.isBlockMark)).foldlM
        (Builder.push dialect) .empty = .ok final ∧
      tree = .ofChildren .source final.statements.reverse ∧ final.statements ≠ [] := by
  rw [buildTree_of_complete h] at htree
  obtain ⟨init, token, htokens, hkind⟩ := exists_endMarker h
  have hitems :=
    snd_attachText text ⟨1, 0⟩ ((tokenize text).tokens.filter fun token => !token.kind.isBlockMark)
  generalize attachText text ⟨1, 0⟩ ((tokenize text).tokens.filter fun token =>
    !token.kind.isBlockMark) = items
    at htree hitems
  have hlast : ([token].filter fun token => !token.kind.isBlockMark) = [token] := by
    rw [List.filter_singleton, hkind]
    rfl
  rw [htokens, List.filter_append, hlast] at hitems
  obtain ⟨others, ends, rfl, -, hends⟩ := List.map_eq_append_iff.1 hitems
  obtain ⟨⟨before, token⟩, rfl, rfl⟩ := List.map_eq_singleton_iff.1 hends
  have hleaves := leaves_of_treeOfTokens hkind htree
  rw [treeOfTokens] at htree
  obtain ⟨final, hrun, hsource⟩ := exists_of_bind_eq_ok htree
  cases hsource
  refine ⟨final, hrun, rfl, fun hnil => ?_⟩
  rw [Node.leaves_ofChildren, hnil] at hleaves
  exact List.append_ne_nil_of_right_ne_nil others (List.cons_ne_nil _ _) hleaves.symm

theorem nested_of_buildTree (h : (tokenize text).error = none)
    (htree : buildTree dialect text = .ok tree) :
    Balanced (tokenize text).tokens ∧ ClosedAtEnds (tokenize text).tokens := by
  obtain ⟨final, hrun, -, -⟩ := exists_of_buildTree h htree
  have hfollows := (Follows.empty.foldlM text ⟨1, 0⟩).1 final hrun
  rw [List.nil_append] at hfollows
  refine ⟨?_, hfollows.2⟩
  -- The last token ends a statement, so that nothing is open before it.
  obtain ⟨init, token, htokens, hkind⟩ := exists_endMarker h
  have hinit := hfollows.2 init token [] htokens (.inr hkind)
  have hother := Token.not_bracket_of_not_op (by rw [hkind]; decide : token.kind ≠ .op)
  rw [htokens]
  exact hinit.append (.singleton hother.1 hother.2)

theorem firstViolation_of_buildTree {error : AnalysisError} (h : (tokenize text).error = none)
    (htree : buildTree dialect text = .error error) :
    ∃ fault location, FirstViolation (tokenize text).tokens fault location ∧
      error = bracketError fault location := by
  rw [buildTree_of_complete h, treeOfTokens] at htree
  rcases bind_error_cases htree with hrun | ⟨final, -, hsource⟩
  · exact (Follows.empty.foldlM text ⟨1, 0⟩).2 error hrun
  · cases hsource

theorem wellBracketed_of_buildTree (h : (tokenize text).error = none)
    (htree : buildTree dialect text = .ok tree) : ∀ node ∈ tree.postOrder, node.WellBracketed := by
  obtain ⟨final, hrun, rfl, hne⟩ := exists_of_buildTree h htree
  have hbuilt := WellBuilt.empty.foldlM hrun
  refine (Node.isPart_statement ?_ (fun child hchild => ?_) rfl).1
  · simpa using hne
  · exact hbuilt.statements child (List.mem_reverse.1 hchild)

/-- A source whose tokens are complete has a tree exactly if its brackets are properly nested and
none is open where a statement ends. Otherwise the first token that is out of place is reported. In
the tree, the two brackets of a group are its first and its last child, no other child is a bracket,
and every node extends from its first child to its last. -/
theorem buildTree_iff_nested (h : (tokenize text).error = none) :
    ((∃ tree, buildTree dialect text = .ok tree) ↔
      Balanced (tokenize text).tokens ∧ ClosedAtEnds (tokenize text).tokens) ∧
    (∀ error, buildTree dialect text = .error error ↔
      ∃ fault location, FirstViolation (tokenize text).tokens fault location ∧
        error = bracketError fault location) ∧
    ∀ tree, buildTree dialect text = .ok tree → ∀ node ∈ tree.postOrder, node.WellBracketed := by
  refine ⟨⟨?_, ?_⟩, fun error => ⟨firstViolation_of_buildTree h, ?_⟩,
    fun tree => wellBracketed_of_buildTree h⟩
  · rintro ⟨tree, htree⟩
    exact nested_of_buildTree h htree
  · intro hnested
    cases htree : buildTree dialect text with
    | ok tree => exact ⟨tree, rfl⟩
    | error error =>
      obtain ⟨fault, location, hviolation, -⟩ := firstViolation_of_buildTree h htree
      exact absurd hnested hviolation.not_nested
  · rintro ⟨fault, location, hviolation, rfl⟩
    cases htree : buildTree dialect text with
    | ok tree => exact absurd (nested_of_buildTree h htree) hviolation.not_nested
    | error error =>
      obtain ⟨fault', location', hviolation', rfl⟩ := firstViolation_of_buildTree h htree
      obtain ⟨rfl, rfl⟩ := hviolation'.unique hviolation
      rfl

end Source

/-- Groups in groups over two lines, and two groups that overlap. -/
theorem buildTree_iff_nested_overlap :
    (tokenize "f([1],\n (2))\n".toList).error = none ∧
      (Balanced (tokenize "f([1],\n (2))\n".toList).tokens ∧
        ClosedAtEnds (tokenize "f([1],\n (2))\n".toList).tokens) ∧
      (tokenize "[1, (2])\n".toList).error = none ∧
      FirstViolation (tokenize "[1, (2])\n".toList).tokens (.mismatched "]" "(") ⟨1, 6⟩ := by
  have hnested : (tokenize "f([1],\n (2))\n".toList).error = none := by decide +kernel
  have hoverlap : (tokenize "[1, (2])\n".toList).error = none := by decide +kernel
  have htree : (buildTree ⟨false, false⟩ "f([1],\n (2))\n".toList).toOption.isSome = true := by
    decide +kernel
  have herror : (match buildTree ⟨false, false⟩ "[1, (2])\n".toList with
      | .ok _ => none
      | .error error => some error) = some (bracketError (.mismatched "]" "(") ⟨1, 6⟩) := by
    decide +kernel
  refine ⟨hnested, (@buildTree_iff_nested ⟨false, false⟩ _ hnested).1.1 ?_, hoverlap, ?_⟩
  · cases hbuild : buildTree ⟨false, false⟩ "f([1],\n (2))\n".toList with
    | ok tree => exact ⟨tree, rfl⟩
    | error error =>
      rw [hbuild] at htree
      cases htree
  · cases hbuild : buildTree ⟨false, false⟩ "[1, (2])\n".toList with
    | ok tree =>
      rw [hbuild] at herror
      cases herror
    | error error =>
      rw [hbuild] at herror
      obtain rfl : error = _ := Option.some.inj herror
      obtain ⟨fault, location, hviolation, heq⟩ :=
        ((@buildTree_iff_nested ⟨false, false⟩ _ hoverlap).2.1 _).1 hbuild
      cases heq
      exact hviolation

end PythonLint
