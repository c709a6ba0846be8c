import PythonLint.Proofs.BracketNesting
import PythonLint.Proofs.VersionIndependence

/-!
# The shape of a tree

How the tokens of a source are grouped, and what the groups are taken for, depends on the kinds and
texts of the tokens only. Blanks, comments, joined lines and positions have no say in it, and the
dialect has none unless a word that may be a statement stands among the tokens.

Two runs of the builder over tokens that agree in kind and text are compared step by step. What they
have built is alike: it has the same shape, group by group and sibling by sibling. The kind of a
group is found from shapes, so alike builders take alike steps.

Main statements: `classify_of_shape`, `Builder.Alike.push`, `buildTree_shape_of_tokens`.
-/

namespace PythonLint

/-- A tree without positions and without the texts between its tokens. -/
inductive Shape where
  | leaf (kind : TokenKind) (lexeme : String)
  | branch (kind : BranchKind) (children : List Shape)

namespace Node

mutual

def shape : Node → Shape
  | leaf _ token => .leaf token.kind token.lexeme
  | branch kind _ _ _ children => .branch kind (shapes children)

def shapes : List Node → List Shape
  | [] => []
  | node :: rest => node.shape :: shapes rest

end

theorem shapes_eq_map (nodes : List Node) : shapes nodes = nodes.map shape := by
  induction nodes with
  | nil => rfl
  | cons node rest ih => rw [shapes, ih, List.map_cons]

theorem shape_ofChildren (kind : BranchKind) (children : List Node) :
    (ofChildren kind children).shape = .branch kind (children.map shape) := by
  rw [← shapes_eq_map]
  unfold ofChildren
  split <;> rfl

/-! ### What is read off a shape -/

/-- Nodes of the same shape are tokens of the same kind and text, or nodes of the same kind with
children. -/
theorem cases_of_shape_eq {first second : Node} (h : first.shape = second.shape) :
    (∃ before token before' token', first = leaf before token ∧ second = leaf before' token' ∧
      token.kind = token'.kind ∧ token.lexeme = token'.lexeme) ∨
    ∃ kind before start stop children before' start' stop' children',
      first = branch kind before start stop children ∧
      second = branch kind before' start' stop' children' := by
  cases first with
  | leaf before token =>
    cases second with
    | leaf before' token' =>
      refine .inl ⟨before, token, before', token', rfl, rfl, ?_⟩
      simpa [shape] using h
    | branch => simp [shape] at h
  | branch kind before start stop children =>
    cases second with
    | leaf => simp [shape] at h
    | branch kind' before' start' stop' children' =>
      obtain ⟨rfl, -⟩ : kind = kind' ∧ shapes children = shapes children' := by
        simpa [shape] using h
      exact .inr ⟨kind, before, start, stop, children, before', start', stop', children', rfl, rfl⟩

theorem isOp_factorsThrough (text : String) : (isOp text).FactorsThrough shape := by
  intro first second h
  obtain ⟨before, token, before', token', rfl, rfl, hkind, hlexeme⟩ |
    ⟨kind, before, start, stop, children, before', start', stop', children', rfl, rfl⟩ :=
      cases_of_shape_eq h
  · rw [isOp, isOp, Token.isOp, Token.isOp, hkind, hlexeme]
  · rfl

theorem isKeyword_factorsThrough (text : String) : (isKeyword text).FactorsThrough shape := by
  intro first second h
  obtain ⟨before, token, before', token', rfl, rfl, hkind, hlexeme⟩ |
    ⟨kind, before, start, stop, children, before', start', stop', children', rfl, rfl⟩ :=
      cases_of_shape_eq h
  · rw [isKeyword, isKeyword, hkind, hlexeme]
  · rfl

theorem closesExpression_factorsThrough (dialect : Dialect) (atStart : Bool) :
    (closesExpression dialect atStart).FactorsThrough shape := by
  intro first second h
  obtain ⟨before, token, before', token', rfl, rfl, hkind, hlexeme⟩ |
    ⟨kind, before, start, stop, children, before', start', stop', children', rfl, rfl⟩ :=
      cases_of_shape_eq h
  · rw [closesExpression, closesExpression, Token.closesExpression, Token.closesExpression,
      hkind, hlexeme]
  · rfl

end Node

section Classify

variable {nodes others siblings siblings' contents contents' : List Node}

theorem any_eq_of_shape {p : Node → Bool} (hp : p.FactorsThrough Node.shape)
    (h : nodes.map Node.shape = others.map Node.shape) : nodes.any p = others.any p := by
  obtain ⟨onShape, rfl⟩ := (Function.factorsThrough_iff p).1 hp
  rw [← List.any_map, h, List.any_map]

theorem head?_any_eq_of_shape {p : Node → Bool} (hp : p.FactorsThrough Node.shape)
    (h : nodes.map Node.shape = others.map Node.shape) :
    nodes.head?.any p = others.head?.any p := by
  cases nodes with
  | nil =>
    obtain rfl : others = [] := by simpa using h.symm
    rfl
  | cons node nodes =>
    obtain ⟨other, others, rfl, hnode, -⟩ := List.map_eq_cons_iff.1 h.symm
    exact hp hnode.symm

theorem shape_separatorsFrom (lambdas : Nat) (paired : Bool)
    (h : nodes.map Node.shape = others.map Node.shape) :
    (separatorsFrom lambdas paired nodes).map Node.shape =
      (separatorsFrom lambdas paired others).map Node.shape := by
  induction nodes generalizing others lambdas paired with
  | nil =>
    obtain rfl : others = [] := by simpa using h.symm
    rfl
  | cons node nodes ih =>
    obtain ⟨other, others, rfl, hnode, hrest⟩ := List.map_eq_cons_iff.1 h.symm
    rw [separatorsFrom, separatorsFrom, Node.isKeyword_factorsThrough _ hnode,
      Node.isOp_factorsThrough "," hnode, Node.isOp_factorsThrough ":" hnode]
    split
    · exact ih _ _ hrest.symm
    split
    · exact ih _ _ hrest.symm
    split
    · split
      · exact ih _ _ hrest.symm
      split
      · exact ih _ _ hrest.symm
      · rw [List.map_cons, List.map_cons, ih _ _ hrest.symm, hnode]
    · exact ih _ _ hrest.symm

/-- The kind of a group depends on the shapes of its contents and of the nodes before it. -/
theorem classify_of_shape (hsiblings : siblings.map Node.shape = siblings'.map Node.shape)
    (hcontents : contents.map Node.shape = contents'.map Node.shape) (dialect : Dialect)
    (outermost : Bool) (opening : String) :
    classify dialect outermost opening siblings contents =
      classify dialect outermost opening siblings' contents' := by
  have hlength : siblings.length = siblings'.length := by simpa using congrArg List.length hsiblings
  have htrailer (atStart : Bool) : siblings.head?.any (Node.closesExpression dialect atStart) =
      siblings'.head?.any (Node.closesExpression dialect atStart) :=
    head?_any_eq_of_shape (Node.closesExpression_factorsThrough dialect atStart) hsiblings
  have hdefines : (siblings.tail.head?.any fun node =>
    node.isKeyword "def" || node.isKeyword "class") =
      siblings'.tail.head?.any fun node => node.isKeyword "def" || node.isKeyword "class" := by
    refine head?_any_eq_of_shape (fun first second h => ?_) ?_
    · rw [Node.isKeyword_factorsThrough "def" h, Node.isKeyword_factorsThrough "class" h]
    · rw [List.map_tail, List.map_tail, hsiblings]
  have hany (text : String) : (contents.any fun node => node.isOp text) = contents'.any fun node =>
      node.isOp text :=
    any_eq_of_shape (Node.isOp_factorsThrough text) hcontents
  have hunpacks : (contents.head?.any fun node => node.isOp "**") = contents'.head?.any fun node =>
      node.isOp "**" :=
    head?_any_eq_of_shape (Node.isOp_factorsThrough "**") hcontents
  have hempty : contents.isEmpty = contents'.isEmpty := by
    rw [← List.isEmpty_map, hcontents, List.isEmpty_map]
  have hseparators : (keySeparators contents).isEmpty = (keySeparators contents').isEmpty := by
    rw [keySeparators, keySeparators, ← List.isEmpty_map, shape_separatorsFrom 0 false hcontents,
      List.isEmpty_map]
  simp only [classify, classifySquare, classifyRound, classifyBraces, hlength, htrailer, hdefines,
    hany, hunpacks, hempty, hseparators]

end Classify

/-! ### Two runs of the builder -/

def Token.wording (token : Token) : TokenKind × String :=
  (token.kind, token.lexeme)

/-- What a group that is still open will be like: the bracket that opens it and the shapes of the
nodes before it. -/
def Enclosing.outline (group : Enclosing) : (TokenKind × String) × List Shape :=
  (group.opening.wording, group.siblings.map Node.shape)

/-- Two builders have built the same shapes. -/
structure Builder.Alike (first second : Builder) : Prop where
  statements : first.statements.map Node.shape = second.statements.map Node.shape
  nodes : first.nodes.map Node.shape = second.nodes.map Node.shape
  enclosing : first.enclosing.map Enclosing.outline = second.enclosing.map Enclosing.outline

/-- Two results are related, or both are faults that differ in nothing but their places. -/
inductive Agree {α : Type} (related : α → α → Prop) :
    Except AnalysisError α → Except AnalysisError α → Prop
  | ok {first second : α} (h : related first second) : Agree related (.ok first) (.ok second)
  | fault (fault : BracketFault) (location location' : Location) :
      Agree related (.error (bracketError fault location)) (.error (bracketError fault location'))

/-- Computations that agree go on to agree when all that may follow them does. -/
theorem Agree.bind {α β : Type} {related : α → α → Prop} {followed : β → β → Prop}
    {first second : Except AnalysisError α} {next next' : α → Except AnalysisError β}
    (h : Agree related first second)
    (hnext : ∀ a b, related a b → Agree followed (next a) (next' b)) :
    Agree followed (first >>= next) (second >>= next') := by
  cases h with
  | ok h => exact hnext _ _ h
  | fault fault location location' => exact .fault fault location location'

theorem Token.wording_eq_iff {token token' : Token} :
    token.wording = token'.wording ↔ token.kind = token'.kind ∧ token.lexeme = token'.lexeme :=
  Prod.mk_inj

theorem Node.shape_leaf {token token' : Token} (h : token.wording = token'.wording)
    (before before' : String) : (leaf before token).shape = (leaf before' token').shape := by
  obtain ⟨hkind, hlexeme⟩ := Token.wording_eq_iff.1 h
  rw [shape, shape, hkind, hlexeme]

namespace Builder.Alike

variable {first second : Builder} {token token' : Token}

theorem endStatement (h : first.Alike second) {nodes nodes' : List Node}
    (hnodes : nodes.map Node.shape = nodes'.map Node.shape) :
    (first.endStatement nodes).Alike (second.endStatement nodes') := by
  have hempty : nodes.isEmpty = nodes'.isEmpty := by
    rw [← List.isEmpty_map, hnodes, List.isEmpty_map]
  unfold Builder.endStatement
  rw [hempty]
  split
  · exact h
  · refine ⟨?_, rfl, h.enclosing⟩
    simp only [List.map_cons, Node.shape_ofChildren, List.map_reverse, hnodes, h.statements]

/-- Where one builder has an open group, an alike one has a group with the same outline. -/
theorem exists_group (h : first.Alike second) {group : Enclosing} {outer : List Enclosing}
    (hgroup : first.enclosing = group :: outer) :
    ∃ group' outer', second.enclosing = group' :: outer' ∧
      group.opening.wording = group'.opening.wording ∧
      group.siblings.map Node.shape = group'.siblings.map Node.shape ∧
      outer.map Enclosing.outline = outer'.map Enclosing.outline := by
  have henclosing := h.enclosing
  rw [hgroup] at henclosing
  obtain ⟨group', outer', hgroup', houtline, houter⟩ := List.map_eq_cons_iff.1 henclosing.symm
  obtain ⟨hopening, hsiblings⟩ := Prod.mk.inj houtline
  exact ⟨group', outer', hgroup', hopening.symm, hsiblings.symm, houter.symm⟩

theorem enclosing_eq_nil (h : first.Alike second) (hnil : first.enclosing = []) :
    second.enclosing = [] := by
  have henclosing := h.enclosing
  rw [hnil] at henclosing
  exact List.map_eq_nil_iff.1 henclosing.symm

theorem close (h : first.Alike second) (htoken : token.wording = token'.wording) (dialect : Dialect)
    (before before' : String) :
    Agree Builder.Alike (first.close dialect before token)
      (second.close dialect before' token') := by
  obtain ⟨-, hlexeme⟩ := Token.wording_eq_iff.1 htoken
  unfold Builder.close
  cases hfirst : first.enclosing with
  | nil =>
    rw [h.enclosing_eq_nil hfirst, hlexeme]
    exact .fault _ _ _
  | cons group outer =>
    obtain ⟨group', outer', hsecond, hopening, hsiblings, houter⟩ := h.exists_group hfirst
    obtain ⟨-, hbracket⟩ := Token.wording_eq_iff.1 hopening
    rw [hsecond]
    simp only [hlexeme, hbracket]
    split
    · have hcontents : first.nodes.reverse.map Node.shape =
          second.nodes.reverse.map Node.shape := by
        rw [List.map_reverse, List.map_reverse, h.nodes]
      have hempty : outer.isEmpty = outer'.isEmpty := by
        rw [← List.isEmpty_map, houter, List.isEmpty_map]
      refine .ok ⟨h.statements, ?_, houter⟩
      simp only [List.map_cons, Node.shape_ofChildren, List.map_append, hsiblings, hcontents,
        classify_of_shape hsiblings hcontents, hempty,
        Node.shape_leaf hopening group.before group'.before, Node.shape_leaf htoken before before']
    · exact .fault _ _ _

theorem endLine (h : first.Alike second) (htoken : token.wording = token'.wording)
    (before before' : String) :
    Agree Builder.Alike (first.endLine before token) (second.endLine before' token') := by
  obtain ⟨hkind, -⟩ := Token.wording_eq_iff.1 htoken
  have hleaf := Node.shape_leaf htoken before before'
  unfold Builder.endLine
  cases hfirst : first.enclosing with
  | nil =>
    rw [h.enclosing_eq_nil hfirst]
    simp only [hkind]
    split
    · have hended := h.endStatement h.nodes
      refine .ok ⟨?_, hended.nodes, hended.enclosing⟩
      rw [List.map_cons, List.map_cons, hleaf, hended.statements]
    · refine .ok (h.endStatement ?_)
      rw [List.map_cons, List.map_cons, hleaf, h.nodes]
  | cons group outer =>
    obtain ⟨group', outer', hsecond, hopening, -, -⟩ := h.exists_group hfirst
    obtain ⟨-, hbracket⟩ := Token.wording_eq_iff.1 hopening
    rw [hsecond]
    simp only [hbracket]
    exact .fault _ _ _

/-- Alike builders take alike steps on tokens of the same kind and text. -/
theorem push (h : first.Alike second) (htoken : token.wording = token'.wording) (dialect : Dialect)
    (before before' : String) :
    Agree Builder.Alike (first.push dialect (before, token))
      (second.push dialect (before', token')) := by
  obtain ⟨hkind, hlexeme⟩ := Token.wording_eq_iff.1 htoken
  unfold Builder.push
  simp only [hkind, hlexeme]
  split
  · refine .ok ⟨h.statements, rfl, ?_⟩
    simp only [List.map_cons, Enclosing.outline, htoken, h.nodes, h.enclosing]
  split
  · exact h.close htoken dialect before before'
  split
  · exact h.endLine htoken before before'
  · refine .ok ⟨h.statements, ?_, h.enclosing⟩
    rw [List.map_cons, List.map_cons, Node.shape_leaf htoken before before', h.nodes]

/-- Runs over tokens of the same kinds and texts stay alike to their end, or fail on the same
token. -/
theorem foldlM {tokens tokens' : List Token} (h : first.Alike second)
    (htokens : tokens.map Token.wording = tokens'.map Token.wording) (dialect : Dialect)
    (text text' : List Char) (last last' : Location) :
    Agree Builder.Alike ((attachText text last tokens).foldlM (Builder.push dialect) first)
      ((attachText text' last' tokens').foldlM (Builder.push dialect) second) := by
  induction tokens generalizing first second tokens' last last' with
  | nil =>
    obtain rfl : tokens' = [] := List.map_eq_nil_iff.1 htokens.symm
    exact .ok h
  | cons token tokens ih =>
    obtain ⟨token', tokens', rfl, htoken, hrest⟩ := List.map_eq_cons_iff.1 htokens.symm
    rw [attachText, attachText, List.foldlM_cons, List.foldlM_cons]
    refine (h.push htoken.symm dialect _ _).bind fun next next' hnext => ?_
    exact ih hnext hrest.symm token.stop token'.stop

end Builder.Alike

/-! ### Sources -/

/-- Sources whose tokens agree in kind and text, the marks of blocks left out, fail alike or have
trees of the same shape, in every dialect. A source without the names `print` and `exec` has one
tree for all dialects. -/
theorem buildTree_shape_of_tokens :
    (∀ (dialect : Dialect) (text other : List Char), (tokenize text).error = none →
      (tokenize other).error = none →
      ((tokenize text).tokens.filter fun token => !token.kind.isBlockMark).map Token.wording =
        ((tokenize other).tokens.filter fun token => !token.kind.isBlockMark).map Token.wording →
      Agree (fun tree tree' => tree.shape = tree'.shape) (buildTree dialect text)
        (buildTree dialect other)) ∧
    ∀ text : List Char, (∀ token ∈ (tokenize text).tokens,
        token.kind = .name → token.lexeme ≠ "print" ∧ token.lexeme ≠ "exec") →
      ∀ first second : Dialect, buildTree first text = buildTree second text := by
  refine ⟨fun dialect text other htext hother htokens => ?_, fun text hnames first second => ?_⟩
  · rw [buildTree_of_complete htext, buildTree_of_complete hother, treeOfTokens, treeOfTokens]
    have hempty : Builder.empty.Alike .empty := ⟨rfl, rfl, rfl⟩
    refine (hempty.foldlM htokens dialect text other ⟨1, 0⟩ ⟨1, 0⟩).bind
      fun final final' hfinal => .ok ?_
    rw [Node.shape_ofChildren, Node.shape_ofChildren, List.map_reverse, List.map_reverse,
      hfinal.statements]
  · exact treeOfStream_congr first second text hnames

/-- A print statement over two lines with a tab, blanks and a comment, and the same on one line; and
a name that only begins like one of the words. -/
theorem buildTree_shape_of_tokens_layout :
    let text := "if a:\n\tprint ( 1,\n 2 ) # c\n".toList
    let other := "if a:\n    print(1, 2)\n".toList
    let plain := "printer (a)[0]\n".toList
    (tokenize text).error = none ∧ (tokenize other).error = none ∧
      ((tokenize text).tokens.filter fun token => !token.kind.isBlockMark).map Token.wording =
        ((tokenize other).tokens.filter fun token => !token.kind.isBlockMark).map Token.wording ∧
      Agree (fun tree tree' => tree.shape = tree'.shape) (buildTree ⟨true, true⟩ text)
        (buildTree ⟨true, true⟩ other) ∧
      (∀ token ∈ (tokenize plain).tokens,
        token.kind = .name → token.lexeme ≠ "print" ∧ token.lexeme ≠ "exec") ∧
      buildTree ⟨true, true⟩ plain = buildTree ⟨false, false⟩ plain := by
  intro text other plain
  have htext : (tokenize text).error = none := by decide +kernel
  have hother : (tokenize other).error = none := by decide +kernel
  have htokens : ((tokenize text).tokens.filter fun token => !token.kind.isBlockMark).map
    Token.wording =
      ((tokenize other).tokens.filter fun token => !token.kind.isBlockMark).map Token.wording := by
    decide +kernel
  have hnames : ∀ token ∈ (tokenize plain).tokens,
      token.kind = .name → token.lexeme ≠ "print" ∧ token.lexeme ≠ "exec" := by
    decide +kernel
  exact ⟨htext, hother, htokens, buildTree_shape_of_tokens.1 _ _ _ htext hother htokens, hnames,
    buildTree_shape_of_tokens.2 plain hnames _ _⟩

end PythonLint
