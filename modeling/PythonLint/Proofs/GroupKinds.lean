import PythonLint.Proofs.BracketNesting

/-!
# What the kind of a group depends on

In the tree of a source every bracket group is of the kind that its opening bracket, its contents
and the nodes before it call for. The builder asks for the kind when a group closes, and by then the
nodes before the group are the siblings that it put aside with the opening bracket. `Fitting` says
that all groups which are complete have been treated so.

Main statements: `Fitting.push`, `fitsThroughout_of_buildTree`.
-/

namespace PythonLint

namespace Node

def kind? : Node → Option BranchKind
  | leaf _ _ => none
  | branch kind _ _ _ _ => some kind

def bracket? (node : Node) : Option String :=
  match node.opening? with
  | some (leaf _ opening) => some opening.lexeme
  | _ => none

/-- The nodes among which the groups right inside a node stand. They are all children but the
brackets. -/
def parts : Node → List Node
  | leaf _ _ => []
  | branch kind _ _ _ children => if kind.isGroup then children.tail.dropLast else children

/-- A group is of the kind that its opening bracket, its contents and the nodes before it call for.
The nearest of those nodes stands first. -/
def Fits (dialect : Dialect) (outermost : Bool) (siblings : List Node) (node : Node) : Prop :=
  ∀ bracket ∈ node.bracket?, node.kind? =
    some (classify dialect outermost bracket siblings node.contents)

end Node

/-- All groups among the nodes fit the nodes before them. The last node stands first. -/
def AllFit (dialect : Dialect) (outermost : Bool) : List Node → Prop
  | [] => True
  | node :: siblings => node.Fits dialect outermost siblings ∧ AllFit dialect outermost siblings

theorem AllFit.first_fits {dialect : Dialect} {outermost : Bool} {later : List Node} {first : Node}
    (h : AllFit dialect outermost (later ++ [first])) : first.Fits dialect outermost [] := by
  induction later with
  | nil => exact h.1
  | cons node later ih => exact ih h.2

namespace Node

/-- The node has been classified if it is a group, and all groups right inside it fit the nodes
before them. -/
def FitsInside (dialect : Dialect) (node : Node) : Prop :=
  (∃ outermost siblings, node.Fits dialect outermost siblings) ∧
    AllFit dialect (node.kind? == some .statement) node.parts.reverse

/-- All nodes of a tree have been classified. -/
def FitsThroughout (dialect : Dialect) (node : Node) : Prop :=
  ∀ inner ∈ node.postOrder, inner.FitsInside dialect

variable {dialect : Dialect} {outermost : Bool} {siblings children : List Node} {kind : BranchKind}

theorem exists_ofChildren_eq (kind : BranchKind) (children : List Node) :
    ∃ before start stop, ofChildren kind children = branch kind before start stop children := by
  unfold ofChildren
  split
  · exact ⟨_, _, _, rfl⟩
  · exact ⟨_, _, _, rfl⟩

theorem fits_of_bracket?_eq_none {node : Node} (h : node.bracket? = none) :
    node.Fits dialect outermost siblings := by
  intro bracket hbracket
  rw [h] at hbracket
  cases hbracket

theorem bracket?_ofChildren_of_not_isGroup (hkind : kind.isGroup = false) (children : List Node) :
    (ofChildren kind children).bracket? = none := by
  obtain ⟨before, start, stop, heq⟩ := exists_ofChildren_eq kind children
  rw [heq, bracket?, opening?, hkind]
  rfl

theorem fits_group (before : String) (opening : Token) (contents : List Node) (closing : Node)
    (hkind : kind = classify dialect outermost opening.lexeme siblings contents) :
    (ofChildren kind (leaf before opening :: contents ++ [closing])).Fits dialect outermost
      siblings := by
  have hgroup : kind.isGroup = true := by
    rw [hkind]
    exact isGroup_classify _ _ _ _ _
  obtain ⟨_, _, _, heq⟩ := exists_ofChildren_eq kind (leaf before opening :: contents ++ [closing])
  intro bracket hbracket
  rw [heq] at hbracket ⊢
  obtain rfl : opening.lexeme = bracket := by simpa [bracket?, opening?, hgroup] using hbracket
  rw [kind?, Node.contents, hgroup, if_pos rfl, List.cons_append, List.tail_cons,
    List.dropLast_concat, ← hkind]

theorem fitsThroughout_leaf (before : String) (token : Token) :
    (leaf before token).FitsThroughout dialect := by
  intro inner hinner
  obtain rfl : inner = leaf before token := by simpa [postOrder] using hinner
  exact ⟨⟨true, [], fits_of_bracket?_eq_none rfl⟩, trivial⟩

/-- A node fits throughout when it has been classified itself and its children do. -/
theorem fitsThroughout_ofChildren
    (hfits : (ofChildren kind children).Fits dialect outermost siblings)
    (hchildren : ∀ child ∈ children, child.FitsThroughout dialect)
    (hparts : AllFit dialect (some kind == some .statement)
      (if kind.isGroup then children.tail.dropLast else children).reverse) :
    (ofChildren kind children).FitsThroughout dialect := by
  obtain ⟨before, start, stop, heq⟩ := exists_ofChildren_eq kind children
  rw [heq] at hfits ⊢
  intro inner hinner
  rw [postOrder, List.mem_append, mem_postOrderOfList, List.mem_singleton] at hinner
  obtain ⟨child, hchild, hinner⟩ | rfl := hinner
  · exact hchildren child hchild inner hinner
  · exact ⟨⟨outermost, siblings, hfits⟩, hparts⟩

/-- Statements and whole sources are not classified. -/
theorem fitsThroughout_of_not_isGroup (hkind : kind.isGroup = false)
    (hchildren : ∀ child ∈ children, child.FitsThroughout dialect)
    (hparts : AllFit dialect (some kind == some .statement) children.reverse) :
    (ofChildren kind children).FitsThroughout dialect := by
  have hfits : (ofChildren kind children).Fits dialect true [] :=
    fits_of_bracket?_eq_none (bracket?_ofChildren_of_not_isGroup hkind children)
  refine fitsThroughout_ofChildren hfits hchildren ?_
  rwa [hkind]

end Node

/-- The nodes fit those before them, and all that is inside them does. -/
def SettledNodes (dialect : Dialect) (outermost : Bool) (nodes : List Node) : Prop :=
  AllFit dialect outermost nodes ∧ ∀ node ∈ nodes, node.FitsThroughout dialect

/-- What stands before the open groups fits. The innermost group stands first. -/
def SettledGroups (dialect : Dialect) : List Enclosing → Prop
  | [] => True
  | group :: outer =>
    SettledNodes dialect outer.isEmpty group.siblings ∧ SettledGroups dialect outer

/-- All groups that a builder has completed are of the kind that is called for. -/
structure Fitting (dialect : Dialect) (builder : Builder) : Prop where
  statements : ∀ node ∈ builder.statements, node.bracket? = none ∧ node.FitsThroughout dialect
  nodes : SettledNodes dialect builder.enclosing.isEmpty builder.nodes
  enclosing : SettledGroups dialect builder.enclosing

namespace Fitting

variable {dialect : Dialect} {builder next : Builder} {before : String} {token : Token}

theorem empty : Fitting dialect .empty :=
  ⟨List.forall_mem_nil _, ⟨trivial, List.forall_mem_nil _⟩, trivial⟩

theorem leaf_nodes (h : Fitting dialect builder) (before : String) (token : Token) :
    SettledNodes dialect builder.enclosing.isEmpty (.leaf before token :: builder.nodes) :=
  ⟨⟨Node.fits_of_bracket?_eq_none rfl, h.nodes.1⟩,
    List.forall_mem_cons.2 ⟨Node.fitsThroughout_leaf before token, h.nodes.2⟩⟩

theorem endStatement (h : Fitting dialect builder) {nodes : List Node}
    (hnodes : SettledNodes dialect true nodes) : Fitting dialect (builder.endStatement nodes) := by
  unfold Builder.endStatement
  split
  · exact h
  · refine ⟨List.forall_mem_cons.2 ⟨⟨Node.bracket?_ofChildren_of_not_isGroup rfl _, ?_⟩,
      h.statements⟩, ⟨trivial, List.forall_mem_nil _⟩, h.enclosing⟩
    refine Node.fitsThroughout_of_not_isGroup rfl
      (fun child hchild => hnodes.2 child (List.mem_reverse.1 hchild)) ?_
    rw [List.reverse_reverse]
    exact hnodes.1

/-- The group that a closing bracket completes fits the siblings that were put aside for it. -/
theorem close (h : Fitting dialect builder) {group : Enclosing} {outer : List Enclosing}
    (henclosing : builder.enclosing = group :: outer) (closing : Node)
    (hclosing : closing.FitsThroughout dialect) {kind : BranchKind}
    (hkind : kind = classify dialect outer.isEmpty group.opening.lexeme group.siblings
      builder.nodes.reverse) :
    SettledNodes dialect outer.isEmpty
      (.ofChildren kind (.leaf group.before group.opening :: builder.nodes.reverse ++ [closing]) ::
        group.siblings) := by
  have hsiblings := h.enclosing
  have hcontents := h.nodes
  rw [henclosing] at hsiblings hcontents
  have hgroup : kind.isGroup = true := by
    rw [hkind]
    exact isGroup_classify _ _ _ _ _
  have hfits := Node.fits_group group.before group.opening builder.nodes.reverse closing hkind
  refine ⟨⟨hfits, hsiblings.1.1⟩,
    List.forall_mem_cons.2 ⟨Node.fitsThroughout_ofChildren hfits ?_ ?_, hsiblings.1.2⟩⟩
  · intro child hchild
    simp only [List.cons_append, List.mem_cons, List.mem_append, List.mem_reverse, List.not_mem_nil,
      or_false] at hchild
    obtain rfl | hchild | rfl := hchild
    · exact Node.fitsThroughout_leaf _ _
    · exact hcontents.2 child hchild
    · exact hclosing
  · have hstatement : (some kind == some BranchKind.statement) = false := by
      cases kind with
      | statement => cases hgroup
      | _ => rfl
    rw [hstatement, hgroup, if_pos rfl, List.cons_append, List.tail_cons, List.dropLast_concat,
      List.reverse_reverse]
    exact hcontents.1

theorem push (h : Fitting dialect builder)
    (hpush : builder.push dialect (before, token) = .ok next) : Fitting dialect next := by
  obtain ⟨-, -, rfl⟩ | ⟨-, -, group, outer, henclosing, -, rfl⟩ | ⟨-, henclosing, rfl⟩ | ⟨-,
    henclosing, rfl⟩ |
    ⟨-, -, -, -, rfl⟩ := Builder.push_cases hpush
  · exact ⟨h.statements, ⟨trivial, List.forall_mem_nil _⟩, ⟨h.nodes, h.enclosing⟩⟩
  · have henclosed := h.enclosing
    rw [henclosing] at henclosed
    exact ⟨h.statements, h.close henclosing _ (Node.fitsThroughout_leaf before token) rfl,
      henclosed.2⟩
  · have hnodes := h.leaf_nodes before token
    rw [henclosing] at hnodes
    exact h.endStatement hnodes
  · have hnodes := h.nodes
    rw [henclosing] at hnodes
    have hended := h.endStatement hnodes
    exact ⟨List.forall_mem_cons.2 ⟨⟨rfl, Node.fitsThroughout_leaf before token⟩, hended.statements⟩,
      hended.nodes, hended.enclosing⟩
  · exact ⟨h.statements, h.leaf_nodes before token, h.enclosing⟩

theorem foldlM {items : List (String × Token)} {final : Builder} (h : Fitting dialect builder)
    (hrun : items.foldlM (Builder.push dialect) builder = .ok final) : Fitting dialect final :=
  Builder.invariant_of_foldlM (fun _ _ _ _ hfitting hpush => hfitting.push hpush) h hrun

theorem allFit_statements (h : Fitting dialect builder) (outermost : Bool) :
    AllFit dialect outermost builder.statements := by
  have hstatements := h.statements
  generalize builder.statements = statements at hstatements
  induction statements with
  | nil => trivial
  | cons node rest ih =>
    rw [List.forall_mem_cons] at hstatements
    exact ⟨Node.fits_of_bracket?_eq_none hstatements.1.1, ih hstatements.2⟩

end Fitting

theorem error_eq_none_of_buildTree {dialect : Dialect} {text : List Char} {tree : Node}
    (htree : buildTree dialect text = .ok tree) : (tokenize text).error = none := by
  unfold buildTree treeOfStream at htree
  obtain ⟨built, -, hread⟩ := exists_of_bind_eq_ok htree
  split at hread
  · cases hread
  · next hnone => exact hnone

/-- All groups of a tree are of the kind that their brackets, their contents and the nodes before
them call for. -/
theorem fitsThroughout_of_buildTree {dialect : Dialect} {text : List Char} {tree : Node}
    (htree : buildTree dialect text = .ok tree) : tree.FitsThroughout dialect := by
  obtain ⟨final, hrun, rfl, -⟩ := exists_of_buildTree (error_eq_none_of_buildTree htree) htree
  have hfitting := Fitting.empty.foldlM hrun
  refine Node.fitsThroughout_of_not_isGroup rfl (fun child hchild => ?_) ?_
  · exact (hfitting.statements child (List.mem_reverse.1 hchild)).2
  · rw [List.reverse_reverse]
    exact hfitting.allFit_statements _

end PythonLint
