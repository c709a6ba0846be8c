import PythonLint.Proofs.GroupKinds
import PythonLint.Proofs.PassSeparation
import Mathlib.Data.List.Flatten
import Mathlib.Data.List.Perm.Subperm

/-!
# Blanks are reported once

The places of a group where blanks may not stand are before its opening bracket, before the first
node of its contents, before separators and before its closing bracket. The text before a node is
the text before its first token, so nested groups see the same blanks. Yet no token is looked at
twice: only a group that follows another node is looked at from outside, and the first node of a
group follows none.

Every node is charged with the tokens that its checks look at. `count_charges_le` says that a token
is charged at most as often as it occurs, and that the first token of a node is left to the group
around it unless the node is looked at from outside.

Main statements: `count_charges_le`, `runPass_tree_injective`.
-/

namespace PythonLint

namespace Node

/-- What holds of tokens and passes from all children to their parent holds of all nodes. -/
@[elab_as_elim]
theorem induction {P : Node → Prop} (leaf : ∀ before token, P (leaf before token))
    (branch : ∀ kind before start stop children, (∀ child ∈ children, P child) →
      P (branch kind before start stop children)) : ∀ node, P node
  | .leaf before token => leaf before token
  | .branch kind before start stop children =>
    branch kind before start stop children fun child _ => induction leaf branch child

/-- The first token of a node, with the text before it. -/
def lead (node : Node) : List (String × Token) :=
  node.leaves.take 1

theorem mem_postOrder_self (node : Node) : node ∈ node.postOrder := by
  cases node with
  | leaf => exact List.mem_singleton_self _
  | branch => exact List.mem_append_right _ (List.mem_singleton_self _)

theorem mem_postOrder_of_mem_children {node child inner : Node} (hchild : child ∈ node.children)
    (hinner : inner ∈ child.postOrder) : inner ∈ node.postOrder := by
  cases node with
  | leaf => cases hchild
  | branch => exact List.mem_append_left _ (mem_postOrderOfList.2 ⟨child, hchild, hinner⟩)

theorem mem_postOrder_trans {tree node inner : Node} (hnode : node ∈ tree.postOrder)
    (hinner : inner ∈ node.postOrder) : inner ∈ tree.postOrder := by
  induction tree using Node.induction with
  | leaf before token =>
    obtain rfl : node = leaf before token := by simpa [postOrder] using hnode
    exact hinner
  | branch kind before start stop children ih =>
    rw [postOrder, List.mem_append, mem_postOrderOfList, List.mem_singleton] at hnode
    obtain ⟨child, hchild, hnode⟩ | rfl := hnode
    · exact mem_postOrder_of_mem_children hchild (ih child hchild hnode)
    · exact hinner

theorem lead_branch {first : Node} (hfirst : first.lead ≠ []) (kind : BranchKind) (before : String)
    (start stop : Location) (rest : List Node) :
    (branch kind before start stop (first :: rest)).lead = first.lead := by
  obtain ⟨token, others, hleaves⟩ : ∃ token others, first.leaves = token :: others :=
    List.exists_cons_of_ne_nil fun hnil => hfirst (by rw [lead, hnil]; rfl)
  rw [lead, lead, leaves, leavesOfList, hleaves]
  rfl

/-- The text before a node is the text before its first token. -/
theorem exists_lead_eq (node : Node) (h : ∀ inner ∈ node.postOrder, inner.WellBracketed) :
    ∃ token, node.lead = [(node.before, token)] := by
  induction node using Node.induction with
  | leaf before token => exact ⟨token, rfl⟩
  | branch kind before start stop children ih =>
    obtain ⟨⟨first, last, hfirst, -, rfl, -, -⟩, -⟩ := h _ (mem_postOrder_self _)
    obtain ⟨rest, rfl⟩ := List.head?_eq_some_iff.1 hfirst
    obtain ⟨token, htoken⟩ := ih first List.mem_cons_self fun inner hinner =>
      h inner (mem_postOrder_of_mem_children List.mem_cons_self hinner)
    exact ⟨token, (lead_branch (by simp [htoken]) kind _ start stop rest).trans htoken⟩

theorem parts_subset_children (node : Node) : node.parts ⊆ node.children := by
  cases node with
  | leaf => exact List.nil_subset _
  | branch kind before start stop children =>
    rw [parts]
    split
    · exact ((List.dropLast_sublist _).trans (List.tail_sublist _)).subset
    · exact List.Subset.refl _

end Node

/-! ### Tokens that are looked at -/

/-- The nodes of a group before which a place lies. -/
def Spot.nodes (node : Node) : Spot → List Node
  | outside => node.opening?.toList
  | hollow => if node.contents.isEmpty then node.closing?.toList else []
  | first => node.contents.head?.toList
  | last => if node.contents.isEmpty then [] else node.closing?.toList
  | separator text => node.contents.filter (Node.isOp text)
  | keySeparator => keySeparators node.contents

/-- The tokens of a group before which a place lies. -/
def Spot.leads (node : Node) (spot : Spot) : List (String × Token) :=
  (spot.nodes node).flatMap Node.lead

/-- The blanks at a place are those before its nodes. -/
theorem Spot.count_eq (node : Node) (spot : Spot) :
    spot.count node = (spot.nodes node).countP Node.followsBlank := by
  have honce (option : Option Node) :
      Spot.once (option.any Node.followsBlank) = option.toList.countP Node.followsBlank := by
    cases option with
    | none => rfl
    | some child => simp [Spot.once]
  cases spot with
  | outside => exact honce _
  | hollow =>
    unfold count nodes
    cases node.contents.isEmpty with
    | true => exact honce _
    | false => rfl
  | first => exact honce _
  | last =>
    unfold count nodes
    cases node.contents.isEmpty with
    | true => rfl
    | false => exact honce _
  | separator text =>
    rw [count, nodes, List.countP_filter]
    simp only [Bool.and_comm]
  | keySeparator => rfl

/-- The places that are checked at a kind of group. -/
def BranchKind.spots (kind : BranchKind) : List Spot :=
  (checksFor spacingTable kind).map Prod.fst

/-- Only some kinds of groups have separators that are checked. -/
def BranchKind.hasSeparators (kind : BranchKind) : Bool :=
  [listDisplay, setDisplay, dictDisplay, tupleDisplay, callArguments].contains kind

/-- The most that is checked at a group. -/
def mostSpots (outside : Bool) (separators : List Spot) : List Spot :=
  (if outside then [.outside] else []) ++ [.hollow, .first, .last] ++ separators

theorem spots_sublist (kind : BranchKind) :
    ∃ separators, (separators = [] ∨
        kind.hasSeparators = true ∧
        (separators = [.separator ","] ∨ separators = [.keySeparator])) ∧
      kind.spots.Sublist (mostSpots (kind.spots.contains .outside) separators) := by
  cases kind with
  | listDisplay | setDisplay | tupleDisplay | callArguments =>
    exact ⟨[.separator ","], by decide, by decide⟩
  | dictDisplay => exact ⟨[.keySeparator], by decide, by decide⟩
  | _ => exact ⟨[], by decide, by decide⟩

namespace Node

/-- The places that are checked at a node, and what is said of them. -/
def places (node : Node) : List (Spot × String) :=
  node.kind?.elim [] (checksFor spacingTable)

def spots (node : Node) : List Spot :=
  node.places.map Prod.fst

/-- The tokens that the checks of a node look at. -/
def charges (node : Node) : List (String × Token) :=
  node.spots.flatMap (Spot.leads node)

/-- The tokens that all checks inside a node look at. -/
def chargesWithin (node : Node) : List (String × Token) :=
  node.postOrder.flatMap charges

/-- The node is looked at from outside, before its opening bracket. -/
def isTrailer (node : Node) : Bool :=
  node.spots.contains .outside

theorem chargesWithin_branch (kind : BranchKind) (before : String) (start stop : Location)
    (children : List Node) :
    (branch kind before start stop children).chargesWithin =
      children.flatMap chargesWithin ++ (branch kind before start stop children).charges := by
  have hchildren (nodes : List Node) : (postOrderOfList nodes).flatMap charges =
      nodes.flatMap chargesWithin := by
    induction nodes with
    | nil => rfl
    | cons node nodes ih =>
      rw [postOrderOfList, List.flatMap_append, ih, List.flatMap_cons, chargesWithin]
  rw [chargesWithin, postOrder, List.flatMap_append, hchildren, List.flatMap_singleton]

end Node

/-! ### Separators -/

/-- The colons between keys and values are among all colons. -/
theorem separatorsFrom_sublist (lambdas : Nat) (paired : Bool) (nodes : List Node) :
    (separatorsFrom lambdas paired nodes).Sublist (nodes.filter (Node.isOp ":")) := by
  have hskip (node : Node) {rest separators : List Node}
    (h : separators.Sublist (rest.filter (Node.isOp ":"))) :
      separators.Sublist ((node :: rest).filter (Node.isOp ":")) :=
    h.trans ((List.sublist_cons_self node rest).filter _)
  fun_induction separatorsFrom lambdas paired nodes with
  | case1 => exact .slnil
  | case6 lambdas paired node rest _ _ hcolon _ _ ih =>
    rw [List.filter_cons_of_pos hcolon]
    exact ih.cons_cons node
  | _ => exact hskip _ ‹_›

theorem Node.exists_leaf_of_isOp {node : Node} {text : String} (h : node.isOp text = true) :
    ∃ before token, node = leaf before token := by
  cases node with
  | leaf before token => exact ⟨before, token, rfl⟩
  | branch => cases h

/-- The group has no separator before its first item. -/
def Node.StartsWithItem (node : Node) : Prop :=
  ∀ kind ∈ node.kind?, kind.hasSeparators = true →
    ∀ first ∈ node.contents.head?, first.isOp "," = false ∧ first.isOp ":" = false

instance (node : Node) : Decidable node.StartsWithItem :=
  inferInstanceAs (Decidable (∀ kind ∈ node.kind?, kind.hasSeparators = true →
    ∀ first ∈ node.contents.head?, first.isOp "," = false ∧ first.isOp ":" = false))

/-- The separators that are checked are tokens after the first node. -/
theorem separators_sublist_tail {node : Node} {separator : Spot}
    (hspot : separator = .separator "," ∨ separator = .keySeparator)
    (hfirst : ∀ first ∈ node.contents.head?, first.isOp "," = false ∧ first.isOp ":" = false) :
    (separator.nodes node).Sublist node.contents.tail ∧
      ∀ child ∈ separator.nodes node, ∃ before token, child = .leaf before token := by
  obtain ⟨text, htext, hsub⟩ : ∃ text, (text = "," ∨ text = ":") ∧
      (separator.nodes node).Sublist (node.contents.filter (Node.isOp text)) := by
    obtain rfl | rfl := hspot
    · exact ⟨",", .inl rfl, List.Sublist.refl _⟩
    · exact ⟨":", .inr rfl, separatorsFrom_sublist 0 false _⟩
  refine ⟨?_,
    fun child hchild => Node.exists_leaf_of_isOp (List.mem_filter.1 (hsub.subset hchild)).2⟩
  cases hcontents : node.contents with
  | nil =>
    rw [hcontents] at hsub
    exact hsub
  | cons first rest =>
    rw [hcontents] at hsub hfirst
    have hnot : first.isOp text = false := by
      obtain rfl | rfl := htext
      · exact (hfirst first rfl).1
      · exact (hfirst first rfl).2
    rw [List.filter_cons_of_neg (by simp [hnot])] at hsub
    exact hsub.trans List.filter_sublist

/-! ### No token is looked at twice -/

section Count

variable (leaf : String × Token)

/-- Tokens among the nodes of a list can be looked at from outside when the nodes leave them
alone. -/
theorem count_separators_le {separators nodes : List Node} (hsub : separators.Sublist nodes)
    (htokens : ∀ node ∈ separators, ∃ before token, node = .leaf before token)
    (hnodes : ∀ node ∈ nodes, node.chargesWithin.count leaf ≤ node.leaves.count leaf) :
    (separators.flatMap Node.lead).count leaf + (nodes.flatMap Node.chargesWithin).count leaf ≤
      (Node.leavesOfList nodes).count leaf := by
  induction hsub with
  | slnil => exact Nat.le_refl _
  | cons node _ ih =>
    rw [List.forall_mem_cons] at hnodes
    have hrest := ih htokens hnodes.2
    have hnode := hnodes.1
    rw [List.flatMap_cons, Node.leavesOfList, List.count_append, List.count_append]
    omega
  | cons_cons node _ ih =>
    rw [List.forall_mem_cons] at hnodes htokens
    have hrest := ih htokens.2 hnodes.2
    obtain ⟨before, token, rfl⟩ := htokens.1
    have hlead : (Node.leaf before token).lead = (Node.leaf before token).leaves := rfl
    have hcharges : (Node.leaf before token).chargesWithin = [] := rfl
    rw [List.flatMap_cons, List.flatMap_cons, Node.leavesOfList, List.count_append,
      List.count_append, List.count_append, hlead, hcharges, List.count_nil]
    omega

/-- A node is charged with its own tokens, each at most once. Its first token stays free unless the
node is looked at from outside. -/
def Node.ChargedOnce (node : Node) : Prop :=
  node.chargesWithin.count leaf ≤ node.leaves.count leaf ∧
    (node.isTrailer = false → node.lead.count leaf + node.chargesWithin.count leaf ≤
      node.leaves.count leaf)

/-- Nodes that follow each other can be looked at from outside at the first one and at separators
after it. -/
theorem count_nodes_le {separators nodes : List Node} (hsub : separators.Sublist nodes.tail)
    (htokens : ∀ node ∈ separators, ∃ before token, node = .leaf before token)
    (hnodes : ∀ node ∈ nodes, node.ChargedOnce leaf)
    (hfirst : ∀ first ∈ nodes.head?, first.isTrailer = false) :
    (nodes.head?.toList.flatMap Node.lead).count leaf + (separators.flatMap Node.lead).count leaf +
      (nodes.flatMap Node.chargesWithin).count leaf ≤ (Node.leavesOfList nodes).count leaf := by
  cases nodes with
  | nil =>
    obtain rfl : separators = [] := List.sublist_nil.1 hsub
    exact Nat.le_refl _
  | cons first rest =>
    rw [List.tail_cons] at hsub
    rw [List.forall_mem_cons] at hnodes
    have hfree := hnodes.1.2 (hfirst first rfl)
    have hrest := count_separators_le leaf hsub htokens fun node hnode => (hnodes.2 node hnode).1
    rw [List.head?_cons, Option.toList_some, List.flatMap_singleton, List.flatMap_cons,
      Node.leavesOfList, List.count_append, List.count_append]
    omega

end Count

/-- A group with nothing before it is not looked at from outside. -/
theorem not_outside_of_first (dialect : Dialect) (outermost : Bool) (opening : String)
    (contents : List Node) :
    (classify dialect outermost opening [] contents).spots.contains .outside = false := by
  unfold classify classifySquare classifyRound classifyBraces
  simp only [List.head?_nil, Option.any_none, Bool.not_false, if_true, Bool.false_eq_true, if_false]
  repeat' split
  all_goals decide

/-- A node that stands first is not looked at from outside. -/
theorem isTrailer_of_fits {dialect : Dialect} {outermost : Bool} {node : Node}
    (hfits : node.Fits dialect outermost []) (hwell : node.WellBracketed) :
    node.isTrailer = false := by
  cases node with
  | leaf => rfl
  | branch kind before start stop children =>
    by_cases hgroup : kind.isGroup = true
    · have hbrackets := hwell.2
      rw [Node.BracketsAtEnds, if_pos hgroup] at hbrackets
      obtain ⟨beforeOpening, opening, contents, beforeClosing, closing, rfl, -⟩ := hbrackets
      have hkind := hfits opening.lexeme (by simp [Node.bracket?, Node.opening?, hgroup])
      rw [Node.isTrailer, Node.spots, Node.places, hkind]
      exact not_outside_of_first _ _ _ _
    · cases kind with
      | source | statement => rfl
      | _ => exact absurd rfl hgroup

section Ends

variable (leaf : String × Token) (node : Node)

/-- The closing bracket is looked at once, whether or not there is something before it. -/
theorem count_leads_closing :
    (Spot.hollow.leads node).count leaf + (Spot.last.leads node).count leaf =
      (node.closing?.toList.flatMap Node.lead).count leaf := by
  unfold Spot.leads Spot.nodes
  cases node.contents.isEmpty with
  | true => exact Nat.add_zero _
  | false => exact Nat.zero_add _

/-- All checks that may be asked of a node look at its brackets, at the first node between them and
at separators. -/
theorem count_leads (separators : List Spot) :
    ((mostSpots node.isTrailer separators).flatMap (Spot.leads node)).count leaf =
      (if node.isTrailer then node.opening?.toList.flatMap Node.lead else []).count leaf +
        (node.contents.head?.toList.flatMap Node.lead).count leaf +
          (node.closing?.toList.flatMap Node.lead).count leaf +
        ((separators.flatMap (Spot.nodes node)).flatMap Node.lead).count leaf := by
  have houtside : (if node.isTrailer then [Spot.outside] else []).flatMap (Spot.leads node) =
      if node.isTrailer then node.opening?.toList.flatMap Node.lead else [] := by
    cases node.isTrailer with
    | true => exact List.flatMap_singleton _ _
    | false => rfl
  have hfirst : Spot.first.leads node = node.contents.head?.toList.flatMap Node.lead := rfl
  have hseparators : (separators.flatMap (Spot.nodes node)).flatMap Node.lead =
      separators.flatMap (Spot.leads node) :=
    List.flatMap_assoc
  rw [hseparators, ← count_leads_closing, ← hfirst]
  simp only [mostSpots, List.flatMap_append, houtside, List.flatMap_cons, List.flatMap_nil,
    List.count_append, List.count_nil]
  omega

variable {node}

/-- Whichever separators are checked, they are tokens after the first node. -/
theorem separators_after_first {kind : BranchKind} (hkind : node.kind? = some kind)
    (hstarts : node.StartsWithItem) {separators : List Spot}
    (hseparators : separators = [] ∨ kind.hasSeparators = true ∧
      (separators = [.separator ","] ∨ separators = [.keySeparator])) :
    (separators.flatMap (Spot.nodes node)).Sublist node.contents.tail ∧
      ∀ child ∈ separators.flatMap (Spot.nodes node), ∃ before token,
        child = .leaf before token := by
  obtain rfl | ⟨hhas, rfl | rfl⟩ := hseparators
  · exact ⟨List.nil_sublist _, List.forall_mem_nil _⟩
  · rw [List.flatMap_singleton]
    exact separators_sublist_tail (.inl rfl) (hstarts kind hkind hhas)
  · rw [List.flatMap_singleton]
    exact separators_sublist_tail (.inr rfl) (hstarts kind hkind hhas)

/-- The checks of a node look at its brackets, at the first node between them and at separators, at
each of them once. -/
theorem count_charges_le_ends (hstarts : node.StartsWithItem) :
    ∃ separators : List Node, separators.Sublist node.contents.tail ∧
      (∀ child ∈ separators, ∃ before token, child = .leaf before token) ∧
      node.charges.count leaf ≤ (if node.isTrailer then node.opening?.toList.flatMap Node.lead
        else []).count leaf +
        (node.contents.head?.toList.flatMap Node.lead).count leaf +
          (node.closing?.toList.flatMap Node.lead).count leaf +
        (separators.flatMap Node.lead).count leaf := by
  cases hkind : node.kind? with
  | none =>
    have hcharges : node.charges = [] := by
      rw [Node.charges, Node.spots, Node.places, hkind]
      rfl
    refine ⟨[], List.nil_sublist _, List.forall_mem_nil _, ?_⟩
    rw [hcharges]
    exact Nat.zero_le _
  | some kind =>
    have hspots : node.spots = kind.spots := by
      rw [Node.spots, Node.places, hkind]
      rfl
    obtain ⟨separators, hseparators, hsub⟩ := spots_sublist kind
    rw [← hspots] at hsub
    obtain ⟨hafter, htokens⟩ := separators_after_first hkind hstarts hseparators
    refine ⟨_, hafter, htokens, ?_⟩
    rw [← count_leads]
    exact (hsub.flatMap (Spot.leads node)).count_le leaf

end Ends

section Branch

variable {leaf : String × Token} {kind : BranchKind} {before : String} {start stop : Location}

/-- The brackets of a group, and what the nodes between them leave to it, are looked at once. -/
theorem chargedOnce_group (hgroup : kind.isGroup = true) {beforeOpening beforeClosing : String}
    {opening closing : Token} {contents : List Node}
    (hcontents : ∀ node ∈ contents, node.ChargedOnce leaf)
    (hfirst : ∀ first ∈ contents.head?, first.isTrailer = false)
    (hstarts : (Node.branch kind before start stop
      (.leaf beforeOpening opening :: contents ++ [.leaf beforeClosing closing])).StartsWithItem) :
    (Node.branch kind before start stop
      (.leaf beforeOpening opening :: contents ++ [.leaf beforeClosing closing])).ChargedOnce
        leaf := by
  obtain ⟨separators, hafter, htokens, hcharges⟩ := count_charges_le_ends leaf hstarts
  generalize hnode : Node.branch kind before start stop
    (.leaf beforeOpening opening :: contents ++ [.leaf beforeClosing closing]) =
      node at hafter hcharges ⊢
  have hinside : node.contents = contents := by
    rw [← hnode, Node.contents, hgroup, if_pos rfl, List.cons_append, List.tail_cons,
      List.dropLast_concat]
  have hopening : node.opening?.toList.flatMap Node.lead = [(beforeOpening, opening)] := by
    rw [← hnode, Node.opening?, hgroup, if_pos rfl]
    rfl
  have hclosing : node.closing?.toList.flatMap Node.lead = [(beforeClosing, closing)] := by
    rw [← hnode, Node.closing?, hgroup, if_pos rfl, List.getLast?_concat]
    rfl
  have hwithin : node.chargesWithin = contents.flatMap Node.chargesWithin ++ node.charges := by
    rw [← hnode, Node.chargesWithin_branch, List.cons_append, List.flatMap_cons,
      List.flatMap_append, List.flatMap_singleton]
    exact congrArg (· ++ _) (List.append_nil _)
  have hleaves : node.leaves = (beforeOpening, opening) :: Node.leavesOfList contents ++
      [(beforeClosing, closing)] := by
    rw [← hnode, Node.leaves, List.cons_append, Node.leavesOfList, Node.leavesOfList_append]
    rfl
  have hlead : node.lead = [(beforeOpening, opening)] := by
    rw [Node.lead, hleaves]
    rfl
  rw [hinside] at hafter hcharges
  rw [hopening, hclosing] at hcharges
  have hbound := count_nodes_le leaf hafter htokens hcontents hfirst
  rw [Node.ChargedOnce, hwithin, hleaves, hlead, List.cons_append, ← List.singleton_append,
    List.count_append, List.count_append, List.count_append]
  constructor
  · split at hcharges
    · omega
    · rw [List.count_nil] at hcharges
      omega
  · intro htrailer
    rw [htrailer, if_neg Bool.false_ne_true, List.count_nil] at hcharges
    omega

/-- Statements and whole sources are not checked themselves. -/
theorem chargedOnce_of_not_isGroup (hgroup : ¬kind.isGroup = true) {first : Node} {rest : List Node}
    (hnodes : ∀ node ∈ first :: rest, node.ChargedOnce leaf) (hfirst : first.isTrailer = false)
    (hlead : first.lead ≠ []) :
    (Node.branch kind before start stop (first :: rest)).ChargedOnce leaf := by
  have hcharges : (Node.branch kind before start stop (first :: rest)).charges = [] := by
    cases kind with
    | source | statement => rfl
    | _ => exact absurd rfl hgroup
  have hbound := count_nodes_le leaf (List.nil_sublist _) (List.forall_mem_nil _) hnodes
    (by rintro node ⟨⟩; exact hfirst)
  rw [List.head?_cons, Option.toList_some, List.flatMap_singleton, List.flatMap_nil,
    List.count_nil] at hbound
  rw [Node.ChargedOnce, Node.chargesWithin_branch, hcharges, List.append_nil,
    Node.lead_branch hlead, Node.leaves]
  exact ⟨by omega, fun _ => by omega⟩

end Branch

/-- No token of a tree is looked at twice. -/
theorem count_charges_le {dialect : Dialect} (leaf : String × Token) (node : Node)
    (h : ∀ inner ∈ node.postOrder, inner.WellBracketed ∧ inner.FitsInside dialect ∧
      inner.StartsWithItem) :
    node.ChargedOnce leaf := by
  induction node using Node.induction with
  | leaf before token => exact ⟨Nat.zero_le _, fun _ => Nat.le_refl _⟩
  | branch kind before start stop children ih =>
    have hinner : ∀ child ∈ children, ∀ inner ∈ child.postOrder,
        inner.WellBracketed ∧ inner.FitsInside dialect ∧ inner.StartsWithItem :=
      fun child hchild inner hinner => h inner (Node.mem_postOrder_of_mem_children hchild hinner)
    have hchildren : ∀ child ∈ children, child.ChargedOnce leaf :=
      fun child hchild => ih child hchild (hinner child hchild)
    obtain ⟨hwell, hfits, hstarts⟩ := h _ (Node.mem_postOrder_self _)
    -- Nothing stands before the first part, so it is not looked at from outside.
    have hfirst : ∀ first ∈ (Node.branch kind before start stop children).parts.head?,
        first.isTrailer = false := by
      intro first hfirst
      obtain ⟨rest, hparts⟩ := List.head?_eq_some_iff.1 hfirst
      have hmem : first ∈ children := Node.parts_subset_children _ (hparts ▸ List.mem_cons_self)
      have hallFit := hfits.2
      rw [hparts, List.reverse_cons] at hallFit
      exact isTrailer_of_fits hallFit.first_fits
        (hinner first hmem first (Node.mem_postOrder_self _)).1
    rw [Node.parts] at hfirst
    by_cases hgroup : kind.isGroup = true
    · have hbrackets := hwell.2
      rw [Node.BracketsAtEnds, if_pos hgroup] at hbrackets
      obtain ⟨beforeOpening, opening, contents, beforeClosing, closing, rfl, -⟩ := hbrackets
      rw [if_pos hgroup, List.cons_append, List.tail_cons, List.dropLast_concat] at hfirst
      refine chargedOnce_group hgroup (fun node hnode => hchildren node ?_) hfirst hstarts
      exact List.mem_cons_of_mem _ (List.mem_append_left _ hnode)
    · obtain ⟨first, last, hhead, -⟩ := hwell.1
      obtain ⟨rest, rfl⟩ := List.head?_eq_some_iff.1 hhead
      rw [if_neg hgroup] at hfirst
      obtain ⟨token, hlead⟩ :=
        Node.exists_lead_eq first fun inner hmem => (hinner first List.mem_cons_self inner hmem).1
      exact chargedOnce_of_not_isGroup hgroup hchildren (hfirst first rfl) (by simp [hlead])

/-! ### Reports -/

theorem mem_checksFor {κ α : Type} [DecidableEq κ] {table : List (κ × α)} {key : κ} {check : α} :
    check ∈ checksFor table key ↔ (key, check) ∈ table := by
  rw [checksFor, List.mem_filterMap]
  constructor
  · rintro ⟨⟨other, found⟩, hmem, hfound⟩
    obtain ⟨rfl, rfl⟩ : other = key ∧ found = check := by simpa using hfound
    exact hmem
  · intro hmem
    exact ⟨(key, check), hmem, if_pos rfl⟩

theorem Node.contents_subset_children (node : Node) : node.contents ⊆ node.children := by
  cases node with
  | leaf => exact List.nil_subset _
  | branch kind before start stop children =>
    rw [contents]
    split
    · exact ((List.dropLast_sublist _).trans (List.tail_sublist _)).subset
    · exact List.nil_subset _

theorem Node.opening?_subset_children (node : Node) : node.opening?.toList ⊆ node.children := by
  intro child hchild
  rw [Option.mem_toList] at hchild
  cases node with
  | leaf => cases hchild
  | branch kind before start stop children =>
    rw [opening?] at hchild
    split at hchild
    · exact List.mem_of_mem_head? hchild
    · cases hchild

theorem Node.closing?_subset_children (node : Node) : node.closing?.toList ⊆ node.children := by
  intro child hchild
  rw [Option.mem_toList] at hchild
  cases node with
  | leaf => cases hchild
  | branch kind before start stop children =>
    rw [closing?] at hchild
    split at hchild
    · exact List.mem_of_mem_getLast? hchild
    · cases hchild

theorem Spot.nodes_subset_children (node : Node) (spot : Spot) :
    spot.nodes node ⊆ node.children := by
  have hcontents := node.contents_subset_children
  have hclosing := node.closing?_subset_children
  cases spot with
  | outside => exact node.opening?_subset_children
  | hollow =>
    rw [nodes]
    split
    · exact hclosing
    · exact List.nil_subset _
  | first =>
    intro child hchild
    exact hcontents (List.mem_of_mem_head? (Option.mem_toList.1 hchild))
  | last =>
    rw [nodes]
    split
    · exact List.nil_subset _
    · exact hclosing
  | separator text => exact List.Subset.trans List.filter_sublist.subset hcontents
  | keySeparator =>
    exact List.Subset.trans ((separatorsFrom_sublist 0 false _).trans List.filter_sublist).subset
      hcontents

/-- The reports of a node: each warning with the token that it is about. -/
def nodeReports (reporter : Reporter) (node : Node) : List (Warning × (String × Token)) :=
  node.places.flatMap fun entry =>
    (((entry.1.nodes node).filter Node.followsBlank).flatMap Node.lead).map
      (Prod.mk (extraneousBlank reporter node entry.2))

/-- The warning is about the blanks before the token: they stand at a place of a group where the
table lets none stand. -/
def Concerns (reporter : Reporter) (tree : Node) (warning : Warning) (leaf : String × Token) :
    Prop :=
  ∃ node ∈ tree.postOrder, ∃ kind spot place, node.kind? = some kind ∧
    (kind, spot, place) ∈ spacingTable ∧
    leaf ∈ spot.leads node ∧ warning = extraneousBlank reporter node place

section Reports

variable (reporter : Reporter) {node tree : Node}

theorem nodeWarnings_eq (node : Node) :
    nodeWarnings reporter node = node.places.flatMap fun entry =>
      List.replicate (entry.1.count node) (extraneousBlank reporter node entry.2) := by
  cases node with
  | leaf => rfl
  | branch => rfl

theorem length_flatMap_lead {nodes : List Node} (h : ∀ node ∈ nodes, ∃ leaf, node.lead = [leaf]) :
    (nodes.flatMap Node.lead).length = nodes.length := by
  induction nodes with
  | nil => rfl
  | cons node nodes ih =>
    rw [List.forall_mem_cons] at h
    obtain ⟨leaf, hleaf⟩ := h.1
    rw [List.flatMap_cons, hleaf, List.singleton_append, List.length_cons, ih h.2, List.length_cons]

/-- A node of a tree is preceded by the same text as its first token. -/
theorem exists_lead_of_mem_nodes (h : ∀ inner ∈ node.postOrder, inner.WellBracketed) {spot : Spot}
    {child : Node} (hchild : child ∈ spot.nodes node) :
    ∃ token, child.lead = [(child.before, token)] :=
  child.exists_lead_eq fun inner hinner =>
    h inner (Node.mem_postOrder_of_mem_children (spot.nodes_subset_children node hchild) hinner)

theorem fst_nodeReports (h : ∀ inner ∈ node.postOrder, inner.WellBracketed) :
    (nodeReports reporter node).map Prod.fst = nodeWarnings reporter node := by
  rw [nodeReports, nodeWarnings_eq, List.map_flatMap]
  congr 1
  funext ⟨spot, place⟩
  have hlength : (((spot.nodes node).filter Node.followsBlank).flatMap Node.lead).length =
      spot.count node := by
    rw [Spot.count_eq, List.countP_eq_length_filter]
    refine length_flatMap_lead fun child hchild => ?_
    obtain ⟨token, htoken⟩ := exists_lead_of_mem_nodes h (List.mem_filter.1 hchild).1
    exact ⟨_, htoken⟩
  rw [List.map_map, ← hlength, ← List.map_const']
  rfl

/-- The reports of a node are about tokens that are charged to it. -/
theorem snd_nodeReports_sublist (node : Node) :
    ((nodeReports reporter node).map Prod.snd).Sublist node.charges := by
  rw [nodeReports, Node.charges, Node.spots, List.map_flatMap, List.flatMap_map]
  refine List.Sublist.flatMap_right _ fun entry _ => ?_
  rw [List.map_map, Spot.leads]
  have hid : (Prod.snd ∘ Prod.mk (extraneousBlank reporter node entry.2) : String × Token →
    String × Token) = id := rfl
  rw [hid, List.map_id]
  exact List.filter_sublist.flatMap _

theorem blank_of_mem_nodeReports (h : ∀ inner ∈ node.postOrder, inner.WellBracketed)
    (hnode : node ∈ tree.postOrder) {warning : Warning} {leaf : String × Token}
    (hreport : (warning, leaf) ∈ nodeReports reporter node) :
    (leaf.1 ≠ "" ∧ '\n' ∉ leaf.1.toList) ∧ Concerns reporter tree warning leaf := by
  obtain ⟨⟨spot, place⟩, hplace, hreport⟩ := List.mem_flatMap.1 hreport
  obtain ⟨leaf, hleaf, ⟨⟩⟩ := List.mem_map.1 hreport
  obtain ⟨child, hchild, hlead⟩ := List.mem_flatMap.1 hleaf
  obtain ⟨hchild, hblank⟩ := List.mem_filter.1 hchild
  refine ⟨?_, ?_⟩
  · obtain ⟨token, htoken⟩ := exists_lead_of_mem_nodes h hchild
    obtain rfl : leaf = (child.before, token) := by simpa [htoken] using hlead
    simpa [Node.followsBlank] using hblank
  · rw [Node.places] at hplace
    cases hkind : node.kind? with
    | none =>
      rw [hkind] at hplace
      cases hplace
    | some kind =>
      rw [hkind] at hplace
      exact ⟨node, hnode, kind, spot, place, hkind, mem_checksFor.1 hplace,
        List.mem_flatMap.2 ⟨child, hchild, hlead⟩, rfl⟩

end Reports

/-! ### Sources -/

/-- When the second parts of pairs are among the elements of a list, each as often as there, the
pairs have places of their own in the list. -/
theorem exists_injective_of_subperm {α β : Type} [DecidableEq β] {pairs : List (α × β)}
    {list : List β} (h : (pairs.map Prod.snd).Subperm list) :
    ∃ place : Fin (pairs.map Prod.fst).length → Fin list.length, Function.Injective place ∧
      ∀ i, ((pairs.map Prod.fst).get i, list.get (place i)) ∈ pairs := by
  have hlength : (pairs.map Prod.fst).length = (pairs.map Prod.snd).length := by
    rw [List.length_map, List.length_map]
  refine ⟨fun i => h.idxInj (i.cast hlength), fun i j hplace => ?_, fun i => ?_⟩
  · have hcast : i.cast hlength = j.cast hlength := h.idxInj_injective hplace
    have hval := congrArg Fin.val hcast
    exact Fin.ext hval
  have hplace : list.get (h.idxInj (i.cast hlength)) = (pairs.map Prod.snd).get (i.cast hlength) :=
    h.getElem_idxInj_eq_getElem
  have hpair : ((pairs.map Prod.fst).get i, (pairs.map Prod.snd).get (i.cast hlength)) =
      pairs.get (i.cast (by simp)) := by
    simp
  rw [hplace, hpair]
  exact List.get_mem _ _

/-- The warnings about a tree and the tokens that they are about. -/
theorem exists_reports {dialect : Dialect} {tree : Node} (reporter : Reporter)
    (h : ∀ inner ∈ tree.postOrder, inner.WellBracketed ∧ inner.FitsInside dialect ∧
      inner.StartsWithItem) :
    ∃ reports : List (Warning × (String × Token)), reports.map Prod.fst = checkTree reporter tree ∧
      (reports.map Prod.snd).Subperm tree.leaves ∧
      ∀ warning leaf, (warning, leaf) ∈ reports →
        (leaf.1 ≠ "" ∧ '\n' ∉ leaf.1.toList) ∧ Concerns reporter tree warning leaf := by
  have hwell : ∀ node ∈ tree.postOrder, ∀ inner ∈ node.postOrder, inner.WellBracketed :=
    fun node hnode inner hinner => (h inner (Node.mem_postOrder_trans hnode hinner)).1
  refine ⟨tree.postOrder.flatMap (nodeReports reporter), ?_, ?_, ?_⟩
  · rw [List.map_flatMap, checkTree]
    exact List.flatMap_congr fun node hnode => fst_nodeReports reporter (hwell node hnode)
  · rw [List.subperm_ext_iff]
    intro leaf _
    have hsub : ((tree.postOrder.flatMap (nodeReports reporter)).map Prod.snd).Sublist
        tree.chargesWithin := by
      rw [List.map_flatMap]
      exact List.Sublist.flatMap_right _ fun node _ => snd_nodeReports_sublist reporter node
    exact Nat.le_trans (hsub.count_le leaf) (count_charges_le leaf tree h).1
  · intro warning leaf hreport
    obtain ⟨node, hnode, hreport⟩ := List.mem_flatMap.1 hreport
    exact blank_of_mem_nodeReports reporter (hwell node hnode) hnode hreport

/-- Where no list, set, dictionary, tuple or call starts with a separator, each warning of the pass
over the tree is about the blanks before a token, and no two are about the same token. So a source
without such blanks has no warning. -/
theorem runPass_tree_injective [Text.CharNames] {version : Version} {source : Source} {tree : Node}
    (htree : buildTree (.of version (featuresOfTokens (tokenize source.text).tokens))
      source.text = .ok tree)
    (hstarts : ∀ node ∈ tree.postOrder, node.StartsWithItem) :
    ∃ warnings, runPass version source (tokenize source.text) .tree = .ok warnings ∧
      (∃ place : Fin warnings.length → Fin tree.leaves.length, Function.Injective place ∧
        ∀ i, ((tree.leaves.get (place i)).1 ≠ "" ∧ '\n' ∉ (tree.leaves.get (place i)).1.toList) ∧
          Concerns (.ofTokens source.name source.text (tokenize source.text).tokens) tree
            (warnings.get i) (tree.leaves.get (place i))) ∧
      ((∀ leaf ∈ tree.leaves, leaf.1 = "" ∨ '\n' ∈ leaf.1.toList) → warnings = []) := by
  have hcomplete := error_eq_none_of_buildTree htree
  have hfits := fitsThroughout_of_buildTree htree
  have hwell := wellBracketed_of_buildTree hcomplete htree
  obtain ⟨reports, hwarnings, hleaves, hreports⟩ :=
    exists_reports (.ofTokens source.name source.text (tokenize source.text).tokens)
      fun inner hinner => ⟨hwell inner hinner, hfits inner hinner, hstarts inner hinner⟩
  refine ⟨reports.map Prod.fst, ?_, ?_, fun hnone => ?_⟩
  · rw [runPass_tree hcomplete, hwarnings]
    exact congrArg (Except.map _) htree
  · obtain ⟨place, hinjective, hplace⟩ := exists_injective_of_subperm hleaves
    exact ⟨place, hinjective, fun i => hreports _ _ (hplace i)⟩
  · rw [List.map_eq_nil_iff, List.eq_nil_iff_forall_not_mem]
    rintro ⟨warning, leaf⟩ hreport
    obtain ⟨⟨hne, hline⟩, -⟩ := hreports warning leaf hreport
    obtain hempty | hfeed := hnone leaf (hleaves.subset (List.mem_map_of_mem hreport))
    · exact hne hempty
    · exact hline hfeed

/-- A call of a list and an index, with blanks in all places: the blanks before the list are
reported by the call alone, and those before the bracket of the index by the index alone. -/
theorem runPass_tree_injective_nested :
    let source := Source.ofText "m.py" "f ( [ 1 , 2 ], a [ 0 ] )\n".toList
    ∃ tree, buildTree (.of .python3 (featuresOfTokens (tokenize source.text).tokens))
      source.text = .ok tree ∧ (∀ node ∈ tree.postOrder, node.StartsWithItem) ∧
      ∃ warnings, runPass .python3 source (tokenize source.text) .tree = .ok warnings ∧
        warnings.length = 9 ∧
        ∃ place : Fin warnings.length → Fin tree.leaves.length, Function.Injective place := by
  intro source
  obtain ⟨tree, htree, hcheck⟩ : ∃ tree,
      buildTree (.of .python3 (featuresOfTokens (tokenize source.text).tokens))
        source.text = .ok tree ∧ decide (∀ node ∈ tree.postOrder, node.StartsWithItem) = true :=
    exists_of_any_toOption (by decide +kernel)
  have hstarts := of_decide_eq_true hcheck
  obtain ⟨warnings, hrun, ⟨place, hinjective, -⟩, -⟩ := runPass_tree_injective htree hstarts
  have hlength : ((runPass .python3 source (tokenize source.text) .tree).toOption.any
      (·.length == 9)) = true := by
    decide +kernel
  rw [hrun] at hlength
  exact ⟨tree, htree, hstarts, warnings, hrun, beq_iff_eq.mp hlength, place, hinjective⟩

end PythonLint
