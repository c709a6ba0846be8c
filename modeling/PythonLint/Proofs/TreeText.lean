import PythonLint.Proofs.LexemeOrder
import PythonLint.Tree.Build

/-!
# The text of a tree

A tree is lossless: the texts before its tokens and the tokens themselves, read from left to right,
are the source that it was built from.

Two facts meet here. The builder neither drops nor moves a token: after every step its leaves are
those from before and the new one, and the end of the source leaves no group and no statement open.
And the tokens lie in the source one after the other, so that the text between the end of one and
the start of the next is the gap between them, although both ends went from bytes to lines and
columns and back.

Main statements: `Builder.push_cases`, `Builder.push_error_cases`, `leaves_of_treeOfTokens`,
`textOfLeaves_attachText`, `text_of_buildTree`.
-/

namespace PythonLint

open Text

variable {builder next : Builder} {dialect : Dialect} {lexeme : Lexeme}
    {items : List (String × Token)}
  {before : String} {token : Token}

/-- The text of leaves: before each token what precedes it. -/
def textOfLeaves (leaves : List (String × Token)) : List Char :=
  leaves.flatMap fun leaf => leaf.1.toList ++ leaf.2.lexeme.toList

def Node.text (node : Node) : List Char :=
  textOfLeaves node.leaves

/-! ### Leaves of nodes -/

namespace Node

theorem leavesOfList_append (a b : List Node) :
    leavesOfList (a ++ b) = leavesOfList a ++ leavesOfList b := by
  induction a with
  | nil => rfl
  | cons node a ih => rw [List.cons_append, leavesOfList, leavesOfList, ih, List.append_assoc]

theorem leavesOfList_reverse_cons (node : Node) (nodes : List Node) :
    leavesOfList (node :: nodes).reverse = leavesOfList nodes.reverse ++ node.leaves := by
  rw [List.reverse_cons, leavesOfList_append, leavesOfList, leavesOfList, List.append_nil]

theorem leaves_ofChildren (kind : BranchKind) (children : List Node) :
    (ofChildren kind children).leaves = leavesOfList children := by
  unfold ofChildren
  split <;> rfl

end Node

/-! ### Leaves of a builder -/

/-- The leaves of an open group up to its opening bracket, those before the group included. -/
def Enclosing.leaves (group : Enclosing) : List (String × Token) :=
  Node.leavesOfList group.siblings.reverse ++ [(group.before, group.opening)]

namespace Builder

/-- The leaves of what has been built so far: complete statements, then open groups from the outside
in. -/
def leaves (builder : Builder) : List (String × Token) :=
  Node.leavesOfList builder.statements.reverse ++
    builder.enclosing.reverse.flatMap Enclosing.leaves ++
    Node.leavesOfList builder.nodes.reverse

/-- Nothing is open: no group and no statement. -/
def Settled (builder : Builder) : Prop :=
  builder.nodes = [] ∧ builder.enclosing = []

theorem push_cases (h : builder.push dialect (before, token) = .ok next) :
    (token.kind = .op ∧ opensGroup token.lexeme = true ∧
      next = { builder with
        nodes := [], enclosing := ⟨before, token, builder.nodes⟩ :: builder.enclosing }) ∨
    (token.kind = .op ∧ closesGroup token.lexeme = true ∧ ∃ group outer,
      builder.enclosing = group :: outer ∧ token.lexeme = closingOf group.opening.lexeme ∧
      next = { builder with
        nodes := .ofChildren
          (classify dialect outer.isEmpty group.opening.lexeme group.siblings builder.nodes.reverse)
          (.leaf group.before group.opening :: builder.nodes.reverse ++ [.leaf before token]) ::
            group.siblings
        enclosing := outer }) ∨
    (token.kind = .newline ∧ builder.enclosing = [] ∧
      next = builder.endStatement (.leaf before token :: builder.nodes)) ∨
    (token.kind = .endMarker ∧ builder.enclosing = [] ∧
      next = { builder.endStatement builder.nodes with
        statements := .leaf before token :: (builder.endStatement builder.nodes).statements }) ∨
    (¬(token.kind = .op ∧ opensGroup token.lexeme = true) ∧
      ¬(token.kind = .op ∧ closesGroup token.lexeme = true) ∧
      token.kind ≠ .newline ∧ token.kind ≠ .endMarker ∧
      next = { builder with nodes := .leaf before token :: builder.nodes }) := by
  unfold push at h
  simp only at h
  by_cases hopen : token.kind = .op ∧ opensGroup token.lexeme = true
  · rw [if_pos hopen] at h
    cases h
    exact .inl ⟨hopen.1, hopen.2, rfl⟩
  rw [if_neg hopen] at h
  by_cases hclose : token.kind = .op ∧ closesGroup token.lexeme = true
  · rw [if_pos hclose] at h
    refine .inr (.inl ⟨hclose.1, hclose.2, ?_⟩)
    unfold close at h
    split at h
    · cases h
    · next group outer henclosing =>
      split at h
      · next hmatch =>
        cases h
        exact ⟨group, outer, henclosing, hmatch, rfl⟩
      · cases h
  rw [if_neg hclose] at h
  split at h
  · next hend =>
    refine .inr (.inr ?_)
    unfold endLine at h
    split at h
    · cases h
    · next henclosing =>
      split at h
      · next hkind =>
        cases h
        exact .inr (.inl ⟨hkind, henclosing, rfl⟩)
      · next hkind =>
        cases h
        exact .inl ⟨hend.resolve_right hkind, henclosing, rfl⟩
  · next hother =>
    cases h
    rw [not_or] at hother
    exact .inr (.inr (.inr (.inr ⟨hopen, hclose, hother.1, hother.2, rfl⟩)))

theorem push_error_cases {error : AnalysisError}
    (h : builder.push dialect (before, token) = .error error) :
    (token.kind = .op ∧ closesGroup token.lexeme = true ∧
      ((builder.enclosing = [] ∧ error = bracketError (.unmatched token.lexeme) token.start) ∨
        ∃ group outer, builder.enclosing = group :: outer ∧
          token.lexeme ≠ closingOf group.opening.lexeme ∧
          error = bracketError (.mismatched token.lexeme group.opening.lexeme) token.start)) ∨
    ((token.kind = .newline ∨ token.kind = .endMarker) ∧ ∃ group outer,
      builder.enclosing = group :: outer ∧
      error = bracketError (.unclosed group.opening.lexeme) group.opening.start) := by
  unfold push at h
  simp only at h
  split at h
  · cases h
  split at h
  · next hclose =>
    refine .inl ⟨hclose.1, hclose.2, ?_⟩
    unfold close at h
    split at h
    · next henclosing =>
      cases h
      exact .inl ⟨henclosing, rfl⟩
    · next group outer henclosing =>
      split at h
      · cases h
      · next hmatch =>
        cases h
        exact .inr ⟨group, outer, henclosing, hmatch, rfl⟩
  split at h
  · next hend =>
    refine .inr ⟨hend, ?_⟩
    unfold endLine at h
    split at h
    · next group outer henclosing =>
      cases h
      exact ⟨group, outer, henclosing, rfl⟩
    · simp only at h
      split at h <;> cases h
  · cases h

/-- Ending a statement with the given nodes in place of the builder's own moves no leaf. -/
theorem leaves_endStatement (henclosing : builder.enclosing = []) (nodes : List Node)
    (hnodes : nodes = [] → builder.nodes = []) :
    (builder.endStatement nodes).leaves =
      Node.leavesOfList builder.statements.reverse ++ Node.leavesOfList nodes.reverse := by
  unfold endStatement
  cases nodes with
  | nil =>
    rw [List.isEmpty_nil, if_pos rfl]
    simp [leaves, henclosing, hnodes rfl, Node.leavesOfList]
  | cons node nodes =>
    rw [List.isEmpty_cons, if_neg Bool.false_ne_true]
    simp only [leaves, henclosing, Node.leavesOfList_reverse_cons, Node.leaves_ofChildren,
      List.reverse_nil, List.flatMap_nil, Node.leavesOfList, List.append_nil]

/-- Ending a statement settles a builder without open groups. -/
theorem settled_endStatement (henclosing : builder.enclosing = []) (nodes : List Node)
    (hnodes : nodes = [] → builder.nodes = []) : (builder.endStatement nodes).Settled := by
  unfold endStatement
  cases nodes with
  | nil =>
    rw [List.isEmpty_nil, if_pos rfl]
    exact ⟨hnodes rfl, henclosing⟩
  | cons node nodes =>
    rw [List.isEmpty_cons, if_neg Bool.false_ne_true]
    exact ⟨rfl, henclosing⟩

theorem enclosing_endStatement (builder : Builder) (nodes : List Node) :
    (builder.endStatement nodes).enclosing = builder.enclosing := by
  unfold endStatement
  split <;> rfl

theorem Settled.leaves_eq (h : builder.Settled) :
    builder.leaves = Node.leavesOfList builder.statements.reverse := by
  simp [leaves, h.1, h.2, Node.leavesOfList]

/-- A step adds its token after all leaves, whatever groups it opens, closes or moves. -/
theorem leaves_of_push {item : String × Token} (h : builder.push dialect item = .ok next) :
    next.leaves = builder.leaves ++ [item] := by
  obtain ⟨before, token⟩ := item
  rcases push_cases h with ⟨-, -, rfl⟩ | ⟨-, -, group, outer, henclosing, -, rfl⟩ |
    ⟨-, henclosing, rfl⟩ | ⟨-, henclosing, rfl⟩ | ⟨-, -, -, -, rfl⟩
  · simp [leaves, Enclosing.leaves, Node.leavesOfList]
  · simp [leaves, henclosing, Enclosing.leaves, Node.leavesOfList, Node.leavesOfList_append,
      Node.leaves_ofChildren, Node.leaves]
  · rw [leaves_endStatement henclosing _ (fun hnil => by cases hnil)]
    simp [leaves, henclosing, Node.leavesOfList_append, Node.leavesOfList, Node.leaves]
  · have hsettled := settled_endStatement henclosing builder.nodes id
    have hleaves := leaves_endStatement henclosing builder.nodes id
    rw [hsettled.leaves_eq] at hleaves
    simp [leaves, henclosing, hsettled.1, hsettled.2, Node.leavesOfList_append, Node.leavesOfList,
      Node.leaves, hleaves]
  · simp [leaves, Node.leavesOfList_append, Node.leavesOfList, Node.leaves]

/-- What every step of the builder keeps, a run keeps. -/
theorem invariant_of_foldlM {P : Builder → Prop} (hstep : ∀ builder before token next, P builder →
      builder.push dialect (before, token) = .ok next → P next)
    {final : Builder} (h : P builder) (hrun : items.foldlM (push dialect) builder = .ok final) :
    P final := by
  induction items generalizing builder with
  | nil =>
    cases hrun
    exact h
  | cons item items ih =>
    rw [List.foldlM_cons] at hrun
    obtain ⟨next, hpush, hrest⟩ := exists_of_bind_eq_ok hrun
    exact ih (hstep builder item.1 item.2 next h hpush) hrest

/-- A run of the builder collects all its tokens in order. -/
theorem leaves_of_foldlM {final : Builder} (h : items.foldlM (push dialect) builder = .ok final) :
    final.leaves = builder.leaves ++ items := by
  induction items generalizing builder with
  | nil =>
    cases h
    rw [List.append_nil]
  | cons item items ih =>
    rw [List.foldlM_cons] at h
    obtain ⟨next, hpush, hrest⟩ := exists_of_bind_eq_ok h
    rw [ih hrest, leaves_of_push hpush, List.append_assoc, List.singleton_append]

theorem settled_of_push_endMarker (hkind : token.kind = .endMarker)
    (h : builder.push dialect (before, token) = .ok next) : next.Settled := by
  rcases push_cases h with ⟨hop, -⟩ | ⟨hop, -⟩ | ⟨hline, -⟩ | ⟨-, henclosing, rfl⟩ |
    ⟨-, -, -, hend, -⟩
  · rw [hkind] at hop
    cases hop
  · rw [hkind] at hop
    cases hop
  · rw [hkind] at hline
    cases hline
  · exact settled_endStatement henclosing builder.nodes id
  · exact absurd hkind hend

end Builder

/-- The leaves of a tree are the tokens that it was built from, when they end with the end of a
source. -/
theorem leaves_of_treeOfTokens (hkind : token.kind = .endMarker) {tree : Node}
    (h : treeOfTokens dialect (items ++ [(before, token)]) = .ok tree) :
    tree.leaves = items ++ [(before, token)] := by
  unfold treeOfTokens at h
  obtain ⟨final, hrun, hsource⟩ := exists_of_bind_eq_ok h
  cases hsource
  have hleaves := Builder.leaves_of_foldlM hrun
  have hsettled : final.Settled := by
    rw [List.foldlM_append] at hrun
    obtain ⟨builder, -, hlast⟩ := exists_of_bind_eq_ok hrun
    rw [List.foldlM_cons] at hlast
    obtain ⟨next, hpush, hend⟩ := exists_of_bind_eq_ok hlast
    cases hend
    exact Builder.settled_of_push_endMarker hkind hpush
  rw [Node.leaves_ofChildren, ← hsettled.leaves_eq, hleaves]
  rfl

/-! ### Tokens of a source -/

/-- Grouping pieces by logical line keeps all of them in order. -/
theorem flatten_logicalLines (pieces : List Piece) :
    (logicalLines pieces).1.flatten ++ (logicalLines pieces).2 = pieces := by
  induction pieces with
  | nil => rfl
  | cons piece pieces ih =>
    unfold logicalLines
    generalize logicalLines pieces = split at ih
    obtain ⟨groups, tail⟩ := split
    rw [← ih]
    by_cases hkind : piece.kind = .newline
    · simp [hkind]
    · cases groups with
      | nil => simp [hkind]
      | cons group groups => simp [hkind]

/-- The logical line of a token is all that is added to its piece. -/
theorem toPiece_tokensOfLine (lines : List (List Char)) (pieces : List Piece) :
    (tokensOfLine lines pieces).map Token.toPiece = pieces := by
  rw [tokensOfLine, List.map_map]
  exact List.map_id pieces

theorem toPiece_flatMap_tokensOfLine (lines : List (List Char)) (groups : List (List Piece)) :
    (groups.flatMap (tokensOfLine lines)).map Token.toPiece = groups.flatten := by
  induction groups with
  | nil => rfl
  | cons group groups ih =>
    rw [List.flatMap_cons, List.map_append, toPiece_tokensOfLine, ih, List.flatten_cons]

/-- The tokens of a source without errors are the pieces of its lexemes and the end of the
source. -/
theorem toPiece_tokenize {text : List Char} (h : (tokenize text).error = none) :
    (tokenize text).tokens.map Token.toPiece =
      piecesOf text (lines text) (scanModule (untabify text)).lexemes ++ [endPiece text] := by
  revert h
  simp only [tokenize]
  split
  · intro h
    cases h
  · intro _
    have hpieces := flatten_logicalLines
      (piecesOf text (lines text) (scanModule (untabify text)).lexemes)
    rw [toPiece_flatMap_tokensOfLine, List.flatten_append, List.flatten_singleton,
      ← List.append_assoc, hpieces]

theorem kind_pieceOf (text : List Char) (lines : List (List Char)) (lexeme : Lexeme) (code : Nat) :
    (pieceOf text lines lexeme code).kind = kindOf lexeme.tok := by
  obtain ⟨tok, start, stop⟩ := lexeme
  cases tok <;> rfl

theorem map_kind_piecesOf (text : List Char) (lines : List (List Char)) (lexemes : List Lexeme) :
    (piecesOf text lines lexemes).map Piece.kind = lexemes.map fun lexeme => kindOf lexeme.tok := by
  induction lexemes with
  | nil => rfl
  | cons lexeme rest ih => rw [piecesOf, List.map_cons, ih, kind_pieceOf, List.map_cons]

theorem exists_pieceOf_of_mem {text : List Char} {lines : List (List Char)} {lexemes : List Lexeme}
    {piece : Piece} (h : piece ∈ piecesOf text lines lexemes) :
    ∃ lexeme ∈ lexemes, ∃ code, piece = pieceOf text lines lexeme code := by
  induction lexemes with
  | nil => cases h
  | cons lexeme rest ih =>
    rw [piecesOf] at h
    rcases List.mem_cons.1 h with rfl | h
    · exact ⟨lexeme, List.mem_cons_self, _, rfl⟩
    · obtain ⟨other, hmem, hpiece⟩ := ih h
      exact ⟨other, List.mem_cons_of_mem _ hmem, hpiece⟩

theorem isBlockMark_pieceOf (text : List Char) (lines : List (List Char))
    (h : lexeme.tok.IsBlockMark) (code : Nat) :
    (pieceOf text lines lexeme code).kind.isBlockMark = true := by
  unfold pieceOf
  rcases h with h | h <;> rw [h] <;> rfl

/-- Any other lexeme becomes a token that carries its text and stands where it stands. -/
theorem pieceOf_of_not_isBlockMark (text : List Char) (lines : List (List Char))
    (h : ¬lexeme.tok.IsBlockMark) (code : Nat) :
    pieceOf text lines lexeme code =
      ⟨kindOf lexeme.tok, String.ofList (sliceBytes text lexeme.start lexeme.stop),
        locationAt text lexeme.start,
        if lexeme.tok = .newline then
          ⟨(locationAt text lexeme.start).line, (locationAt text lexeme.start).column +
            (sliceBytes text lexeme.start lexeme.stop).length⟩
        else locationAt text lexeme.stop⟩ := by
  unfold pieceOf
  split
  · next htok => exact absurd (.inl htok) h
  · next htok => exact absurd (.inr htok) h
  · rfl

theorem isBlockMark_kindOf {tok : Tok} (h : ¬tok.IsBlockMark) :
    (kindOf tok).isBlockMark = false := by
  cases tok with
  | indent => exact absurd (.inl rfl) h
  | dedent => exact absurd (.inr rfl) h
  | _ => rfl

/-- A word of a source keeps its ends when they are turned into locations and back. -/
theorem offsetAt_pieceOf {before gap word : List Char} (hcode : ¬lexeme.tok.IsBlockMark)
    (hnewline : lexeme.tok = .newline → IsLineEnding word)
    (hstart : lexeme.start = byteLength (before ++ gap))
    (hstop : lexeme.stop = byteLength (before ++ gap ++ word)) (rest : List Char)
    (lines : List (List Char)) (code : Nat) :
    let text := before ++ gap ++ word ++ rest
    let piece := pieceOf text lines lexeme code
    piece.lexeme = String.ofList word ∧ offsetAt text piece.start = byteLength (before ++ gap) ∧
      offsetAt text piece.stop = byteLength (before ++ gap ++ word) := by
  intro text piece
  have hword : sliceBytes text lexeme.start lexeme.stop = word := by
    rw [hstart, hstop]
    exact sliceBytes_append _ _ _
  have hfrom : locationAt text lexeme.start = Location.origin.after (before ++ gap) := by
    rw [hstart]
    have h := locationAt_append (before ++ gap) (word ++ rest)
    rwa [← List.append_assoc] at h
  have hto : locationAt text lexeme.stop = Location.origin.after (before ++ gap ++ word) := by
    rw [hstop]
    exact locationAt_append _ _
  have hpiece := pieceOf_of_not_isBlockMark text lines hcode code
  rw [hword, hfrom, hto] at hpiece
  refine ⟨?_, ?_, ?_⟩
  · rw [show piece = _ from hpiece]
  · rw [show piece = _ from hpiece]
    have h := offsetAt_after (before ++ gap) (word ++ rest)
    rwa [← List.append_assoc] at h
  · rw [show piece = _ from hpiece]
    simp only
    by_cases hline : lexeme.tok = .newline
    · rw [if_pos hline]
      exact offsetAt_after_lineEnd _ _ (hnewline hline).not_mem_dropLast
    · rw [if_neg hline]
      exact offsetAt_after _ _

/-- The tokens of a source that mark no blocks. -/
def codePieces (pieces : List Piece) : List Piece :=
  pieces.filter fun piece => !piece.kind.isBlockMark

theorem codePieces_cons_mark (text : List Char) (lines : List (List Char))
    (h : lexeme.tok.IsBlockMark) (code : Nat) (pieces : List Piece) :
    codePieces (pieceOf text lines lexeme code :: pieces) = codePieces pieces := by
  rw [codePieces, List.filter_cons_of_neg, codePieces]
  simp [isBlockMark_pieceOf text lines h]

theorem codePieces_cons_word (text : List Char) (lines : List (List Char))
    (h : ¬lexeme.tok.IsBlockMark) (code : Nat) (pieces : List Piece) :
    codePieces (pieceOf text lines lexeme code :: pieces) =
      pieceOf text lines lexeme code :: codePieces pieces := by
  rw [codePieces, List.filter_cons_of_pos, codePieces]
  rw [pieceOf_of_not_isBlockMark text lines h]
  simp [isBlockMark_kindOf h]

/-- Tokens whose lexemes are cut from the rest of a source spell that rest, when the text before
them has been spelled up to `last` and the end of the source follows them. -/
theorem textOfLeaves_attachText {lexemes : List Lexeme} {text before rest : List Char}
    (htext : text = before ++ rest) (h : CutFrom before rest lexemes) (lines : List (List Char))
    {last : Location} (hlast : offsetAt text last = byteLength before) {tokens : List Token}
    (htokens : tokens.map Token.toPiece =
      codePieces (piecesOf text lines lexemes) ++ [endPiece text]) :
    textOfLeaves (attachText text last tokens) = rest := by
  -- Not an induction on `h`: the gap of a mark goes to the lexeme after it.
  induction lexemes generalizing before rest last tokens with
  | nil =>
    obtain ⟨token, rfl, htoken⟩ : ∃ token, tokens = [token] ∧ token.toPiece = endPiece text :=
      List.map_eq_singleton_iff.1 htokens
    have hlexeme : token.lexeme = "" := by rw [htoken, endPiece]
    have hstart : token.start = Location.origin.after text := by
      rw [htoken, endPiece]
      have hend := locationAt_append text []
      rwa [List.append_nil] at hend
    have hbetween : textBetween text last token.start = rest := by
      have hstop := offsetAt_after text []
      rw [List.append_nil] at hstop
      subst htext
      have h := textBetween_of_offsets before rest [] last token.start
      rw [List.append_nil] at h
      exact h hlast (by rw [hstart, hstop])
    simp [attachText, textOfLeaves, hbetween, hlexeme]
  | cons lexeme lexemes ih =>
    rw [piecesOf] at htokens
    cases h with
    | mark gap hmark hstop hrest =>
      rw [codePieces_cons_mark text lines hmark] at htokens
      exact ih htext hrest.widen hlast htokens
    | @word _ gap word tail _ _ hcode hnewline hstart hstop hrest =>
      rw [codePieces_cons_word text lines hcode, List.cons_append] at htokens
      obtain ⟨token, others, rfl, htoken, hothers⟩ := List.map_eq_cons_iff.1 htokens
      have hsplit : text = before ++ gap ++ word ++ tail := by
        rw [htext]
        simp only [List.append_assoc]
      obtain ⟨hlexeme, hfrom, hto⟩ := offsetAt_pieceOf hcode hnewline hstart hstop tail lines
        ((lexemes.head?.map Lexeme.start).getD lexeme.stop)
      rw [← hsplit, ← htoken] at hlexeme hfrom hto
      have hbetween : textBetween text last token.start = gap := by
        have h := textBetween_of_offsets before gap (word ++ tail) last token.start
        rw [← List.append_assoc, ← hsplit] at h
        exact h hlast hfrom
      have hspelled := ih hsplit hrest hto hothers
      rw [attachText, textOfLeaves, List.flatMap_cons, hbetween, hlexeme]
      rw [textOfLeaves] at hspelled
      rw [hspelled, String.toList_ofList, String.toList_ofList]

theorem snd_attachText (text : List Char) (last : Location) (tokens : List Token) :
    (attachText text last tokens).map Prod.snd = tokens := by
  induction tokens generalizing last with
  | nil => rfl
  | cons token tokens ih => rw [attachText, List.map_cons, ih]

/-- The tokens that a tree is built from: all of a source but the marks of blocks. -/
theorem toPiece_filter_tokenize {text : List Char} (h : (tokenize text).error = none) :
    ((tokenize text).tokens.filter fun token => !token.kind.isBlockMark).map Token.toPiece =
      codePieces (piecesOf text (lines text) (scanModule (untabify text)).lexemes) ++
        [endPiece text] := by
  have hmap := List.filter_map (f := Token.toPiece) (p := fun piece => !piece.kind.isBlockMark)
    (l := (tokenize text).tokens)
  rw [toPiece_tokenize h, List.filter_append] at hmap
  exact hmap.symm

/-- The text of the tree of a source is the source: nothing is dropped, repeated or moved. -/
theorem text_of_buildTree {dialect : Dialect} {text : List Char} {tree : Node}
    (h : buildTree dialect text = .ok tree) : tree.text = text := by
  unfold buildTree treeOfStream at h
  set tokens := (tokenize text).tokens.filter fun token => !token.kind.isBlockMark with htokens
  cases htree : treeOfTokens dialect (attachText text ⟨1, 0⟩ tokens) with
  | error fault =>
    simp only [htree] at h
    cases h
  | ok built =>
    simp only [htree, bind, Except.bind] at h
    split at h
    · cases h
    · next hnone =>
      obtain rfl : built = tree := by cases h; rfl
      have hpieces := toPiece_filter_tokenize hnone
      rw [← htokens] at hpieces
      have hspelled := textOfLeaves_attachText (List.nil_append text).symm
        (scanModule_untabify_cutFrom text) (lines text) (offsetAt_after [] text) hpieces
      -- The last token is the end of the source, which settles the builder.
      obtain ⟨init, ends, hconcat, -, hend⟩ := List.map_eq_append_iff.1 hpieces
      obtain ⟨final, rfl, hfinal⟩ := List.map_eq_singleton_iff.1 hend
      have hitems := snd_attachText text ⟨1, 0⟩ tokens
      rw [hconcat] at hitems
      obtain ⟨items, lastItems, hattach, -, hlast⟩ := List.map_eq_append_iff.1 hitems
      obtain ⟨⟨before, token⟩, rfl, rfl⟩ := List.map_eq_singleton_iff.1 hlast
      have hkind : token.kind = .endMarker := by rw [show token.toPiece = _ from hfinal, endPiece]
      rw [← hconcat] at hattach
      rw [hattach] at htree
      rw [Node.text, leaves_of_treeOfTokens hkind htree, ← hattach]
      exact hspelled

/-- All three line ends, a margin with a tab, nested groups over two lines and blanks at the end. -/
theorem text_of_buildTree_lineEnds :
    ∃ tree, buildTree ⟨false, false⟩ "if é:\r\n\tf(x,\n [1] ) # c\ry\r\n ".toList = .ok tree ∧
      tree.text = "if é:\r\n\tf(x,\n [1] ) # c\ry\r\n ".toList := by
  have hok : (buildTree ⟨false, false⟩
      "if é:\r\n\tf(x,\n [1] ) # c\ry\r\n ".toList).toOption.isSome = true := by
    decide +kernel
  rcases htree : buildTree ⟨false, false⟩
    "if é:\r\n\tf(x,\n [1] ) # c\ry\r\n ".toList with fault | tree
  · rw [htree] at hok
    cases hok
  · exact ⟨tree, rfl, text_of_buildTree htree⟩

end PythonLint
