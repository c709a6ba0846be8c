import PythonLint.Analysis
import PythonLint.Position
import PythonLint.Token.Stream
import PythonLint.Tree.Classify

/-!
# Building the tree of a source

The tokens are taken in order, those that only mark blocks left out. An opening bracket starts a
group, a closing one completes it, and a line end completes a statement.
-/

namespace PythonLint

/-- Tokens with the text before each of them, when the token before the first one ends at `last`. -/
def attachText (text : List Char) (last : Location) : List Token → List (String × Token)
  | [] => []
  | token :: rest =>
    (String.ofList (textBetween text last token.start), token) :: attachText text token.stop rest

/-- A group that is still open: its opening bracket and the nodes before it, the nearest first. -/
structure Enclosing where
  before : String
  opening : Token
  /-- The nodes before the opening bracket, the nearest first. -/
  siblings : List Node

/-- What has been built so far. -/
structure Builder where
  /-- The complete statements, the last first. -/
  statements : List Node
  /-- The nodes of the innermost open group or statement, the last first. -/
  nodes : List Node
  /-- The open groups, the innermost first. -/
  enclosing : List Enclosing

def bracketError (fault : BracketFault) (location : Location) : AnalysisError :=
  .grammar (.bracket fault) location

/-- The bracket that closes what `opening` opens. -/
def closingOf (opening : String) : String :=
  if opening = "(" then ")" else if opening = "[" then "]" else "\x7d"

def opensGroup (text : String) : Bool :=
  ["(", "[", "\x7b"].contains text

def closesGroup (text : String) : Bool :=
  [")", "]", "\x7d"].contains text

namespace Builder

def empty : Builder := ⟨[], [], []⟩

def close (dialect : Dialect) (before : String) (token : Token) (builder : Builder) :
    Except AnalysisError Builder :=
  match builder.enclosing with
  | [] => .error (bracketError (.unmatched token.lexeme) token.start)
  | group :: outer =>
    if token.lexeme = closingOf group.opening.lexeme then
      let contents := builder.nodes.reverse
      let kind := classify dialect outer.isEmpty group.opening.lexeme group.siblings contents
      let node := Node.ofChildren kind
        (.leaf group.before group.opening :: contents ++ [.leaf before token])
      .ok { builder with nodes := node :: group.siblings, enclosing := outer }
    else
      .error (bracketError (.mismatched token.lexeme group.opening.lexeme) token.start)

/-- The builder after a statement with the given nodes, the last first. A statement without nodes is
none. -/
def endStatement (builder : Builder) (nodes : List Node) : Builder :=
  if nodes.isEmpty then builder
  else { builder with
    statements := .ofChildren .statement nodes.reverse :: builder.statements
    nodes := [] }

/-- The builder after a line end or the end of the source. The line end belongs to its statement. -/
def endLine (before : String) (token : Token) (builder : Builder) : Except AnalysisError Builder :=
  match builder.enclosing with
  | group :: _ => .error (bracketError (.unclosed group.opening.lexeme) group.opening.start)
  | [] =>
    let leaf := Node.leaf before token
    if token.kind = .endMarker then
      let ended := builder.endStatement builder.nodes
      .ok { ended with statements := leaf :: ended.statements }
    else .ok (builder.endStatement (leaf :: builder.nodes))

def push (dialect : Dialect) (builder : Builder) (item : String × Token) :
    Except AnalysisError Builder :=
  let (before, token) := item
  if token.kind = .op ∧ opensGroup token.lexeme then
    .ok { builder with nodes := [], enclosing :=
      ⟨before, token, builder.nodes⟩ :: builder.enclosing }
  else if token.kind = .op ∧ closesGroup token.lexeme then builder.close dialect before token
  else if token.kind = .newline ∨ token.kind = .endMarker then builder.endLine before token
  else .ok { builder with nodes := .leaf before token :: builder.nodes }

end Builder

def treeOfTokens (dialect : Dialect) (items : List (String × Token)) :
    Except AnalysisError Node := do
  let builder ← items.foldlM (Builder.push dialect) .empty
  return .ofChildren .source builder.statements.reverse

/-- The tree of a source with the given token stream, when the stream is complete. -/
def treeOfStream (dialect : Dialect) (text : List Char) (stream : TokenStream) :
    Except AnalysisError Node := do
  let tokens := stream.tokens.filter fun token => !token.kind.isBlockMark
  let tree ← treeOfTokens dialect (attachText text ⟨1, 0⟩ tokens)
  match stream.error with
  | some error => .error (.tokenization error)
  | none => return tree

def buildTree (dialect : Dialect) (text : List Char) : Except AnalysisError Node :=
  treeOfStream dialect text (tokenize text)

end PythonLint
