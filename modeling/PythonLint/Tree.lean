import PythonLint.Token

/-!
# Bracket trees

A source as a tree of its tokens: statements hold tokens and bracket groups, and a bracket group
holds its two brackets and all that stands between them. Every leaf keeps the text between the token
before it and itself, so that nothing of the source is lost.
-/

namespace PythonLint

/-- What a node with children stands for. -/
inductive BranchKind where
  | source
  | statement
  | listDisplay
  | subscript
  | slice
  | dictDisplay
  | setDisplay
  | tupleDisplay
  | parenthesized
  | callArguments
  | parameters
deriving DecidableEq, Repr

namespace BranchKind

def label : BranchKind → String
  | source => "Module"
  | statement => "Statement"
  | listDisplay => "ListDisplay"
  | subscript => "Subscript"
  | slice => "Slice"
  | dictDisplay => "DictDisplay"
  | setDisplay => "SetDisplay"
  | tupleDisplay => "TupleDisplay"
  | parenthesized => "Parenthesized"
  | callArguments => "CallArguments"
  | parameters => "Parameters"

def isGroup (kind : BranchKind) : Bool :=
  kind ≠ source && kind ≠ statement

end BranchKind

/-- A token with the text before it, or a node with children. A node with children starts with its
first child and ends with its last. -/
inductive Node where
  | leaf (before : String) (token : Token)
  | branch (kind : BranchKind) (before : String) (start stop : Location) (children : List Node)

namespace Node

/-- The text between the token before a node and the node. -/
def before : Node → String
  | leaf before _ => before
  | branch _ before _ _ _ => before

def start : Node → Location
  | leaf _ token => token.start
  | branch _ _ start _ _ => start

def stop : Node → Location
  | leaf _ token => token.stop
  | branch _ _ _ stop _ => stop

def children : Node → List Node
  | leaf _ _ => []
  | branch _ _ _ _ children => children

def ofChildren (kind : BranchKind) (children : List Node) : Node :=
  match children.head?, children.getLast? with
  | some first, some last => branch kind first.before first.start last.stop children
  | _, _ => branch kind "" ⟨1, 0⟩ ⟨1, 0⟩ children

def isOp (text : String) : Node → Bool
  | leaf _ token => token.isOp text
  | branch _ _ _ _ _ => false

def isKeyword (text : String) : Node → Bool
  | leaf _ token => token.kind == .keyword && token.lexeme == text
  | branch _ _ _ _ _ => false

/-- There is text before the node, all of it on the same line. -/
def followsBlank (node : Node) : Bool :=
  !node.before.isEmpty && !node.before.toList.contains '\n'

/-- What stands between the brackets of a group. -/
def contents : Node → List Node
  | leaf _ _ => []
  | branch kind _ _ _ children => if kind.isGroup then children.tail.dropLast else []

def opening? : Node → Option Node
  | leaf _ _ => none
  | branch kind _ _ _ children => if kind.isGroup then children.head? else none

def closing? : Node → Option Node
  | leaf _ _ => none
  | branch kind _ _ _ children => if kind.isGroup then children.getLast? else none

mutual

/-- The leaves of a tree from left to right: the text before each token, and the token. -/
def leaves : Node → List (String × Token)
  | leaf before token => [(before, token)]
  | branch _ _ _ _ children => leavesOfList children

def leavesOfList : List Node → List (String × Token)
  | [] => []
  | node :: rest => node.leaves ++ leavesOfList rest

end

mutual

def postOrder : Node → List Node
  | leaf before token => [leaf before token]
  | branch kind before start stop children =>
    postOrderOfList children ++ [branch kind before start stop children]

def postOrderOfList : List Node → List Node
  | [] => []
  | node :: rest => node.postOrder ++ postOrderOfList rest

end

end Node

end PythonLint
