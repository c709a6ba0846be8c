import PythonLint.Tree
import PythonLint.Version

/-!
# What a bracket group stands for

Brackets right after a complete expression call or index it; other brackets build a value. Which
value that is depends on the separators between the brackets.
-/

namespace PythonLint

/-- The words that are statements of their own, so that no call follows them. -/
structure Dialect where
  printStatement : Bool
  execStatement : Bool
deriving DecidableEq, Repr

namespace Dialect

/-- The dialect of a version, given the features that a source imports from the future. -/
def of (version : Version) (features : List String) : Dialect where
  printStatement := version = .python2 && !features.contains "print_function"
  execStatement := version = .python2

def isStatement (dialect : Dialect) (name : String) : Bool :=
  dialect.printStatement && name == "print" || dialect.execStatement && name == "exec"

end Dialect

/-- A bracket after the token calls or indexes what the token ends; `atStart` says that the token is
the first one of its statement. -/
def Token.closesExpression (dialect : Dialect) (atStart : Bool) (token : Token) : Bool :=
  match token.kind with
  | .name => !dialect.isStatement token.lexeme
  | .number => true
  | .string => true
  | .keyword =>
    ["None", "True", "False", "type"].contains token.lexeme ||
      ["match", "case"].contains token.lexeme && !atStart
  | _ => false

/-- A bracket after the node calls or indexes it; `atStart` says that the node is the first one of
its statement. -/
def Node.closesExpression (dialect : Dialect) (atStart : Bool) : Node → Bool
  | .leaf _ token => token.closesExpression dialect atStart
  | .branch kind _ _ _ _ => kind.isGroup && kind ≠ .parameters

/-- The colons between keys and values, when `lambdas` functions wait for their colons and `paired`
says that the item has had its colon. -/
def separatorsFrom (lambdas : Nat) (paired : Bool) : List Node → List Node
  | [] => []
  | node :: rest =>
    if node.isKeyword "lambda" then separatorsFrom (lambdas + 1) paired rest
    else if node.isOp "," && lambdas == 0 then separatorsFrom lambdas false rest
    else if node.isOp ":" then
      if 0 < lambdas then separatorsFrom (lambdas - 1) paired rest
      else if paired then separatorsFrom lambdas paired rest
      else node :: separatorsFrom lambdas true rest
    else separatorsFrom lambdas paired rest

/-- The colons between the keys and the values of a dictionary. A `lambda` owns the next colon and,
until then, the commas between its parameters. -/
def keySeparators (contents : List Node) : List Node :=
  separatorsFrom 0 false contents

def classifySquare (trailer : Bool) (contents : List Node) : BranchKind :=
  if !trailer then .listDisplay
  else if contents.any (·.isOp ":") then .slice
  else .subscript

/-- The kind of a group between parentheses, after the nodes `siblings`, the nearest first. -/
def classifyRound (trailer : Bool) (siblings contents : List Node) : BranchKind :=
  if trailer then
    if siblings.tail.head?.any fun node => node.isKeyword "def" || node.isKeyword "class" then
      .parameters
    else .callArguments
  else if contents.any (·.isOp ",") then .tupleDisplay
  else .parenthesized

def classifyBraces (contents : List Node) : BranchKind :=
  if contents.isEmpty || contents.head?.any (·.isOp "**") || !(keySeparators contents).isEmpty then
    .dictDisplay
  else .setDisplay

/-- The kind of the group that `opening` opens, after the nodes `siblings`, the nearest first;
`outermost` says that the group stands in no other. -/
def classify (dialect : Dialect) (outermost : Bool) (opening : String)
    (siblings contents : List Node) : BranchKind :=
  let atStart := outermost && siblings.length == 1
  let trailer := siblings.head?.any (Node.closesExpression dialect atStart)
  if opening = "[" then classifySquare trailer contents
  else if opening = "(" then classifyRound trailer siblings contents
  else classifyBraces contents

end PythonLint
