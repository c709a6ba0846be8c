import PythonLint.Grammar.Literal
import PythonLint.Grammar.Rule

/-!
# Rules inside rules

A rule that needs an expression inside itself, after it has read at least one token, takes it from
the rules one level further in. This module holds what such rules share: the tokens that expressions
start with and those that can follow them, and lists of expressions.

Some constructs are checked once they are complete. The check is made when the token after the
construct is one that can follow such a construct somewhere; otherwise that token is the fault.
-/

namespace PythonLint.Grammar

open Rule

/-- The rules one level further in. -/
structure Rules where
  test : Rule Expr
  /-- An expression without a conditional and `lambda` outside. -/
  disjunction : Rule Expr
  /-- An expression without `and` and `or` outside. -/
  negation : Rule Expr
  /-- An expression without comparisons outside. -/
  operand : Rule Expr
  /-- An expression without operators outside, but signs. -/
  unary : Rule Expr
  field : FieldReader
  /-- The names that texts may use. -/
  names : Text.NameTable

/-! ### What may come next -/

def startsOperand : Tok → Bool
  | .name _ | .int _ | .float _ | .complex _ | .string _ => true
  | .keyword word => ["None", "True", "False", "await"].contains word
  | .symbol symbol => ["(", "[", "\x7b", "+", "-", "~", "..."].contains symbol
  | _ => false

def startsTest (tok : Tok) : Bool :=
  startsOperand tok || tok == .keyword "not" || tok == .keyword "lambda"

def startsTarget (tok : Tok) : Bool :=
  startsOperand tok || tok == .symbol "*"

def startsItem (tok : Tok) : Bool :=
  startsTest tok || tok == .symbol "*"

/-- The operators of assignments that change their target. -/
def augmentedOps : List String :=
  ["+=", "-=", "*=", "@=", "/=", "%=", "&=", "|=", "^=", "<<=", ">>=", "**=", "//="]

def followsTest : Tok → Bool
  | .newline => true
  | .symbol symbol =>
    [",", ":", ")", "]", "\x7d", "=", ";"].contains symbol || augmentedOps.contains symbol
  | .keyword word => ["for", "async", "as", "from"].contains word
  | _ => false

def followsAtom (tok : Tok) : Bool :=
  followsTest tok || match tok with
    | .symbol symbol =>
      ["|", "^", "&", "<<", ">>", "+", "-", "*", "/", "//", "%", "@", "**", "==", "!=",
        "<", "<=", ">", ">=", "(", "[", "."].contains symbol
    | .keyword word => ["in", "not", "is", "and", "or", "if", "else"].contains word
    | _ => false

def startsClause (tok : Tok) : Bool :=
  tok == .keyword "for" || tok == .keyword "async"

/-- The fault of a construct that has just been completed, unless the next token is one. -/
def complain {α : Type} (follows : Tok → Bool) (fault : Fault) (offset : Nat) : Rule α := do
  if ← nextIs follows then fail fault offset else unexpected false

/-! ### Lists of expressions -/

/-- Several items, or one that a comma follows, are a tuple; one item is itself. -/
def tupleOf (start : Nat) : List Expr × Bool → Expr
  | ([item], false) => item
  | (items, _) => .tuple start items

def starred (self : Rules) : Rule Expr := do
  let start ← position
  symbol "*"
  return .starred start (← self.operand)

def testOrStarred (self : Rules) : Rule Expr := do
  if ← nextSymbol "*" then starred self else self.test

def namedTest (self : Rules) : Rule Expr := do
  if ← nextNameThen ":=" then
    let start ← position
    let id ← identifier
    symbol ":="
    return .named start (.name start id) (← self.test)
  self.test

/-- An expression, which may be given a name, or an operand that is unpacked. -/
def namedTestOrStarred (self : Rules) : Rule Expr := do
  if ← nextSymbol "*" then starred self else namedTest self

def exprs (self : Rules) : Rule Expr := do
  let start ← position
  return tupleOf start (← items startsItem (testOrStarred self))

/-- Targets separated by commas, and whether a comma follows the last one. -/
def targetItems (self : Rules) : Rule (List Expr × Bool) :=
  items startsTarget do
    if ← nextSymbol "*" then starred self else self.operand

def targets (self : Rules) : Rule Expr := do
  let start ← position
  return tupleOf start (← targetItems self)

/-- A `yield` expression. -/
def yieldExpr (self : Rules) : Rule Expr := do
  let start ← position
  keyword "yield"
  if ← acceptKeyword "from" then return .yieldFrom start (← self.test)
  return .yield start (← optional startsItem (exprs self))

end PythonLint.Grammar
