import PythonLint.Grammar.Argument
import PythonLint.Grammar.Atom
import PythonLint.Grammar.Parameter
import PythonLint.Lexeme.SoftKeyword

/-!
# Expressions

The rules for expressions, from trailers and operators to conditionals and `lambda`. The levels of
the rules are numbered, and level zero reads nothing. A source has fewer nested expressions than
characters, so the numbers never run out.
-/

namespace PythonLint.Grammar

open Rule

/-! ### Trailers -/

/-- The part of a slice after a colon: the upper bound and the step. -/
def sliceRest (self : Rules) (start : Nat) (lower : Option Expr) : Rule Expr := do
  symbol ":"
  let upper ← optional startsTest self.test
  let step ← if ← acceptSymbol ":" then optional startsTest self.test else pure none
  return .slice start lower upper step

def subscript (self : Rules) : Rule Expr := do
  let start ← position
  if ← nextSymbol ":" then return ← sliceRest self start none
  let isNamed ← nextNameThen ":="
  let index ← namedTestOrStarred self
  if !isNamed && !index.isStarred && (← nextSymbol ":") then
    return ← sliceRest self start (some index)
  return index

def startsSubscript (tok : Tok) : Bool :=
  startsItem tok || tok == .symbol ":"

/-- Indices and slices separated by commas. -/
def subscripts (self : Rules) : Rule Expr := do
  let start ← position
  return tupleOf start (← items startsSubscript (subscript self))

/-- An atom with the calls, subscripts and attributes after it. -/
def primary (self : Rules) : Rule Expr := do
  let start ← position
  let trailer (object : Expr) : Rule (Option Expr) := do
    if ← acceptSymbol "(" then
      let (args, keywords) ← arguments self
      return some (.call start object args keywords)
    if ← acceptSymbol "[" then
      let index ← subscripts self
      symbol "]"
      return some (.subscript start object index)
    if ← acceptSymbol "." then return some (.member start object (← identifier))
    return none
  iterate trailer (← atom self)

/-! ### Operators -/

/-- A primary, which may be awaited and raised to a power. -/
def power (self : Rules) : Rule Expr := do
  let start ← position
  let base ← if ← acceptKeyword "await" then Expr.await start <$> primary self else primary self
  if ← acceptSymbol "**" then return .binary start .power base (← self.unary)
  return base

def unary (self : Rules) : Rule Expr := do
  let start ← position
  match ← peek with
  | some (.symbol symbol) =>
    if ["+", "-", "~"].contains symbol then
      skip
      return .unary start (← self.unary)
    power self
  | _ => power self

/-- The operators that associate to the left, loosest first. -/
def operatorLevels : List (List (String × BinaryOp)) :=
  [[("|", .bitOr)], [("^", .bitXor)], [("&", .bitAnd)], [("<<", .shiftLeft), (">>", .shiftRight)],
    [("+", .add), ("-", .subtract)],
    [("*", .multiply), ("/", .divide), ("//", .floorDivide), ("%", .modulo),
      ("@", .matrixMultiply)]]

/-- Operands joined by operators of one level, from left to right. -/
def leftAssociative (ops : List (String × BinaryOp)) (inner : Rule Expr) : Rule Expr := do
  let start ← position
  let step (left : Expr) : Rule (Option Expr) := do
    match ← peek with
    | some (.symbol symbol) =>
      match ops.lookup symbol with
      | some op =>
        skip
        return some (.binary start op left (← inner))
      | none => return none
    | _ => return none
  iterate step (← inner)

/-- An expression without comparisons outside. -/
def operand (self : Rules) : Rule Expr :=
  operatorLevels.foldr leftAssociative (unary self)

/-- Reads a comparison operator if one comes next, and says whether one came. -/
def comparisonOp : Rule Bool := do
  match ← peek with
  | some (.symbol symbol) =>
    if ["==", "!=", "<", "<=", ">", ">="].contains symbol then
      skip
      return true
    return false
  | some (.keyword "in") =>
    skip
    return true
  | some (.keyword "not") =>
    skip
    keyword "in"
    return true
  | some (.keyword "is") =>
    skip
    let _ ← acceptKeyword "not"
    return true
  | _ => return false

/-- Operands with comparison operators between them. -/
def comparison (self : Rules) : Rule Expr := do
  let start ← position
  let left ← operand self
  let others ← many comparisonOp (operand self)
  return if others.isEmpty then left else .comparison start left others

def negation (self : Rules) : Rule Expr := do
  let start ← position
  if ← acceptKeyword "not" then return .unary start (← self.negation)
  comparison self

/-- Operands joined by one of the words `and` and `or`. -/
def joined (word : String) (inner : Rule Expr) : Rule Expr := do
  let start ← position
  let first ← inner
  let others ← many (acceptKeyword word) inner
  return if others.isEmpty then first else .boolean start (first :: others)

/-- Negations joined by `and`. -/
def conjunction (self : Rules) : Rule Expr :=
  joined "and" (negation self)

/-- Conjunctions joined by `or`. -/
def disjunction (self : Rules) : Rule Expr :=
  joined "or" (conjunction self)

/-- A function without a name. -/
def lambda (self : Rules) : Rule Expr := do
  let start ← position
  keyword "lambda"
  let params ← parameters self false ":"
  let body ← self.test
  if ← nextIs followsTest then checkNames params
  return .lambda start params body

def test (self : Rules) : Rule Expr := do
  if ← nextKeyword "lambda" then return ← lambda self
  let start ← position
  let value ← disjunction self
  if ← acceptKeyword "if" then
    let condition ← self.disjunction
    keyword "else"
    return .conditional start value condition (← self.test)
  return value

/-! ### The rules together -/

/-- Expressions, line ends, and nothing more. -/
def loneExpression (self : Rules) : Rule Expr := do
  let value ← exprs self
  let _ ← many (next .newline) (expect .newline)
  if (← peek).isSome then unexpected false
  return value

/-- Reads the expression of a field as if it stood in parentheses, the first of which stands right
before it. -/
def readField (self : Rules) : FieldReader := fun text offset =>
  let scan := scanExpression (offset - 1) ('(' :: text ++ [')'])
  (loneExpression self (.ofScan scan)).map Prod.fst

/-- The rules of level zero, which read nothing. -/
def Rules.none (names : Text.NameTable) : Rules where
  test := unexpected false
  disjunction := unexpected false
  negation := unexpected false
  operand := unexpected false
  unary := unexpected false
  field := fun _ offset => .error ⟨.endOfTokens, offset⟩
  names := names

def rules (names : Text.NameTable) : Nat → Rules
  | 0 => .none names
  | level + 1 => {
      test := fun cursor => Grammar.test (rules names level) cursor
      disjunction := fun cursor => Grammar.disjunction (rules names level) cursor
      negation := fun cursor => Grammar.negation (rules names level) cursor
      operand := fun cursor => Grammar.operand (rules names level) cursor
      unary := fun cursor => Grammar.unary (rules names level) cursor
      field := fun text offset => readField (rules names level) text offset
      names := names }

end PythonLint.Grammar
