import PythonLint.Grammar.Comprehension

/-!
# Atoms

Names, constants, strings, and everything in brackets.
-/

namespace PythonLint.Grammar

open Rule

def literalRun : Rule (List (Nat × Literal)) := do
  let step (run : List (Nat × Literal)) : Rule (Option (List (Nat × Literal))) := do
    let start ← position
    match ← peek with
    | some (.string literal) =>
      skip
      return some ((start, literal) :: run)
    | _ => return none
  return (← iterate step []).reverse

/-- A run of string literals, which is decoded when a token that `follows` it comes next. -/
def strings (self : Rules) (follows : Tok → Bool) : Rule Expr := do
  let start ← position
  let run ← literalRun
  unless ← nextIs follows do unexpected false
  runExpr self.names self.field start run

/-- What stands in parentheses after its first item. -/
def parenthesizedRest (self : Rules) (start : Nat) (first : Expr) : Rule Expr := do
  let (others, trailing) ← moreItems startsItem (namedTestOrStarred self)
  symbol ")"
  if others.isEmpty && !trailing && first.isStarred then
    complain followsAtom .starredAlone first.start
  return tupleOf start (first :: others, trailing)

/-- A parenthesised expression, a tuple or a generator. -/
def parenthesized (self : Rules) : Rule Expr := do
  let start ← position
  symbol "("
  if ← acceptSymbol ")" then return .tuple start []
  if ← nextKeyword "yield" then
    let value ← yieldExpr self
    symbol ")"
    return value
  let inside ← position
  if ← acceptSymbol "**" then
    let _ ← self.operand
    symbol ")"
    complain followsAtom .doubleStarred inside
  let first ← namedTestOrStarred self
  if !first.isStarred && (← nextIs startsClause) then
    let clauses ← clauses self
    symbol ")"
    return .comprehension start .generator [first] clauses
  parenthesizedRest self start first

def listDisplay (self : Rules) : Rule Expr := do
  let start ← position
  symbol "["
  if ← acceptSymbol "]" then return .listDisplay start []
  let first ← namedTestOrStarred self
  if ← nextIs startsClause then
    let clauses ← clauses self
    symbol "]"
    return .comprehension start .list [first] clauses
  let (others, _) ← moreItems startsItem (namedTestOrStarred self)
  symbol "]"
  return .listDisplay start (first :: others)

def entry (self : Rules) : Rule Entry := do
  if ← acceptSymbol "**" then return .unpack (← self.operand)
  let key ← self.test
  symbol ":"
  return .pair key (← self.test)

def startsEntry (tok : Tok) : Bool :=
  startsTest tok || tok == .symbol "**"

def dictRest (self : Rules) (start : Nat) (first : Entry) : Rule Expr := do
  let (others, _) ← moreItems startsEntry (entry self)
  symbol "\x7d"
  return .dictDisplay start (first :: others)

def setRest (self : Rules) (start : Nat) (first : Expr) : Rule Expr := do
  let (others, _) ← moreItems startsItem (namedTestOrStarred self)
  symbol "\x7d"
  return .setDisplay start (first :: others)

/-- A dictionary, a set, or a comprehension that builds one. -/
def braceDisplay (self : Rules) : Rule Expr := do
  let start ← position
  symbol "\x7b"
  if ← acceptSymbol "\x7d" then return .dictDisplay start []
  if ← nextSymbol "**" then return ← dictRest self start (← entry self)
  let isNamed ← nextNameThen ":="
  let first ← namedTestOrStarred self
  if first.isStarred then return ← setRest self start first
  if !isNamed && (← acceptSymbol ":") then
    let value ← self.test
    if ← nextIs startsClause then
      let clauses ← clauses self
      symbol "\x7d"
      return .comprehension start .dict [first, value] clauses
    return ← dictRest self start (.pair first value)
  if ← nextIs startsClause then
    let clauses ← clauses self
    symbol "\x7d"
    return .comprehension start .set [first] clauses
  setRest self start first

/-- A name, a constant, strings, or something in brackets. -/
def atom (self : Rules) : Rule Expr := do
  let start ← position
  let constant : Rule Expr := do
    skip
    return .literal start
  match ← peek with
  | some (.name id) =>
    skip
    return .name start id
  | some (.int _) => constant
  | some (.float _) => constant
  | some (.complex _) => constant
  | some (.string _) => strings self followsAtom
  | some (.keyword "None") => constant
  | some (.keyword "True") => constant
  | some (.keyword "False") => constant
  | some (.symbol "...") => constant
  | some (.symbol "(") => parenthesized self
  | some (.symbol "[") => listDisplay self
  | some (.symbol "\x7b") => braceDisplay self
  | _ => unexpected false

end PythonLint.Grammar
