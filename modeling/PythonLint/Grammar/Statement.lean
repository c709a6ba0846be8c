import PythonLint.Grammar.Pattern
import PythonLint.Grammar.SimpleStatement

/-!
# Statements with blocks

Compound statements and whole modules. The statements inside a block are read by the rule one level
further in.
-/

namespace PythonLint.Grammar

open Rule

/-- The rules inside a compound statement. -/
structure Inside where
  expr : Rules
  depth : Nat
  statement : Rule (List Stmt)

/-! ### Blocks -/

/-- Reads the indentation of a block, which is all that can follow the line end before it. -/
def indent : Rule Unit := do
  unless ← accept .indent do unexpected true

def block {α : Type} (item : Rule α) : Rule (List α) := do
  indent
  let first ← item
  let others ← many (do return !(← next .dedent)) item
  expect .dedent
  return first :: others

/-- The block of a statement, after the colon that it reads: statements on the same line, or an
indented block. -/
def suite (inside : Inside) : Rule (List Stmt) := do
  symbol ":"
  if ← accept .newline then return (← block inside.statement).flatten
  simpleLine inside.expr

def suiteAfter (inside : Inside) (word : String) : Rule (List Stmt) := do
  if ← acceptKeyword word then suite inside else return []

/-! ### Conditions and loops -/

def guarded (inside : Inside) : Rule (Nat × Expr × List Stmt) := do
  let start ← position
  skip
  let condition ← namedTest inside.expr
  return (start, condition, ← suite inside)

/-- Branches, each of which stands in the alternative of the one before. -/
def branches : List (Nat × Expr × List Stmt) → List Stmt → List Stmt
  | [], orelse => orelse
  | (start, condition, body) :: rest, orelse =>
    [.branch start condition body (branches rest orelse)]

/-- An `if` statement. -/
def ifStatement (inside : Inside) : Rule (List Stmt) := do
  let first ← guarded inside
  let others ← many (nextKeyword "elif") (guarded inside)
  return branches (first :: others) (← suiteAfter inside "else")

/-- A `while` loop. -/
def whileLoop (inside : Inside) : Rule Stmt := do
  let (start, condition, body) ← guarded inside
  return .whileLoop start condition body (← suiteAfter inside "else")

/-- A `for` loop that starts at a position. -/
def forLoop (inside : Inside) (start : Nat) : Rule Stmt := do
  keyword "for"
  let target ← targets inside.expr
  keyword "in"
  let source ← exprs inside.expr
  let body ← suite inside
  return .forLoop start target source body (← suiteAfter inside "else")

/-! ### Exceptions -/

/-- What an `except` block takes, after the word; `starred` says that the blocks take groups. -/
def handled (self : Rules) (starred : Bool) : Rule (Option Expr) := do
  if starred then symbol "*"
  else if ← nextSymbol ":" then return none
  let type ← self.test
  if ← acceptKeyword "as" then
    let _ ← identifier
  return some type

/-- An `except` block. -/
def handler (inside : Inside) (starred : Bool) : Rule Handler := do
  let start ← position
  keyword "except"
  let type ← handled inside.expr starred
  return .mk start type (← suite inside)

/-- Whether the blocks that come next take groups of exceptions. -/
def takesGroups : Rule Bool := do
  match ← peek, ← peekSecond with
  | some (.keyword "except"), some (.symbol "*") => return true
  | _, _ => return false

/-- A `try` statement. -/
def tryStatement (inside : Inside) : Rule Stmt := do
  let start ← position
  keyword "try"
  let body ← suite inside
  let starred ← takesGroups
  let handlers ← many (nextKeyword "except") (handler inside starred)
  if handlers.isEmpty then
    keyword "finally"
    return .tryBlock start body [] [] (← suite inside)
  let orelse ← suiteAfter inside "else"
  return .tryBlock start body handlers orelse (← suiteAfter inside "finally")

/-! ### Context managers -/

def withItem (self : Rules) : Rule WithItem := do
  let context ← self.test
  if ← acceptKeyword "as" then return ⟨context, some (← self.operand)⟩
  return ⟨context, none⟩

/-- Context managers in parentheses, before a colon. -/
def parenthesizedItems (self : Rules) : Rule (List WithItem) := do
  symbol "("
  let (read, _) ← items startsTest (withItem self)
  symbol ")"
  unless ← nextSymbol ":" do unexpected false
  return read

/-- Context managers. Parentheses around all of them are not part of any of them. -/
def withItems (self : Rules) : Rule (List WithItem) := do
  if ← nextSymbol "(" then orElse (parenthesizedItems self) (commaList (withItem self))
  else commaList (withItem self)

/-- A `with` statement that starts at a position. -/
def withStatement (inside : Inside) (start : Nat) : Rule Stmt := do
  keyword "with"
  let items ← withItems inside.expr
  return .withBlock start items (← suite inside)

/-! ### Definitions -/

def followsParameters (tok : Tok) : Bool :=
  tok == .symbol "->" || tok == .symbol ":"

def function (inside : Inside) (decorators : List Expr) (start : Nat) : Rule Stmt := do
  keyword "def"
  let id ← identifier
  let typeParams ← typeParameters inside.expr
  symbol "("
  let params ← parameters inside.expr true ")"
  unless ← nextIs followsParameters do unexpected false
  checkNames params
  let returns ← if ← acceptSymbol "->" then some <$> inside.expr.test else pure none
  return .function start decorators id typeParams params returns (← suite inside)

def classDef (inside : Inside) (decorators : List Expr) : Rule Stmt := do
  let start ← position
  keyword "class"
  let id ← identifier
  let typeParams ← typeParameters inside.expr
  let (bases, keywords) ← if ← acceptSymbol "(" then arguments inside.expr else pure ([], [])
  return .classDef start decorators id typeParams bases keywords (← suite inside)

def decorator (self : Rules) : Rule Expr := do
  symbol "@"
  let value ← namedTest self
  expect .newline
  return value

def definition (inside : Inside) : Rule Stmt := do
  let decorators ← many (nextSymbol "@") (decorator inside.expr)
  let start ← position
  if ← nextKeyword "class" then return ← classDef inside decorators
  let _ ← acceptKeyword "async"
  function inside decorators start

/-- A statement after `async`. -/
def asyncStatement (inside : Inside) : Rule Stmt := do
  let start ← position
  keyword "async"
  match ← peek with
  | some (.keyword "for") => forLoop inside start
  | some (.keyword "with") => withStatement inside start
  | _ => function inside [] start

/-! ### Case distinctions -/

/-- A `case` block. -/
def matchCase (inside : Inside) : Rule MatchCase := do
  keyword "case"
  let pattern ← patterns inside.expr inside.depth
  let guard ← if ← acceptKeyword "if" then some <$> namedTest inside.expr else pure none
  return .mk pattern guard (← suite inside)

/-- A `match` statement. -/
def matchStatement (inside : Inside) : Rule Stmt := do
  let start ← position
  keyword "match"
  let first ← position
  let subject := tupleOf first (← items startsItem (namedTestOrStarred inside.expr))
  symbol ":"
  expect .newline
  return .matchBlock start subject (← block (matchCase inside))

/-! ### Statements together -/

def compound (inside : Inside) : Rule (Option (List Stmt)) := do
  let one (rule : Rule Stmt) : Rule (Option (List Stmt)) := do
    return some [← rule]
  match ← peek with
  | some (.keyword "if") => some <$> ifStatement inside
  | some (.keyword "while") => one (whileLoop inside)
  | some (.keyword "for") => one (do forLoop inside (← position))
  | some (.keyword "try") => one (tryStatement inside)
  | some (.keyword "with") => one (do withStatement inside (← position))
  | some (.keyword "def") => one (definition inside)
  | some (.keyword "class") => one (definition inside)
  | some (.symbol "@") => one (definition inside)
  | some (.keyword "async") => one (asyncStatement inside)
  | some (.keyword "match") => one (matchStatement inside)
  | _ => return none

/-- The statements of a line or a compound one, at a level. -/
def statement (self : Rules) (depth : Nat) : Nat → Rule (List Stmt)
  | 0 => unexpected false
  | level + 1 => fun cursor =>
    (do match ← compound ⟨self, depth, statement self depth level⟩ with
        | some statements => return statements
        | none => simpleLine self : Rule (List Stmt)) cursor

/-- The statements of a file, between which there may be line ends. -/
def file (self : Rules) (depth : Nat) : Rule (List Stmt) := do
  let item : Rule (List Stmt) := do
    if ← accept .newline then return [] else statement self depth depth
  return (← many (do return (← peek).isSome) item).flatten

end PythonLint.Grammar

namespace PythonLint

/-- The statements of a source, or its first fault. No construct is nested more deeply than the
source has characters. -/
def parseModule [Text.CharNames] (source : List Char) : Except Misplaced (List Stmt) :=
  let depth := source.length + 2
  let rules := Grammar.rules Text.CharNames.isName depth
  (Grammar.file rules depth (.ofScan (scanModule source))).map Prod.fst

end PythonLint
