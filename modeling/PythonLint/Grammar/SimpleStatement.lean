import PythonLint.Grammar.Expression

/-!
# Simple statements

Statements without blocks, several of which may stand on one line.
-/

namespace PythonLint.Grammar

open Rule

/-! ### Expressions and assignments -/

def assignedValue (self : Rules) : Rule Expr := do
  if ← nextKeyword "yield" then yieldExpr self else exprs self

/-- The statement in which values are assigned from right to left. -/
def assignment (start : Nat) (first : Expr) (values : List Expr) : Stmt :=
  match (first :: values).getLast?, values with
  | some value, _ :: _ => .assign start (first :: values).dropLast value
  | _, _ => .expression start first

/-- Expressions, assignments and annotated names. -/
def exprStatement (self : Rules) : Rule Stmt := do
  let start ← position
  let (read, trailing) ← items startsItem (testOrStarred self)
  let first := tupleOf start (read, trailing)
  if read.length = 1 && !trailing && !first.isStarred then
    if ← acceptSymbol ":" then
      let type ← self.test
      if ← acceptSymbol "=" then return .annotated start first type (some (← assignedValue self))
      return .annotated start first type none
  match ← peek with
  | some (.symbol symbol) =>
    if augmentedOps.contains symbol then
      skip
      return .augmented start first (← assignedValue self)
  | _ => pure ()
  return assignment start first (← many (acceptSymbol "=") (assignedValue self))

/-! ### Imports -/

def dottedName : Rule String := do
  let first ← identifier
  let others ← many (acceptSymbol ".") identifier
  return ".".intercalate (first :: others)

def importedName (name : Rule String) : Rule Alias := do
  let id ← name
  if ← acceptKeyword "as" then return ⟨id, some (← identifier)⟩
  return ⟨id, none⟩

def importNames : Rule Stmt := do
  let start ← position
  keyword "import"
  return .importNames start (← commaList (importedName dottedName))

def importedNames : Rule (List Alias) := do
  if ← acceptSymbol "*" then return [⟨"*", none⟩]
  if ← acceptSymbol "(" then
    let (names, _) ← items (fun tok => tok matches .name _) (importedName identifier)
    symbol ")"
    return names
  commaList (importedName identifier)

/-- One dot, or the three that an ellipsis stands for, and how many they are. -/
def dots : Rule Nat := do
  let count := if ← nextSymbol "..." then 3 else 1
  skip
  return count

/-- An import of names from a module. The module may be left out after dots. -/
def importFrom : Rule Stmt := do
  let start ← position
  keyword "from"
  let level :=
    (← many (nextIs fun tok => tok == .symbol "." || tok == .symbol "...") dots).foldl (· + ·) 0
  let source ← if level ≠ 0 && (← nextKeyword "import") then pure none
    else some <$> dottedName
  keyword "import"
  return .importFrom start level source (← importedNames)

/-! ### Definitions of types -/

def typeParameter (self : Rules) : Rule TypeParam := do
  if ← acceptSymbol "*" then return ⟨← identifier, none⟩
  if ← acceptSymbol "**" then return ⟨← identifier, none⟩
  let id ← identifier
  if ← acceptSymbol ":" then return ⟨id, some (← self.test)⟩
  return ⟨id, none⟩

def startsTypeParameter (tok : Tok) : Bool :=
  tok matches .name _ || tok == .symbol "*" || tok == .symbol "**"

def typeParameters (self : Rules) : Rule (List TypeParam) := do
  if ← acceptSymbol "[" then
    let (params, _) ← items startsTypeParameter (typeParameter self)
    symbol "]"
    return params
  return []

def typeAlias (self : Rules) : Rule Stmt := do
  let start ← position
  keyword "type"
  let id ← identifier
  let params ← typeParameters self
  symbol "="
  return .typeAlias start id params (← self.test)

/-! ### Other statements -/

def raiseStatement (self : Rules) : Rule Stmt := do
  let start ← position
  keyword "raise"
  if ← nextIs startsTest then
    let exception ← self.test
    if ← acceptKeyword "from" then return .raise start (some exception) (some (← self.test))
    return .raise start (some exception) none
  return .raise start none none

def assertion (self : Rules) : Rule Stmt := do
  let start ← position
  keyword "assert"
  let condition ← self.test
  if ← acceptSymbol "," then return .assertion start condition (some (← self.test))
  return .assertion start condition none

def simpleStatement (self : Rules) : Rule Stmt := do
  let start ← position
  match ← peek with
  | some (.keyword "pass") =>
    skip
    return .pass start
  | some (.keyword "break") =>
    skip
    return .breakLoop start
  | some (.keyword "continue") =>
    skip
    return .continueLoop start
  | some (.keyword "del") =>
    skip
    return .delete start (← targetItems self).1
  | some (.keyword "return") =>
    skip
    return .ret start (← optional startsItem (exprs self))
  | some (.keyword "yield") => return .expression start (← yieldExpr self)
  | some (.keyword "raise") => raiseStatement self
  | some (.keyword "global") =>
    skip
    return .global start (← commaList identifier)
  | some (.keyword "nonlocal") =>
    skip
    return .nonlocal start (← commaList identifier)
  | some (.keyword "assert") => assertion self
  | some (.keyword "import") => importNames
  | some (.keyword "from") => importFrom
  | some (.keyword "type") => typeAlias self
  | _ => exprStatement self

def startsSimple (tok : Tok) : Bool :=
  startsItem tok || match tok with
    | .keyword word =>
      ["pass", "break", "continue", "del", "return", "yield", "raise", "global", "nonlocal",
        "assert", "import", "from", "type"].contains word
    | _ => false

def simpleLine (self : Rules) : Rule (List Stmt) := do
  let first ← simpleStatement self
  let step (state : List Stmt × Bool) : Rule (Option (List Stmt × Bool)) := do
    if state.2 then return none
    if ← acceptSymbol ";" then
      if ← nextIs startsSimple then return some ((← simpleStatement self) :: state.1, false)
      return some (state.1, true)
    return none
  let (others, _) ← iterate step ([], false)
  expect .newline
  return first :: others.reverse

end PythonLint.Grammar
