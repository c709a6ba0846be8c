import PythonLint.Grammar.Atom

/-!
# Patterns

The patterns of `case` blocks. Patterns inside brackets are read by the rule one level further in.
-/

namespace PythonLint.Grammar

open Rule

def followsPattern : Tok → Bool
  | .symbol symbol => [",", ":", ")", "]", "\x7d"].contains symbol
  | .keyword word => word == "if"
  | _ => false

def followsString (tok : Tok) : Bool :=
  followsPattern tok || tok == .symbol "|" || tok == .keyword "as"

def isNumber : Tok → Bool
  | .int _ | .float _ | .complex _ => true
  | _ => false

def startsPattern : Tok → Bool
  | .name _ | .int _ | .float _ | .complex _ | .string _ => true
  | .keyword word => ["None", "True", "False"].contains word
  | .symbol symbol => ["-", "*", "(", "[", "\x7b"].contains symbol
  | _ => false

def startsKey : Tok → Bool
  | .name _ | .int _ | .float _ | .complex _ | .string _ => true
  | .keyword word => ["None", "True", "False"].contains word
  | .symbol symbol => symbol == "-"
  | _ => false

/-! ### Constants and names -/

def number : Rule Unit := do
  if ← nextIs isNumber then skip else unexpected false

/-- A number with its sign, and one that is added to it or taken from it. -/
def numberPattern : Rule Expr := do
  let start ← position
  let _ ← acceptSymbol "-"
  number
  let plus ← acceptSymbol "+"
  let minus ← if plus then pure false else acceptSymbol "-"
  if plus || minus then number
  return .literal start

def dottedRest (start : Nat) (first : Expr) : Rule Expr := do
  let step (object : Expr) : Rule (Option Expr) := do
    if ← acceptSymbol "." then return some (.member start object (← identifier))
    return none
  iterate step first

/-- A constant or a dotted name that a mapping is asked for. -/
def key (self : Rules) : Rule Expr := do
  let start ← position
  match ← peek with
  | some (.name id) =>
    skip
    unless ← nextSymbol "." do unexpected false
    dottedRest start (.name start id)
  | some (.string _) => strings self (· == .symbol ":")
  | some (.keyword word) =>
    unless ["None", "True", "False"].contains word do unexpected false
    skip
    return .literal start
  | _ => numberPattern

/-! ### Patterns in brackets -/

/-- What has been read of a mapping or of the arguments of a class. -/
structure PatternState where
  /-- The keys, last one first. -/
  keys : List Expr
  /-- The names of arguments, last one first. -/
  names : List String
  /-- The patterns of keys or without a name, last one first. -/
  patterns : List Pattern
  /-- The patterns with a name, last one first. -/
  named : List Pattern
  /-- The name that takes what is left of a mapping. -/
  rest : Option String
  /-- Another part may come next. -/
  more : Bool

def PatternState.empty : PatternState := ⟨[], [], [], [], none, true⟩

/-- The state after a part, and after the comma that may follow it. -/
def PatternState.proceed (state : PatternState) : Rule (Option PatternState) := do
  return some { state with more := ← acceptSymbol "," }

/-- The next part of a mapping. Nothing but a comma follows what takes the rest. -/
def mappingStep (self : Rules) (inner : Rule Pattern) (state : PatternState) :
    Rule (Option PatternState) := do
  if !state.more || state.rest.isSome then return none
  if ← acceptSymbol "**" then
    let rest ← identifier
    return ← { state with rest := some rest }.proceed
  if ← nextIs startsKey then
    let key ← key self
    symbol ":"
    let pattern ← inner
    return ← { state with keys := key :: state.keys, patterns := pattern :: state.patterns }.proceed
  return none

def mappingPattern (self : Rules) (inner : Rule Pattern) : Rule Pattern := do
  symbol "\x7b"
  let state ← iterate (mappingStep self inner) .empty
  symbol "\x7d"
  return .mapping state.keys.reverse state.patterns.reverse state.rest

/-- The next argument of a class. Nothing but arguments with names follows one with a name. -/
def classStep (inner : Rule Pattern) (state : PatternState) : Rule (Option PatternState) := do
  if !state.more then return none
  if ← nextIs fun tok => tok matches .name _ then
    if !state.names.isEmpty || (← nextNameThen "=") then
      let name ← identifier
      symbol "="
      let pattern ← inner
      return ← { state with names := name :: state.names, named := pattern :: state.named }.proceed
  if state.names.isEmpty && (← nextIs startsPattern) then
    let pattern ← inner
    return ← { state with patterns := pattern :: state.patterns }.proceed
  return none

/-- A pattern for the instances of a class, after the name of the class. -/
def classPattern (inner : Rule Pattern) (callee : Expr) : Rule Pattern := do
  symbol "("
  let state ← iterate (classStep inner) .empty
  symbol ")"
  return .classPattern callee state.patterns.reverse state.names.reverse state.named.reverse

/-- Patterns between brackets, and whether a comma follows the last one. -/
def bracketed (inner : Rule Pattern) (opening closing : String) : Rule (List Pattern × Bool) := do
  symbol opening
  if ← acceptSymbol closing then return ([], true)
  let read ← items startsPattern inner
  symbol closing
  return read

/-! ### Patterns together -/

/-- Several patterns, or one that a comma follows, are a sequence; one pattern is itself. -/
def sequenceOf : List Pattern × Bool → Pattern
  | ([pattern], false) => pattern
  | (patterns, _) => .sequence patterns

/-- A pattern without alternatives outside. -/
def closedPattern (self : Rules) (inner : Rule Pattern) : Rule Pattern := do
  let start ← position
  match ← peek with
  | some (.name id) =>
    skip
    let isDotted ← nextSymbol "."
    let name ← dottedRest start (.name start id)
    if ← nextSymbol "(" then return ← classPattern inner name
    return if isDotted then .value name else .capture id
  | some (.string _) => return .value (← strings self followsString)
  | some (.keyword word) =>
    unless ["None", "True", "False"].contains word do unexpected false
    skip
    return .singleton
  | some (.symbol "*") =>
    skip
    return .star (← identifier)
  | some (.symbol "(") => return sequenceOf (← bracketed inner "(" ")")
  | some (.symbol "[") => return .sequence (← bracketed inner "[" "]").1
  | some (.symbol "\x7b") => mappingPattern self inner
  | _ => return .value (← numberPattern)

/-- Patterns with `|` between them, which may be bound to a name. -/
def bindingPattern (self : Rules) (inner : Rule Pattern) : Rule Pattern := do
  let start ← position
  let first ← closedPattern self inner
  let others ← many (acceptSymbol "|") (closedPattern self inner)
  let pattern := if others.isEmpty then first else .alternatives (first :: others)
  if ← acceptKeyword "as" then
    let id ← identifier
    if id = "_" then complain followsPattern .wildcardTarget start
    return .binding pattern id
  return pattern

def pattern (self : Rules) : Nat → Rule Pattern
  | 0 => unexpected false
  | level + 1 => fun cursor => bindingPattern self (pattern self level) cursor

/-- The patterns of a `case` block. -/
def patterns (self : Rules) (level : Nat) : Rule Pattern := do
  return sequenceOf (← items startsPattern (pattern self level))

end PythonLint.Grammar
