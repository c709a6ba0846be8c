import PythonLint.Lexeme.Scan

/-!
# Grammar rules

A rule reads lexemes from a cursor and yields what it has recognised, or the fault of the first
lexeme that nothing can continue with. Rules never look further than the lexeme after next, and they
give up only at a lexeme that no sentence of the grammar has at this place. So the fault that is
reported is that of the first lexeme that cannot be right, and a fault of the scan shows only when a
rule gets there.
-/

namespace PythonLint

/-- The lexemes not read yet. -/
structure Cursor where
  rest : List Lexeme
  /-- The position after the lexeme read last. -/
  last : Nat
  fault : Option Misplaced

namespace Cursor

def ofScan (scan : Scan) : Cursor := ⟨scan.lexemes, 0, scan.fault⟩

end Cursor

abbrev Rule := StateT Cursor (Except Misplaced)

namespace Rule

variable {α : Type}

/-- The next token, `none` at the end. A fault of the scan at this place is raised. -/
def peek : Rule (Option Tok) := fun cursor =>
  match cursor.rest, cursor.fault with
  | [], some fault => .error fault
  | [], none => .ok (none, cursor)
  | lexeme :: _, _ => .ok (some lexeme.tok, cursor)

def peekSecond : Rule (Option Tok) := fun cursor =>
  .ok ((cursor.rest[1]?).map Lexeme.tok, cursor)

/-- The position of the next lexeme, at the end that of the end. -/
def position : Rule Nat := fun cursor =>
  .ok ((cursor.rest.head?.map Lexeme.start).getD cursor.last, cursor)

def fail (fault : Fault) (offset : Nat) : Rule α :=
  throw ⟨fault, offset⟩

/-- Gives up at the next lexeme; `indentOnly` says that only an indentation could stand here. -/
def unexpected (indentOnly : Bool) : Rule α := do
  let offset ← position
  match ← peek with
  | some tok => fail (.unexpectedToken tok indentOnly) offset
  | none => fail (if indentOnly then .unmatchedIndentation else .endOfTokens) offset

/-- Reads the next lexeme, whatever it is. -/
def skip : Rule Unit := fun cursor =>
  match cursor.rest with
  | [] => .ok ((), cursor)
  | lexeme :: rest => .ok ((), { cursor with rest, last := lexeme.stop })

def next (tok : Tok) : Rule Bool := do
  return (← peek) == some tok

/-- Reads the next token if it is the given one, and says whether it was. -/
def accept (tok : Tok) : Rule Bool := do
  if ← next tok then
    skip
    return true
  return false

/-- Reads the given token, which has to come next. -/
def expect (tok : Tok) : Rule Unit := do
  unless ← accept tok do unexpected false

/-- Reads the given symbol, which has to come next. -/
def symbol (text : String) : Rule Unit :=
  expect (.symbol text)

/-- Reads the given keyword, which has to come next. -/
def keyword (text : String) : Rule Unit :=
  expect (.keyword text)

def nextSymbol (text : String) : Rule Bool :=
  next (.symbol text)

def nextKeyword (text : String) : Rule Bool :=
  next (.keyword text)

/-- Reads the next token if it is the given symbol, and says whether it was. -/
def acceptSymbol (text : String) : Rule Bool :=
  accept (.symbol text)

/-- Reads the next token if it is the given keyword, and says whether it was. -/
def acceptKeyword (text : String) : Rule Bool :=
  accept (.keyword text)

def identifier : Rule String := do
  match ← peek with
  | some (.name text) =>
    skip
    return text
  | _ => unexpected false

def nextNameThen (text : String) : Rule Bool := do
  match ← peek, ← peekSecond with
  | some (.name _), some (.symbol second) => return second == text
  | _, _ => return false

/-- Whether the next token satisfies `p`. -/
def nextIs (p : Tok → Bool) : Rule Bool := do
  return (← peek).any p

/-- Repeats a step from one value to the next until it yields none, or reads nothing. -/
def iterate (step : α → Rule (Option α)) (value : α) : Rule α := fun cursor =>
  match step value cursor with
  | .error fault => .error fault
  | .ok (none, after) => .ok (value, after)
  | .ok (some value, after) =>
    if after.rest.length < cursor.rest.length then iterate step value after else .ok (value, after)
termination_by cursor => cursor.rest.length

/-- Items read as long as `more` says that there is another one. -/
def many (more : Rule Bool) (item : Rule α) : Rule (List α) := do
  let step (items : List α) : Rule (Option (List α)) := do
    if ← more then return some ((← item) :: items)
    return none
  return (← iterate step []).reverse

/-- Further items, each after a comma. Nothing but an item may follow the comma. -/
def manyAfterComma (item : Rule α) : Rule (List α) :=
  many (nextSymbol ",") (do symbol ","; item)

/-- Items separated by commas, the last of which no comma follows. -/
def commaList (item : Rule α) : Rule (List α) := do
  return (← item) :: (← manyAfterComma item)

/-- Further items, each after a comma, and whether a comma follows the last one; `starts` tells the
tokens that an item starts with. -/
def moreItems (starts : Tok → Bool) (item : Rule α) : Rule (List α × Bool) := do
  let step (state : List α × Bool) : Rule (Option (List α × Bool)) := do
    if state.2 then return none
    if ← acceptSymbol "," then
      if ← nextIs starts then return some ((← item) :: state.1, false)
      return some (state.1, true)
    return none
  let (items, trailing) ← iterate step ([], false)
  return (items.reverse, trailing)

/-- Items separated by commas, and whether a comma follows the last one. -/
def items (starts : Tok → Bool) (item : Rule α) : Rule (List α × Bool) := do
  let first ← item
  let (others, trailing) ← moreItems starts item
  return (first :: others, trailing)

/-- Reads an optional part when the next token starts one. -/
def optional (starts : Tok → Bool) (item : Rule α) : Rule (Option α) := do
  if ← nextIs starts then return some (← item)
  return none

/-- Two ways to read the same lexemes. When both fail, the fault is that of the way that gets
further, and of the second when both get equally far. -/
def orElse (first second : Rule α) : Rule α := fun cursor =>
  match first cursor with
  | .ok result => .ok result
  | .error early =>
    match second cursor with
    | .ok result => .ok result
    | .error late => .error (if late.offset < early.offset then early else late)

end Rule

end PythonLint
