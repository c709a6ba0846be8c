/-!
# Reading characters

A reader takes characters from the start of a text and gives a value, or fails.
-/

namespace PythonLint.Toml

/-- A reader of characters: it fails, or gives a value and the rest of the text. -/
abbrev Reader (α : Type) := StateT (List Char) Option α

namespace Reader

def satisfy (p : Char → Bool) : Reader Char := fun text =>
  match text with
  | [] => none
  | c :: rest => if p c then some (c, rest) else none

def next : Reader Char := satisfy fun _ => true

def char (c : Char) : Reader Unit := do
  let _ ← satisfy (· == c)

def chars : List Char → Reader Unit
  | [] => pure ()
  | c :: rest => do
    char c
    chars rest

def takeWhile (p : Char → Bool) : Reader (List Char) := fun text =>
  some (text.takeWhile p, text.dropWhile p)

def atEnd : Reader Unit := fun text =>
  if text.isEmpty then some ((), []) else none

def maybe {α : Type} (item : Reader α) : Reader (Option α) := fun text =>
  match item text with
  | none => some (none, text)
  | some (value, rest) => some (some value, rest)

/-- As many items as there are; each takes at least one character. -/
def many {α : Type} (item : Reader α) : Reader (List α) := fun text =>
  match item text with
  | none => some ([], text)
  | some (first, rest) =>
    if rest.length < text.length then
      match many item rest with
      | none => none
      | some (others, after) => some (first :: others, after)
    else some ([], text)
termination_by text => text.length

def sepBy {α : Type} (item : Reader α) (separator : Reader Unit) : Reader (List α) := do
  let first ← item
  let others ← many do
    separator
    item
  return first :: others

/-- One or more digits that satisfy `p`, with single underscores between digits. -/
def digits (p : Char → Bool) : Reader (List Char) := do
  let first ← satisfy p
  let others ← many (satisfy p <|> do
    char '_'
    satisfy p)
  return first :: others

def exactly (count : Nat) (p : Char → Bool) : Reader (List Char) :=
  match count with
  | 0 => pure []
  | n + 1 => do
    let first ← satisfy p
    let others ← exactly n p
    return first :: others

def require (condition : Bool) : Reader Unit := fun text =>
  if condition then some ((), text) else none

end Reader

end PythonLint.Toml
