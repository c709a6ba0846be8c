import PythonLint.Toml.Scalar

/-!
# TOML documents

A document is a sequence of lines: keys with their values, and headers of tables.
-/

namespace PythonLint.Toml

open Reader

def arrayOf (item : Reader Value) : Reader Value := do
  char '['
  let items ← maybe do
    let items ← sepBy (do
      space
      let value ← item
      space
      return value) (char ',')
    let _ ← maybe (char ',')
    return items
  space
  char ']'
  return .array (items.getD [])

def assignmentOf (item : Reader Value) : Reader Assignment := do
  let (path, name) ← key
  char '='
  blanks
  let value ← item
  return ⟨path, name, value⟩

def inlineTableOf (item : Reader Value) : Reader Value := do
  char '\x7b'
  let items ← maybe (sepBy (do
    let pair ← assignmentOf item
    blanks
    return pair) (char ','))
  blanks
  char '\x7d'
  match (items.getD []).foldlM Value.insert (Value.emptyTable .inline) with
  | none => failure
  | some table => return table

/-- A value in which at most `depth` brackets are open at a time. -/
def value : Nat → Reader Value
  | 0 => text <|> truth <|> moment <|> number
  | depth + 1 =>
    text <|> truth <|> moment <|> number <|> arrayOf (value depth) <|> inlineTableOf (value depth)

/-- A line of a document. -/
inductive Line where
  | empty
  | header (header : Header)
  | assignment (item : Assignment)

def header : Reader Header :=
  (do
    chars ['[', '[']
    let (path, name) ← key
    chars [']', ']']
    return ⟨path, name, true⟩)
  <|> do
    char '['
    let (path, name) ← key
    char ']'
    return ⟨path, name, false⟩

/-- A line of a document, with the blanks at the start of the next one. -/
def line : Reader Line := do
  let found ← (do
      newline
      return Line.empty)
    <|> (do
      comment
      lineEnd
      return Line.empty)
    <|> (do
      let found ← header
      trailing
      return Line.header found)
    <|> do
      let found ← assignmentOf (value maxDepth)
      trailing
      return Line.assignment found
  blanks
  return found

/-- The keys before the first header, and the sections. -/
def sectionsOf : List Line → List Assignment × List Section
  | [] => ([], [])
  | .empty :: rest => sectionsOf rest
  | .assignment item :: rest =>
    let (items, sections) := sectionsOf rest
    (item :: items, sections)
  | .header header :: rest =>
    let (items, sections) := sectionsOf rest
    ([], ⟨header, items⟩ :: sections)

/-- All lines of a document, which may start with a byte order mark. -/
def lines : Reader (List Line) := do
  let _ ← maybe (char '\ufeff')
  blanks
  let found ← many line
  atEnd
  return found

/-- The table that a document stands for, if it is well formed. -/
def parse (text : List Char) : Option Value := do
  let (found, _) ← lines text
  let (items, sections) := sectionsOf found
  Value.ofSections items sections

end PythonLint.Toml
