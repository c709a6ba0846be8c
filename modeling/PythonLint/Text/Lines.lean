/-!
# Lines of a text

A text is cut at its line feeds. `segments` keeps what stands between them, an empty rest included;
`lines` gives the lines as a reader counts them: a line feed ends a line, a carriage return right
before it belongs to the line end, and nothing follows the last line end.
-/

namespace PythonLint.Text

/-- The pieces of a text between its line feeds, one more than there are line feeds. -/
def segments : List Char → List (List Char)
  | [] => [[]]
  | c :: rest =>
    if c = '\n' then [] :: segments rest
    else match segments rest with
      | [] => [[c]]
      | first :: others => (c :: first) :: others

def dropReturn (line : List Char) : List Char :=
  if line.getLast? = some '\r' then line.dropLast else line

/-- The lines that `pieces` stand for: all but the last piece were ended by a line feed. -/
def linesOfSegments : List (List Char) → List (List Char)
  | [] => []
  | [last] => if last.isEmpty then [] else [last]
  | piece :: rest => dropReturn piece :: linesOfSegments rest

def lines (text : List Char) : List (List Char) :=
  linesOfSegments (segments text)

def unlines : List (List Char) → List Char
  | [] => []
  | [line] => line
  | line :: rest => line ++ '\n' :: unlines rest

end PythonLint.Text
