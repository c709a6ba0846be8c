import PythonLint.Text.Blank
import PythonLint.Text.Lines
import PythonLint.Warning

/-!
# The pass over lines

A physical line, the blanks at its end aside, has at most 79 characters.
-/

namespace PythonLint

open Text

def maxLineLength : Nat := 79

def longLine (file : String) (number : Nat) (line : List Char) : Warning :=
  ⟨.lineTooLong, "Line is longer than 79 characters. You should keep it below that", file,
    ⟨number, 0⟩, ⟨number, line.length⟩, [String.ofList (trimEnd line)]⟩

/-- The warnings about the long ones among lines, the first of which has the given number. -/
def longLinesFrom (file : String) (number : Nat) : List (List Char) → List Warning
  | [] => []
  | line :: rest =>
    let others := longLinesFrom file (number + 1) rest
    if maxLineLength < (trimEnd line).length then longLine file number line :: others else others

def checkLines (file : String) (text : List Char) : List Warning :=
  longLinesFrom file 1 (lines text)

end PythonLint
