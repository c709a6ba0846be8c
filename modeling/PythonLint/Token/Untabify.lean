import PythonLint.Text.Bytes
import PythonLint.Text.Lines

/-!
# Tabs in indentation

A tab after spaces is a fault for the scanner, while the token stream accepts it. So tokens are
scanned from a copy of the source in which every tab of an indentation is a space. Both are one byte
long, so a position in the copy is a position in the source. A source without such tabs is its own
copy.
-/

namespace PythonLint

open Text

/-- The characters that may stand at the start of a line, before its code. -/
def isIndentChar (c : Char) : Bool :=
  c == ' ' || c == '\t' || c == '\x0c'

/-- Some line has a tab among the blanks at its start. -/
def hasIndentTab (text : List Char) : Bool :=
  (segments text).any fun line => (line.takeWhile isIndentChar).contains '\t'

/-- The number of bytes before the first character of a line that is no blank. -/
def indentBytes : List Char → Nat
  | [] => 0
  | c :: rest => if isIndentChar c then c.utf8Size + indentBytes rest else 0

def untabifyChar (c : Char) : Char :=
  if c = '\t' then ' ' else c

/-- The line with a space for every tab among the blanks at its start. -/
def untabifyLine (line : List Char) : List Char :=
  (takeBytes (indentBytes line) line).map untabifyChar ++ dropBytes (indentBytes line) line

/-- The text with a space for every tab among the blanks at the start of a line. -/
def untabifyLines (text : List Char) : List Char :=
  unlines ((segments text).map untabifyLine)

/-- The copy of a source that is scanned. -/
def untabify (text : List Char) : List Char :=
  if hasIndentTab text then untabifyLines text else text

end PythonLint
