import PythonLint.Location
import PythonLint.Text.Bytes

/-!
# Positions and locations

A position is a byte offset into a text, a location is a line and a column. Lines end at line feeds
only, and a line feed belongs to the line that it ends. Both directions of the conversion are total:
a position past the end stands for the end, and a location past the end of its line stands for the
start of the next one.
-/

namespace PythonLint

open Text

/-- The location `offset` bytes further on, when `text` starts at `here` and `bytes` bytes of its
line come before it. Inside a character the column is counted in bytes. -/
def locationFrom : List Char → (offset : Nat) → (here : Location) → (bytes : Nat) → Location
  | _, 0, here, _ => here
  | [], _ + 1, here, _ => here
  | c :: rest, n + 1, here, bytes =>
    if n + 1 < c.utf8Size then ⟨here.line, bytes + (n + 1)⟩
    else if c = '\n' then locationFrom rest (n + 1 - c.utf8Size) ⟨here.line + 1, 0⟩ 0
    else locationFrom rest (n + 1 - c.utf8Size) ⟨here.line, here.column + 1⟩ (bytes + c.utf8Size)

/-- The location of a byte offset; past the end it is the location of the end. -/
def locationAt (text : List Char) (offset : Nat) : Location :=
  locationFrom text offset ⟨1, 0⟩ 0

/-- The byte offset of column `column` of a line that `text` starts in, at most that of the next
line, when `passed` bytes come before it. -/
def columnOffset : List Char → (column passed : Nat) → Nat
  | _, 0, passed => passed
  | [], _ + 1, passed => passed
  | c :: rest, n + 1, passed =>
    if c = '\n' then passed + c.utf8Size else columnOffset rest n (passed + c.utf8Size)

/-- The byte offset of column `column` of the line that `below` more line feeds precede, when
`passed` bytes come before `text`. -/
def lineOffset : List Char → (below column passed : Nat) → Nat
  | text, 0, column, passed => columnOffset text column passed
  | [], _ + 1, _, passed => passed
  | c :: rest, n + 1, column, passed =>
    lineOffset rest (if c = '\n' then n else n + 1) column (passed + c.utf8Size)

/-- The byte offset of a location. A column past the end of its line stands for the start of the
next line, a line past the last one for the end of the text, and line zero for the start. -/
def offsetAt (text : List Char) (location : Location) : Nat :=
  match location.line with
  | 0 => 0
  | n + 1 => lineOffset text n location.column 0

/-- The text between two locations, empty when they are out of order. -/
def textBetween (text : List Char) (start stop : Location) : List Char :=
  sliceBytes text (offsetAt text start) (offsetAt text stop)

end PythonLint
