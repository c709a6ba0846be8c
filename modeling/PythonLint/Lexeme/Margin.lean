import PythonLint.Fault

/-!
# Indentation

At the start of a line the scanner reads the margin: blanks, and before the first line with code
also whole blank lines and comment lines. The margin of a line with code is measured as a number of
tabs and a number of spaces, which are compared so that the width of a tab does not matter. A deeper
line opens a block, a shallower line closes blocks and has to land on a level that is open.
-/

namespace PythonLint

/-- A measured indentation. -/
structure Level where
  tabs : Nat
  spaces : Nat
deriving DecidableEq, Repr

namespace Level

def zero : Level := ⟨0, 0⟩

def width (level : Level) : Nat :=
  level.tabs + level.spaces

/-- How two levels compare whatever the width of a tab; `none` when that matters. -/
def compare (a b : Level) : Option Ordering :=
  if a.tabs < b.tabs then if a.spaces ≤ b.spaces then some .lt else none
  else if b.tabs < a.tabs then if b.spaces ≤ a.spaces then some .gt else none
  else if a.spaces < b.spaces then some .lt
  else if b.spaces < a.spaces then some .gt
  else some .eq

end Level

def isLineEnd (c : Char) : Bool :=
  c = '\n' || c = '\r'

/-- The level of the next line with code, and the number of characters before that code. A form
feed, a comment and a line end start the measuring again. `level` has been measured and `size`
characters have been read; `comment` says that the text is inside a comment. -/
def readMargin (comment : Bool) (level : Level) (size : Nat) :
    List Char → Except (Fault × Nat) (Level × Nat)
  | [] => .ok (.zero, size)
  | c :: rest =>
    if isLineEnd c then readMargin false .zero (size + 1) rest
    else if comment then readMargin true .zero (size + 1) rest
    else if c = ' ' then readMargin false ⟨level.tabs, level.spaces + 1⟩ (size + 1) rest
    else if c = '\t' then
      if level.spaces ≠ 0 then .error (.tabAfterSpaces, size)
      else readMargin false ⟨level.tabs + 1, level.spaces⟩ (size + 1) rest
    else if c = '\x0c' then readMargin false .zero (size + 1) rest
    else if c = '#' then readMargin true .zero (size + 1) rest
    else .ok (level, size)

/-- What the start of a line does to the blocks that are open. -/
inductive LineChange where
  | same
  | opens
  | closes (count : Nat)
deriving DecidableEq, Repr

def currentLevel (levels : List Level) : Level :=
  levels.headD .zero

/-- Closes levels down to `level`: how many are closed and which stay open, innermost first. -/
def closeLevels (level : Level) : List Level → Except Fault (Nat × List Level)
  | [] =>
    match level.compare .zero with
    | some .eq => .ok (0, [])
    | some _ => .error .unmatchedIndentation
    | none => .error .inconsistentTabs
  | current :: outer =>
    match level.compare current with
    | some .lt => (closeLevels level outer).map fun (count, levels) => (count + 1, levels)
    | some .eq => .ok (0, current :: outer)
    | some .gt => .error .unmatchedIndentation
    | none => .error .inconsistentTabs

/-- The change of open levels, innermost first, at the start of a line at `level`. -/
def enterLine (level : Level) (levels : List Level) : Except Fault (LineChange × List Level) :=
  match level.compare (currentLevel levels) with
  | none => .error .inconsistentTabs
  | some .eq => .ok (.same, levels)
  | some .gt => .ok (.opens, level :: levels)
  | some .lt => (closeLevels level levels).map fun (count, levels) => (.closes count, levels)

end PythonLint
