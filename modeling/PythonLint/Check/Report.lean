import PythonLint.LogicalLine
import PythonLint.Warning

/-!
# Reporting warnings

A check reports what it finds with the logical lines that it is about. Most checks report a whole
logical line.
-/

namespace PythonLint

/-- A file and its lines. -/
structure Reporter where
  file : String
  lines : LineMap
deriving DecidableEq, Repr

namespace Reporter

def ofTokens (file : String) (text : List Char) (tokens : List Token) : Reporter :=
  ⟨file, .ofTokens (physicalLines text) tokens⟩

/-- A warning between two locations, with the logical lines that it touches. -/
def between (reporter : Reporter) (kind : WarningKind) (message : String) (start stop : Location) :
    Warning :=
  ⟨kind, message, reporter.file, start, stop, reporter.lines.linesBetween start stop⟩

def onLine (reporter : Reporter) (kind : WarningKind) (message : String) (line : Nat) : Warning :=
  let (start, stop) := reporter.lines.span line
  reporter.between kind message start stop

end Reporter

/-- The checks that a table gives for a key, in the order of the table. -/
def checksFor {κ α : Type} [DecidableEq κ] (table : List (κ × α)) (key : κ) : List α :=
  table.filterMap fun (other, check) => if other = key then some check else none

end PythonLint
