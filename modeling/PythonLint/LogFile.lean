import PythonLint.FileTree
import PythonLint.RunLog
import PythonLint.Text.Lines

/-!
# Log files

A log file holds one record of a run on each line. It is made when it is opened, together with the
directories above it, and records are added at its end.
-/

namespace PythonLint

namespace World

def createParent (world : World) (path : Path) : Except FileError World :=
  match path.parent? with
  | none => .ok world
  | some parent =>
    if parent.text.isEmpty || world.exists? parent then .ok world
      else world.createDirectories parent

def openLog (world : World) (path : Path) : Except FileError World := do
  let ready ← world.createParent path
  ready.append path []

/-- The world with one more record at the end of a log file. -/
def addRecord (world : World) (path : Path) (time : Timestamp) (record : RunRecord) :
    Except FileError World :=
  world.append path (Text.encodeUtf8 (record.line time ++ ['\n']))

def logLines (world : World) (path : Path) : Except FileError (List (List Char)) := do
  return Text.lines (← world.readText path)

end World

end PythonLint
