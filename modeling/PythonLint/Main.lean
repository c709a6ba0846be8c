import PythonLint.CommandLine.Run
import Std.Time.DateTime

/-!
# The program

Looks up the files that a command line is about, runs it, prints what it gives, and adds to the log
file.
-/

namespace PythonLint.CommandLine

def placeOf (working : List String) (path : Path) : List String :=
  (Path.pieces path.text).foldl (fun place piece =>
    if piece = [] ∨ piece = ['.'] then place
    else if piece = ['.', '.'] then place.dropLast
    else place ++ [String.ofList piece]) (if path.isAbsolute then [] else working)

/-- What a path leads to now. Directories are read as a whole if `deep` says so, with the content of
Python files; links to directories are not followed below them. -/
partial def snapshot (deep named : Bool) (path : Path) : IO (Option FileTree) := do
  let file := (← IO.currentDir) / path.shown
  let some found := (← file.metadata.toBaseIO).toOption | return none
  match found.type with
  | .dir =>
    if !named && (← file.symlinkMetadata).type == .symlink then return none
    if !deep then return some .empty
    let entries ← (← file.readDir).toList.filterMapM fun entry => do
      let inner ← snapshot true false (path.join entry.fileName)
      return inner.map fun tree => (entry.fileName, tree)
    return some (.directory entries)
  | .file =>
    if named || isPythonFile path then
      return (← (IO.FS.readBinFile file).toBaseIO).toOption.map fun bytes => .file bytes.toList
    else return some (.file [])
  | _ => return none

/-- The world with what a path leads to, and with the directories on the way. -/
def addPath (deep : Bool) (world : World) (path : Path) : IO World := do
  let mut root := world.root
  for above in path.ancestors.tail.reverse do
    if !above.text.isEmpty then
      let place := placeOf world.working above
      if (root.get? place).isNone then
        if let some tree ← snapshot false true above then
          root := FileTree.put tree place root
  if let some tree ← snapshot deep true path then
    let place := placeOf world.working path
    if deep || !tree.isDirectory || (root.get? place).isNone then
      root := FileTree.put tree place root
  return { world with root := root }

/-- The files that options are about: the project files, the ignore file, the log file and the
targets. -/
def worldFor (options : Options) : IO World := do
  let working := (← IO.currentDir).components.filter (· ≠ "")
  let bare : World := ⟨FileTree.put .empty working .empty, working⟩
  let projects := bare.workingPath.ancestors.map fun above => above.join Config.fileName
  let nearby ← projects.foldlM (addPath false) bare
  let config := if options.has .noConfig then none else loadConfig nearby none
  let effective := Config.merge config options.config
  let full ← options.targets.foldlM (addPath true) bare
  let others := effective.ignoreFile :: (options.logFile.map Path.ofString).toList
  (projects ++ others).foldlM (addPath false) full

def worldOf : Request → IO World
  | .run options => worldFor options
  | _ => return ⟨.empty, []⟩

def addToLog (path : Path) (text : List Char) : IO Unit := do
  if let some parent := path.parent? then
    if !parent.text.isEmpty then IO.FS.createDirAll parent.shown
  IO.FS.withFile path.shown .append fun handle => handle.putStr (String.ofList text)

def runProgram (arguments : List String) : IO UInt32 := do
  let color := showsStyles (← IO.getEnv "CLICOLOR_FORCE") (← IO.getEnv "NO_COLOR")
    (← IO.getEnv "CLICOLOR") (← (← IO.getStdout).isTty)
  let seconds := (← Std.Time.Timestamp.now).toSecondsSinceUnixEpoch.val.toNat
  let request := readArguments arguments
  let outcome := perform ⟨color, .ofSeconds seconds⟩ (← worldOf request) request
  if let some (path, text) := outcome.logged then addToLog path text
  (← IO.getStdout).putStr outcome.output
  (← IO.getStderr).putStr outcome.errors
  return outcome.status.toUInt32

end PythonLint.CommandLine

def main (arguments : List String) : IO UInt32 :=
  PythonLint.CommandLine.runProgram arguments
