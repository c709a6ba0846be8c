import PythonLint.FileTree
import PythonLint.Lint

/-!
# Files to lint

The Python files that paths stand for, and linting them.

## Design notes

A file that is named itself is never left out, and neither is a directory. Below a directory, the
patterns apply to the whole path, the names of the directory itself included.
-/

namespace PythonLint

open Ignore (IgnoreError IgnoreFilter Notice)

/-- The patterns leave out a path: one of them is a name in it, or starts with a star and the last
name ends with the rest of it. -/
def excludes (patterns : List String) (path : Path) : Bool :=
  patterns.any fun pattern =>
    match pattern.toList with
    | '*' :: ending => path.fileName?.any fun name => ending.isSuffixOf name
    | name => path.names.contains name

def isPythonFile (path : Path) : Bool :=
  path.extension? == some ['p', 'y']

mutual

def filesIn (patterns : List String) (path : Path) : FileTree → List Path
  | .file _ => if isPythonFile path then [path] else []
  | .directory entries =>
    ((filesOfEntries patterns path entries).mergeSort fun a b =>
      decide (a.1 ≤ b.1)).flatMap Prod.snd

def filesOfEntries (patterns : List String) (path : Path) :
    List (String × FileTree) → List (String × List Path)
  | [] => []
  | (name, tree) :: rest =>
    let inner := path.join name
    let others := filesOfEntries patterns path rest
    if excludes patterns inner then others else (name, filesIn patterns inner tree) :: others

end

/-- The Python files that paths stand for. A path that leads nowhere stands for none. -/
def collectFiles (world : World) (patterns : List String) (paths : List Path) : List Path :=
  paths.flatMap fun path =>
    match world.find path with
    | .ok tree => filesIn patterns path tree
    | .error _ => []

def lintFile [Text.CharNames] (world : World) (settings : Settings) (filter : IgnoreFilter)
    (path : Path) : LintResult :=
  match world.readBytes path with
  | .ok bytes => lintBytes settings filter path.shown bytes
  | .error error => .unreadable path.shown (.unreadable error)

/-- What an ignore file suppresses, and the notices about it. Without the file, nothing is
suppressed. -/
def loadIgnoreFile (world : World) (path : Path) :
    Except IgnoreError (IgnoreFilter × List Notice) :=
  match world.readText path with
  | .ok content => Ignore.loadIgnore path.shown content
  | .error .notFound => .ok (.allowAll, [])
  | .error error => .error (.unreadable path.shown error)

end PythonLint
