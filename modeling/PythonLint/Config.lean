import PythonLint.FileTree
import PythonLint.Lint
import PythonLint.Toml.Document

/-!
# Configuration

The settings of a run come from a section of the project file, from the command line and from
defaults.

## Design notes

A section is a table, or an array of the settings in their order. One bad setting makes the whole
section count for nothing, and settings with other names are of no interest.
-/

namespace PythonLint

open Toml (Value)

/-- Settings that may be left open. -/
structure Config where
  version : Option Version
  /-- The passes to run; none stands for all. -/
  passes : List Pass
  exclude : List String
  ignoreFile : Option Path
deriving DecidableEq, Repr

namespace Config

def empty : Config := ⟨none, [], [], none⟩

def fileName : String := "pyproject.toml"

def sectionName : String := "pyward"

/-! ### Reading a section -/

def items? : Value → Option (List Value)
  | .array items => some items
  | .tables items => some items
  | _ => none

def isVacant : Value → Bool
  | .array items => items.isEmpty
  | .table _ entries => entries.isEmpty
  | _ => false

/-- The name of a choice, which may also be the only key of a table, without content. -/
def choice? : Value → Option String
  | .text name => some name
  | .table _ [(name, content)] => if isVacant content then some name else none
  | _ => none

def text? : Value → Option String
  | .text content => some content
  | .moment content => some content
  | _ => none

def version? (value : Value) : Option Version := do
  let name ← choice? value
  [Version.python2, Version.python3].find? fun version => version.name == name

def pass? (value : Value) : Option Pass := do
  let name ← choice? value
  Pass.all.find? fun pass => pass.name == name

/-- The settings with the given values; one that is not given is open. -/
def ofFields? (version passes exclude ignoreFile : Option Value) : Option Config := do
  let version ← version.mapM version?
  let passes ← passes.mapM fun value => (items? value).bind (·.mapM pass?)
  let exclude ← exclude.mapM fun value => (items? value).bind (·.mapM text?)
  let ignoreFile ← ignoreFile.mapM text?
  return ⟨version, passes.getD [], exclude.getD [], ignoreFile.map Path.ofString⟩

def ofValue? (value : Value) : Option Config :=
  match value with
  | .table _ _ =>
    ofFields? (value.get? "target-version") (value.get? "analysers") (value.get? "exclude")
      (value.get? "ignore-file")
  | _ =>
    match items? value with
    | some items =>
      if items.length ≤ 4 then ofFields? items[0]? items[1]? items[2]? items[3]? else none
    | none => none

end Config

/-! ### Project files -/

def configSection? (world : World) (path : Path) : Option Value := do
  let content ← (world.readText path).toOption
  let document ← Toml.parse content
  let tools ← document.get? "tool"
  tools.get? Config.sectionName

/-- The nearest project file with a section, in a directory or above it. -/
def findConfig (world : World) (start : Path) : Option Path := do
  let directory ← if world.isFile start then start.parent? else some start
  (directory.ancestors.map fun above => above.join Config.fileName).find? fun path =>
    (configSection? world path).isSome

/-- The settings in a project file: the given one, or the nearest. -/
def loadConfig (world : World) (path : Option Path) : Option Config := do
  let path ← match path with
    | some path => some path
    | none => findConfig world world.workingPath
  let content ← configSection? world path
  Config.ofValue? content

/-! ### All settings of a run -/

/-- All settings of a run. -/
structure EffectiveConfig where
  settings : Settings
  exclude : List String
  ignoreFile : Path
deriving DecidableEq, Repr

def defaultIgnoreFile : Path := .ofString ".pyward.ignore"

/-- The directories that are always left out. -/
def defaultExclude : List String :=
  [".venv", "venv", "__pycache__", ".git", ".tox", "build", "dist", ".pytest_cache", ".ruff_cache",
    "node_modules", ".mypy_cache"]

def orIfEmpty {α : Type} (first second : List α) : List α :=
  if first.isEmpty then second else first

namespace Config

/-- All settings of a run. What the command line says comes before what the project file says, but
both say what to leave out. -/
def merge (file : Option Config) (command : Config) : EffectiveConfig :=
  let file := file.getD empty
  let exclude := file.exclude ++ command.exclude
  { settings :=
      { version := (command.version.or file.version).getD .python3
        enabled := orIfEmpty command.passes (orIfEmpty file.passes Pass.all) }
    exclude := exclude ++ defaultExclude.filter fun name => !exclude.contains name
    ignoreFile := (command.ignoreFile.or file.ignoreFile).getD defaultIgnoreFile }

end Config

end PythonLint
