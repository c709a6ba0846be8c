import PythonLint.Collect
import PythonLint.CommandLine.Option
import PythonLint.Format
import PythonLint.LogFile

/-!
# Running a command line

What a command line prints, what it adds to a log file, and how it ends.
-/

namespace PythonLint.CommandLine

open Ignore (IgnoreError IgnoreFilter Notice)

/-- What a run knows of its surroundings. -/
structure Terminal where
  color : Bool
  time : Timestamp

def isOn (value : String) : Bool := value ≠ "0"

/-- Styles are shown: by force, or on a terminal unless a variable of the environment is against
it. -/
def showsStyles (force refuse allow : Option String) (isTerminal : Bool) : Bool :=
  if force.any isOn then true
  else if refuse.isSome then false
  else (allow.map isOn).getD true && isTerminal

/-- What a run prints and leaves behind. -/
structure Outcome where
  /-- The status at the end: 0 if all is well, 1 if there are warnings, 2 after an error. -/
  status : Nat
  output : String
  errors : String
  world : World
  /-- The log file and what has been added to it. -/
  logged : Option (Path × List Char)

namespace Outcome

def printed (world : World) (output : String) : Outcome := ⟨0, output, "", world, none⟩

def failed (world : World) (errors : String) : Outcome := ⟨2, "", errors, world, none⟩

end Outcome

/-! ### Printed texts -/

def padded (width : Nat) (text : String) : String :=
  text ++ String.ofList (List.replicate (width - text.length) ' ')

def block (lines : List String) : String :=
  String.join (lines.map (· ++ "\n"))

def nameWidth : Nat := 36

def warningList (color : Bool) : String :=
  let column (name : String) := Style.boldCyan.paint color (padded nameWidth name)
  let kinds := WarningKind.all.map fun kind =>
    column kind.name ++ " " ++ padded 6 kind.pass.name ++ " " ++ kind.description
  let categories := Category.all.map fun category =>
    column category.name ++ " " ++ ", ".intercalate (category.members.map WarningKind.name)
  block (kinds ++ [""] ++ categories)

def noticeLines (color : Bool) (notice : Notice) : List String :=
  (Style.boldYellow.paint color "ignore:" ++ " " ++ notice.text) ::
    notice.lines.map fun line => "    " ++ Style.dimmed.paint color line

def errorLines (color : Bool) (results : List LintResult) : List String :=
  results.flatMap fun result => result.errors.map fun error =>
    Style.red.paint color result.file ++ ": " ++ error.message

def breakdown (warnings : List Warning) : Tally :=
  warnings.foldl (fun counts warning => counts.add warning.kind.name) .empty

def summaryLines (verbose : Bool) (warnings : List Warning) : List String :=
  if warnings.isEmpty then if verbose then ["", "No issues found."] else []
  else
    let counts :=
      (breakdown warnings).entries.map fun (name, count) => toString count ++ " " ++ name
    ["", "Found " ++ toString warnings.length ++ " warning(s): " ++ ", ".intercalate counts]

def failureLine (color : Bool) (message : String) : String :=
  Style.boldRed.paint color "error:" ++ " " ++ message ++ "\n"

def ignoreFailure (path : Path) (error : IgnoreError) : String :=
  "cannot load ignore file " ++ path.shown ++ ": " ++ error.message ++ ": " ++ error.cause

def logFailure (path : Path) (error : FileError) : String :=
  "cannot open log file " ++ path.shown ++ ": " ++ error.message

def versionText : String := "pyward 0.1.0\n"

/-- The options with a value and those without one, with what they are for. -/
def optionTable : List (String × String) :=
  (Setting.all.map fun setting => ("      " ++ setting.usage, setting.description)) ++
    Flag.all.map fun flag =>
      ((match flag.letter? with
        | some letter => "  -" ++ letter.toString ++ ", "
        | none => "      ") ++ "--" ++ flag.name, flag.description)

def helpText : String :=
  let width := optionTable.foldl (fun width (option, _) => max width option.length) 0
  block (["A multi-pass style and compatibility linter for Python source", "",
    "Usage: pyward [OPTIONS] [PATHS]...", "", "Arguments:",
    "  [PATHS]...  Files or directories to lint [default: .]", "", "Options:"] ++
    optionTable.map fun (option, description) => padded width option ++ "  " ++ description)

/-! ### Runs -/

def report (terminal : Terminal) (options : Options) (warnings : List Warning) :
    String × List String :=
  match options.format with
  | .json => (jsonReport warnings ++ "\n", [])
  | .text =>
    let format : TextFormat := ⟨terminal.color, !options.has .noContext⟩
    (block (warnings.map format.warning), summaryLines (options.has .verbose) warnings)

/-- The world and the text added to the log file after a run, if there is one. -/
def writeLog (terminal : Terminal) (world : World) (logFile : Option Path) (record : RunRecord) :
    Except (Path × FileError) (World × Option (Path × List Char)) :=
  match logFile with
  | none => .ok (world, none)
  | some path =>
    match world.openLog path with
    | .error error => .error (path, error)
    | .ok ready =>
      match ready.addRecord path terminal.time record with
      | .error error => .error (path, error)
      | .ok after => .ok (after, some (path, record.line terminal.time ++ ['\n']))

variable [Text.CharNames]

/-- Linting files, after the notices about the ignore file. -/
def lintFiles (terminal : Terminal) (world : World) (options : Options) (settings : Settings)
    (filter : IgnoreFilter) (notices : String) (files : List Path) : Outcome :=
  let results := files.map (lintFile world settings filter)
  match writeLog terminal world (options.logFile.map Path.ofString)
    (.ofResults settings results) with
  | .error (path, error) =>
    .failed world (notices ++ failureLine terminal.color (logFailure path error))
  | .ok (after, logged) =>
    let (output, summary) := report terminal options (results.flatMap LintResult.warnings)
    { status := if hasWarnings results then 1 else 0
      output := output
      errors := notices ++ block (errorLines terminal.color results ++ summary)
      world := after
      logged := logged }

def lintRun (terminal : Terminal) (world : World) (options : Options) : Outcome :=
  let config := if options.has .noConfig then none else loadConfig world none
  let effective := Config.merge config options.config
  match loadIgnoreFile world effective.ignoreFile with
  | .error error =>
    .failed world (failureLine terminal.color (ignoreFailure effective.ignoreFile error))
  | .ok (filter, notices) =>
    let shown := block (notices.flatMap (noticeLines terminal.color))
    let files := collectFiles world effective.exclude options.targets
    if files.isEmpty then ⟨0, "", shown ++ "No Python files found\n", world, none⟩
    else lintFiles terminal world options effective.settings filter shown files

def perform (terminal : Terminal) (world : World) : Request → Outcome
  | .showVersion => .printed world versionText
  | .showHelp => .printed world helpText
  | .reject error => .failed world (error.message terminal.color)
  | .run options =>
    if options.has .listWarnings then .printed world (warningList terminal.color)
    else lintRun terminal world options

def run (terminal : Terminal) (world : World) (arguments : List String) : Outcome :=
  perform terminal world (readArguments arguments)

end PythonLint.CommandLine
