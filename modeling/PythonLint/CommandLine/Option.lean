import PythonLint.Config
import PythonLint.Style
import PythonLint.Text.Similarity

/-!
# Options of the command line

The command line has options with a value, options without one, and paths. A value stands after an
equals sign or is the next argument. The arguments are read in order, and the first that is wrong
ends it.
-/

namespace PythonLint.CommandLine

/-! ### Options -/

/-- An option with a value. -/
inductive Setting where
  | targetVersion
  | analysers
  | exclude
  | ignoreFile
  | format
  | logFile
deriving DecidableEq, Repr

namespace Setting

def all : List Setting := [targetVersion, analysers, exclude, ignoreFile, format, logFile]

def name : Setting → String
  | targetVersion => "target-version"
  | analysers => "analysers"
  | exclude => "exclude"
  | ignoreFile => "ignore-file"
  | format => "format"
  | logFile => "log-file"

def placeholder (setting : Setting) : String :=
  String.ofList (setting.name.toList.map fun c => if c = '-' then '_' else c.toUpper)

def usage (setting : Setting) : String :=
  "--" ++ setting.name ++ " <" ++ setting.placeholder ++ ">"

def isRepeatable : Setting → Bool
  | analysers | exclude => true
  | _ => false

def description : Setting → String
  | targetVersion => "Python version the code targets: py2 or py3"
  | analysers => "Passes to run (comma-separated: line, token, cst, ast)"
  | exclude => "Exclude paths matching patterns"
  | ignoreFile => "Suppression file (default: .pyward.ignore)"
  | format => "Output format [default: text] [possible values: text, json]"
  | logFile => "Append a JSON Lines record of this run to the given file"

end Setting

/-- An option without a value. -/
inductive Flag where
  | noContext
  | noConfig
  | listWarnings
  | verbose
  | help
  | version
deriving DecidableEq, Repr

namespace Flag

def all : List Flag := [noContext, noConfig, listWarnings, verbose, help, version]

def name : Flag → String
  | noContext => "no-context"
  | noConfig => "no-config"
  | listWarnings => "list-warnings"
  | verbose => "verbose"
  | help => "help"
  | version => "version"

def letter? : Flag → Option Char
  | verbose => some 'v'
  | help => some 'h'
  | version => some 'V'
  | _ => none

def description : Flag → String
  | noContext => "Do not print the source lines under each warning"
  | noConfig => "Ignore pyproject.toml configuration"
  | listWarnings => "List warning types and categories, then exit"
  | verbose => "Show verbose output"
  | help => "Print help"
  | version => "Print version"

end Flag

/-- How warnings are printed. -/
inductive OutputFormat where
  | text
  | json
deriving DecidableEq, Repr

namespace OutputFormat

def names : List String := ["text", "json"]

def ofName? (name : String) : Option OutputFormat :=
  if name = "text" then some text else if name = "json" then some json else none

end OutputFormat

/-- What a command line asks for. -/
structure Options where
  paths : List String
  /-- The settings that come before those of the project file. -/
  config : Config
  format : OutputFormat
  logFile : Option String
  flags : List Flag

namespace Options

def empty : Options := ⟨[], .empty, .text, none, []⟩

def has (options : Options) (flag : Flag) : Bool := options.flags.contains flag

/-- The paths to lint: the working directory if none is given. -/
def targets (options : Options) : List Path :=
  (orIfEmpty options.paths ["."]).map Path.ofString

end Options

/-! ### Errors -/

/-- What is wrong with a command line. -/
inductive UsageError where
  | invalidValue (setting : Setting) (value reason : String)
  | unknownFormat (value : String)
  | missingValue (setting : Setting)
  | repeated (option : String)
  | unknownOption (argument : String)
deriving DecidableEq, Repr

namespace UsageError

def usageLine (color : Bool) : String :=
  Style.wrap color ⟨[[1], [4]]⟩ "Usage:" ++ " " ++ Style.bold.wrap color "pyward" ++
    " [OPTIONS] [PATHS]..."

def formatList (color : Bool) : String :=
  "\n  [possible values: " ++
    ", ".intercalate (OutputFormat.names.map (Style.green.wrap color)) ++ "]"

def noValue (color : Bool) (setting : Setting) : String :=
  "a value is required for '" ++ Style.bold.wrap color setting.usage ++ "' but none was supplied" ++
    if setting = .format then formatList color else ""

def badValue (color : Bool) (setting : Setting) (value : String) : String :=
  "invalid value '" ++ Style.yellow.wrap color value ++ "' for '" ++
    Style.bold.wrap color setting.usage ++ "'"

def formatTip (color : Bool) (value : String) : String :=
  match Text.mostSimilar? value.toList (OutputFormat.names.map String.toList) with
  | none => ""
  | some name =>
    "\n\n  " ++ Style.green.wrap color "tip:" ++ " a similar value exists: '" ++
      Style.green.wrap color (String.ofList name) ++ "'"

def explanation (color : Bool) : UsageError → String
  | invalidValue setting value reason => badValue color setting value ++ ": " ++ reason
  | unknownFormat value =>
    if value.isEmpty then noValue color .format
    else badValue color .format value ++ formatList color ++ formatTip color value
  | missingValue setting => noValue color setting
  | repeated option =>
    "the argument '" ++ Style.yellow.wrap color option ++ "' cannot be used multiple times\n\n" ++
      usageLine color
  | unknownOption argument =>
    "unexpected argument '" ++ Style.yellow.wrap color argument ++ "' found\n\n" ++ usageLine color

def message (color : Bool) (error : UsageError) : String :=
  Style.alert.wrap color "error:" ++ " " ++ error.explanation color ++
    "\n\nFor more information, try '" ++ Style.bold.wrap color "--help" ++ "'.\n"

end UsageError

/-! ### Reading arguments -/

/-- What is to be done. -/
inductive Request where
  | run (options : Options)
  | showVersion
  | showHelp
  | reject (error : UsageError)

/-- Where the reading of arguments stands. -/
structure Reading where
  options : Options
  given : List Setting
  pending : Option Setting
  pathsOnly : Bool

namespace Reading

def start : Reading := ⟨.empty, [], none, false⟩

def addPath (reading : Reading) (path : String) : Reading :=
  { reading with options := { reading.options with paths := reading.options.paths ++ [path] } }

def itemsOf (value : String) : List String :=
  (Text.splitOn (· == ',') value.toList).map String.ofList

def passesOf (value : String) : Except UsageError (List Pass) :=
  (itemsOf value).mapM fun name =>
    match Pass.ofName? name with
    | some pass => .ok pass
    | none => .error (.invalidValue .analysers name (Pass.unknownMessage name))

def assign (options : Options) (setting : Setting) (value : String) : Except UsageError Options :=
  let config := options.config
  match setting with
  | .targetVersion =>
    match Version.ofName? value with
    | some version => .ok { options with config := { config with version := some version } }
    | none => .error (.invalidValue .targetVersion value (Version.unknownMessage value))
  | .analysers => do
    let passes ← passesOf value
    return { options with config := { config with passes := config.passes ++ passes } }
  | .exclude =>
    .ok { options with config := { config with exclude := config.exclude ++ itemsOf value } }
  | .ignoreFile =>
    if value.isEmpty then .error (.missingValue .ignoreFile)
    else .ok { options with config := { config with ignoreFile := some (.ofString value) } }
  | .format =>
    match OutputFormat.ofName? value with
    | some format => .ok { options with format := format }
    | none => .error (.unknownFormat value)
  | .logFile => .ok { options with logFile := some value }

def addValue (reading : Reading) (setting : Setting) (value : String) : Except Request Reading :=
  if reading.given.contains setting && !setting.isRepeatable then
    .error (.reject (.repeated setting.usage))
  else match assign reading.options setting value with
    | .ok options =>
      .ok { reading with options := options, given := setting :: reading.given, pending := none }
    | .error error => .error (.reject error)

def addFlag (reading : Reading) (flag : Flag) : Except Request Reading :=
  if flag = .version then .error .showVersion
  else if flag = .help then .error .showHelp
  else if reading.options.has flag then .error (.reject (.repeated ("--" ++ flag.name)))
  else .ok { reading with options :=
    { reading.options with flags := reading.options.flags ++ [flag] } }

/-- An option by its name, with a value if an equals sign follows it. -/
def addNamed (reading : Reading) (argument name : String) (value : Option String) :
    Except Request Reading :=
  match Setting.all.find? (·.name == name), Flag.all.find? (·.name == name), value with
  | some setting, _, some value => reading.addValue setting value
  | some setting, _, none => .ok { reading with pending := some setting }
  | none, some flag, none => reading.addFlag flag
  | _, _, _ => .error (.reject (.unknownOption argument))

def addLetter (reading : Reading) (letter : Char) : Except Request Reading :=
  match Flag.all.find? (·.letter? == some letter) with
  | some flag => reading.addFlag flag
  | none => .error (.reject (.unknownOption ("-" ++ letter.toString)))

def addArgument (reading : Reading) (argument : String) : Except Request Reading :=
  match argument.toList with
  | ['-', '-'] => .ok { reading with pathsOnly := true }
  | '-' :: '-' :: rest =>
    let name := rest.takeWhile (· ≠ '=')
    let value := (rest.dropWhile (· ≠ '=')).tail?.map String.ofList
    reading.addNamed (String.ofList ('-' :: '-' :: name)) (String.ofList name) value
  | '-' :: letter :: rest => (letter :: rest).foldlM addLetter reading
  | _ => .ok (reading.addPath argument)

def isOption (argument : String) : Bool :=
  match argument.toList with
  | '-' :: _ :: _ => true
  | _ => false

def step (reading : Reading) (argument : String) : Except Request Reading :=
  match reading.pathsOnly, reading.pending with
  | true, _ => .ok (reading.addPath argument)
  | false, none => reading.addArgument argument
  | false, some setting =>
    if isOption argument then .error (.reject (.missingValue setting))
    else reading.addValue setting argument

def finish (reading : Reading) : Request :=
  match reading.pending with
  | some setting => .reject (.missingValue setting)
  | none => .run reading.options

end Reading

def readArguments (arguments : List String) : Request :=
  match arguments.foldlM Reading.step .start with
  | .ok reading => reading.finish
  | .error request => request

end PythonLint.CommandLine
