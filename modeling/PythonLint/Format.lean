import PythonLint.JsonValue
import PythonLint.Style
import PythonLint.Warning

/-!
# Showing warnings

Warnings as lines of text, followed by the lines they are about, or as a JSON list.
-/

namespace PythonLint

/-- What is shown of a warning. -/
structure TextFormat where
  color : Bool
  /-- The lines that a warning is about are shown. -/
  context : Bool
deriving DecidableEq, Repr

namespace TextFormat

def warning (format : TextFormat) (warning : Warning) : String :=
  let place := warning.file ++ ":" ++ toString warning.start.line ++ ":" ++
    toString warning.start.column ++ ":"
  let head := Style.bold.paint format.color place ++ " " ++
    Style.yellow.paint format.color warning.kind.name ++ " " ++ warning.message
  let context := if format.context then warning.lines else []
  "\n".intercalate
    (head :: context.map fun line => Style.dimmed.paint format.color ("    " ++ line))

def warnings (format : TextFormat) (warnings : List Warning) : String :=
  "\n".intercalate (warnings.map format.warning)

end TextFormat

def Location.json (location : Location) : JsonValue :=
  .object [("column", .number location.column), ("line", .number location.line)]

/-- A warning as JSON, with its fields in alphabetical order. -/
def Warning.json (warning : Warning) : JsonValue :=
  let stop := if warning.hasSpan then [("end", warning.stop.json)] else []
  let start := if warning.hasSpan then [("start", warning.start.json)] else []
  .object (stop ++ [("file", .text warning.file), ("lineno", .number warning.line),
    ("message", .text warning.message)] ++ start ++ [("type", .text warning.kind.name)])

def jsonReport (warnings : List Warning) : String :=
  (JsonValue.list (warnings.map Warning.json)).pretty

end PythonLint
