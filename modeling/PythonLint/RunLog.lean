import PythonLint.Calendar
import PythonLint.JsonValue
import PythonLint.Lint
import PythonLint.Tally

/-!
# Log records of runs

Every run may leave a record of its results: how many files and warnings there were, and which.
-/

namespace PythonLint

/-- What is recorded of a warning. -/
structure WarningRecord where
  kind : String
  file : String
  line : Nat
  message : String
  /-- The first line that the warning is about, unless it is blank. -/
  sourceLine : Option String
deriving DecidableEq, Repr

def maxSourceLine : Nat := 200

/-- The text, or its start and three dots if it is too long. -/
def truncated (text : List Char) : List Char :=
  if maxSourceLine < text.length then text.take maxSourceLine ++ "...".toList else text

def sourceLineOf (lines : List String) : Option String :=
  (lines.head?.map fun line => Text.trim line.toList).bind fun line =>
    if line.isEmpty then none else some (String.ofList (truncated line))

def WarningRecord.of (warning : Warning) : WarningRecord :=
  ⟨warning.kind.name, warning.file, warning.line, warning.message, sourceLineOf warning.lines⟩

/-- What has been recorded of warnings: each of them, and how many there are of each kind. -/
structure Listing where
  warnings : Array WarningRecord
  /-- How many warnings there are of each kind, by its name. -/
  counts : Tally

namespace Listing

def add (listing : Listing) (warning : Warning) : Listing :=
  ⟨listing.warnings.push (.of warning), listing.counts.add warning.kind.name⟩

def ofResults (results : List LintResult) : Listing :=
  results.foldl (fun listing result => result.warnings.foldl add listing) ⟨#[], .empty⟩

end Listing

/-- What is recorded of a run. -/
structure RunRecord where
  files : Nat
  failed : Nat
  total : Nat
  counts : Tally
  warnings : List WarningRecord
  version : String
  passes : List String
deriving DecidableEq, Repr

namespace RunRecord

def ofResults (settings : Settings) (results : List LintResult) : RunRecord :=
  let listing := Listing.ofResults results
  { files := results.length
    failed := results.countP fun result => !result.errors.isEmpty
    total := listing.warnings.size
    counts := listing.counts
    warnings := listing.warnings.toList
    version := settings.version.name
    passes := settings.passes.map Pass.name }

end RunRecord

def WarningRecord.json (record : WarningRecord) : JsonValue :=
  .object ([("warning_type", .text record.kind), ("file_path", .text record.file),
    ("line", .number record.line), ("message", .text record.message)] ++
    (record.sourceLine.map fun line => ("source_line", JsonValue.text line)).toList)

def RunRecord.fields (record : RunRecord) : List (String × JsonValue) :=
  [("files_scanned", .number record.files), ("files_with_errors", .number record.failed),
    ("total_warnings", .number record.total),
    ("warning_counts",
      .object (record.counts.entries.map fun (name, count) => (name, .number count))),
    ("warnings", .list (record.warnings.map WarningRecord.json)),
    ("target_version", .text record.version), ("analysers", .list (record.passes.map .text))]

def Timestamp.fields (time : Timestamp) : List (String × JsonValue) :=
  [("timestamp", .number time.seconds), ("datetime", .text time.text)]

def RunRecord.line (time : Timestamp) (record : RunRecord) : List Char :=
  (JsonValue.object (time.fields ++ record.fields)).compact

end PythonLint
