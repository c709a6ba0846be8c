import PythonLint.Check.Indentation
import PythonLint.Check.LineLength
import PythonLint.Check.Spacing
import PythonLint.Check.Syntax
import PythonLint.Ignore.Suppress
import PythonLint.Source
import PythonLint.Tree.Build

/-!
# Linting a source

The passes run one after the other, each on its own: a pass that fails leaves the others alone.
Warnings that are suppressed are left out of the result.
-/

namespace PythonLint

open Ignore (IgnoreFilter)

/-- The version of a source and the passes over it. -/
structure Settings where
  version : Version
  enabled : List Pass
deriving DecidableEq, Repr

namespace Settings

/-- The passes in the order in which they run, each once. -/
def passes (settings : Settings) : List Pass :=
  Pass.all.filter settings.enabled.contains

end Settings

/-- Why a source or a pass over it failed. -/
inductive LintError where
  | decoding (error : DecodeError)
  | analysis (pass : Pass) (error : AnalysisError)
deriving DecidableEq, Repr

namespace LintError

def message : LintError → String
  | decoding error => "failed to read source: " ++ error.message
  | analysis pass error => pass.name ++ " analysis failed: " ++ error.message

end LintError

/-- What is known of a source after linting. -/
structure LintResult where
  file : String
  warnings : List Warning
  errors : List LintError
deriving DecidableEq, Repr

namespace LintResult

def append (first second : LintResult) : LintResult :=
  { first with
    warnings := first.warnings ++ second.warnings
    errors := first.errors ++ second.errors }

def unreadable (file : String) (error : DecodeError) : LintResult :=
  ⟨file, [], [.decoding error]⟩

end LintResult

/-- The tokens of a source with the given token stream, and a reporter for it. -/
def prepare (source : Source) (stream : TokenStream) :
    Except AnalysisError (Reporter × List Token) :=
  match stream.complete with
  | .error error => .error (.tokenization error)
  | .ok tokens => .ok (.ofTokens source.name source.text tokens, tokens)

variable [Text.CharNames]

def runPass (version : Version) (source : Source) (stream : TokenStream) :
    Pass → Except AnalysisError (List Warning)
  | .line => .ok (checkLines source.name source.text)
  | .token => do
    let (reporter, tokens) ← prepare source stream
    return checkTokens reporter tokens
  | .tree => do
    let (reporter, tokens) ← prepare source stream
    let tree ← treeOfStream (.of version (featuresOfTokens tokens)) source.text stream
    return checkTree reporter tree
  | .ast => do
    let (reporter, tokens) ← prepare source stream
    checkSyntax version reporter source.text tokens

/-- What one pass over a source with the given token stream contributes. -/
def passResult (version : Version) (filter : IgnoreFilter) (source : Source) (stream : TokenStream)
    (pass : Pass) : LintResult :=
  match runPass version source stream pass with
  | .ok warnings => ⟨source.name, warnings.filter filter.emits, []⟩
  | .error error => ⟨source.name, [], [.analysis pass error]⟩

def lintSource (settings : Settings) (filter : IgnoreFilter) (source : Source) : LintResult :=
  (settings.passes.map (passResult settings.version filter source (tokenize source.text))).foldl
    .append ⟨source.name, [], []⟩

def lintBytes (settings : Settings) (filter : IgnoreFilter) (name : String) (bytes : List UInt8) :
    LintResult :=
  match Source.ofBytes name bytes with
  | .ok source => lintSource settings filter source
  | .error error => .unreadable name error

def hasWarnings (results : List LintResult) : Bool :=
  results.any fun result => !result.warnings.isEmpty

end PythonLint
