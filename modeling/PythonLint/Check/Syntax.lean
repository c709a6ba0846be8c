import PythonLint.Analysis
import PythonLint.Ast.Sites
import PythonLint.Check.Report
import PythonLint.Future
import PythonLint.Grammar.Statement
import PythonLint.PrintMask
import PythonLint.Version

/-!
# The pass over the syntax tree

Imports stand on lines of their own and name what they import, exceptions are named where they are
caught, and global variables are left alone. In Python 2 also print statements and divisions that
may round are reported; a division does not round once division has been imported from the future.
-/

namespace PythonLint

/-- What the checks know besides the site. -/
structure SiteContext where
  reporter : Reporter
  text : List Char
  prints : List Nat

namespace SiteContext

def warn (context : SiteContext) (kind : WarningKind) (message : String) (offset : Nat) : Warning :=
  context.reporter.onLine kind message (locationAt context.text offset).line

end SiteContext

/-- The warnings about one site; `rounds` says that a division may round. -/
def siteWarnings (context : SiteContext) (rounds : Bool) : Site → List Warning
  | .importNames start names =>
    if 1 < names.length then
      [context.warn .multipleImports
        "Multiple imports on one line. Should be on separate ones." start]
    else []
  | .importFrom start _ names =>
    if names.map Alias.id = ["*"] then
      [context.warn .starImport "from ... import * should be avoided." start]
    else []
  | .tryBlock [.mk start none _] =>
    [context.warn .indiscriminateExcept "Never use except without a specific exception." start]
  | .tryBlock _ => []
  | .global start => [context.warn .globalKeyword "The global keyword should be avoided." start]
  | .pass start =>
    if context.prints.contains start then
      [context.warn .printStatement
        ("The print statement has been removed in Python 3. Import print() with " ++
          "from __future__ import print_function instead.") start]
    else []
  | .binary start op =>
    if op = .divide ∧ rounds then
      [context.warn .divStatement
        ("Don't use / without from __future__ import division. Use //, if you really want floor " ++
          "division.") start]
    else []

/-- The site imports division from the future, after which a division does not round. -/
def importsDivision : Site → Bool
  | .importFrom _ source names =>
    source == some "__future__" && names.any fun name => name.id == "division"
  | _ => false

/-- The warnings about sites in order; `rounds` says that a division may round before the first. -/
def checkSites (context : SiteContext) (rounds : Bool) : List Site → List Warning
  | [] => []
  | site :: rest =>
    siteWarnings context rounds site ++ checkSites context (rounds && !importsDivision site) rest

/-- The source with its print statements masked, where these are allowed, and where they start. -/
def maskedSource (version : Version) (text : List Char) (tokens : List Token) :
    Except AnalysisError (List Char × List Nat) :=
  if version = .python2 ∧ ¬ (featuresOfTokens tokens).contains "print_function" then
    match maskInPlace? (Text.encodeUtf8 text) (printSpans text tokens) with
    | some masked => .ok masked
    | none => .error (.tokenization ⟨.invalidMask, locationAt text 0⟩)
  else .ok (text, [])

/-- The warnings about the syntax tree of a source with the given tokens. -/
def checkSyntax [Text.CharNames] (version : Version) (reporter : Reporter) (text : List Char)
    (tokens : List Token) :
    Except AnalysisError (List Warning) := do
  let (masked, prints) ← maskedSource version text tokens
  match parseModule masked with
  | .error ⟨fault, offset⟩ => .error (.grammar (.grammar fault) (locationAt text offset))
  | .ok statements =>
    .ok (checkSites ⟨reporter, text, prints⟩ (version = .python2) (sitesOf statements))

end PythonLint
