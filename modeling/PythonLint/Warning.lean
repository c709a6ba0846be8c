import PythonLint.Location
import PythonLint.Pass

/-!
# Warnings

What a pass has to say about a source: a kind, a message, and the lines it is about. Kinds are
grouped into categories, which may share kinds.
-/

namespace PythonLint

/-- A group of kinds of warnings. -/
inductive Category where
  | pep8
  | python3Compatibility
deriving DecidableEq, Repr

namespace Category

def all : List Category := [pep8, python3Compatibility]

def name : Category → String
  | pep8 => "pep8"
  | python3Compatibility => "python3-compatibility"

end Category

/-- The kinds of warnings. -/
inductive WarningKind where
  | lineTooLong
  | wrongIndentation
  | mixedTabsAndSpaces
  | extraneousWhitespace
  | multipleImports
  | starImport
  | indiscriminateExcept
  | globalKeyword
  | printStatement
  | divStatement
deriving DecidableEq, Repr

namespace WarningKind

def all : List WarningKind :=
  [lineTooLong, wrongIndentation, mixedTabsAndSpaces, extraneousWhitespace, multipleImports,
    starImport, indiscriminateExcept, globalKeyword, printStatement, divStatement]

def name : WarningKind → String
  | lineTooLong => "line-too-long"
  | wrongIndentation => "wrong-number-of-indentation-spaces"
  | mixedTabsAndSpaces => "mixed-tabs-and-spaces"
  | extraneousWhitespace => "extraneous-whitespace"
  | multipleImports => "multiple-imports"
  | starImport => "star-import"
  | indiscriminateExcept => "indiscriminate-except"
  | globalKeyword => "global-keyword"
  | printStatement => "print-statement"
  | divStatement => "div-statement"

def ofName? (text : String) : Option WarningKind :=
  all.find? fun kind => kind.name == text

def pass : WarningKind → Pass
  | lineTooLong => .line
  | wrongIndentation | mixedTabsAndSpaces => .token
  | extraneousWhitespace => .tree
  | multipleImports | starImport | indiscriminateExcept | globalKeyword | printStatement
  | divStatement => .ast

def categories : WarningKind → List Category
  | mixedTabsAndSpaces => [.pep8, .python3Compatibility]
  | printStatement | divStatement => [.python3Compatibility]
  | globalKeyword => []
  | lineTooLong | wrongIndentation | extraneousWhitespace | multipleImports | starImport
  | indiscriminateExcept => [.pep8]

def description : WarningKind → String
  | lineTooLong => "Physical line longer than 79 characters"
  | wrongIndentation => "Indentation step other than 4 spaces"
  | mixedTabsAndSpaces => "Tabs and spaces mixed in the leading whitespace of a statement"
  | extraneousWhitespace => "Whitespace inside brackets or before separators"
  | multipleImports => "Several modules imported by one import statement"
  | starImport => "Wildcard import"
  | indiscriminateExcept => "Bare except clause as the only handler"
  | globalKeyword => "Use of the global statement"
  | printStatement => "Python 2 print statement"
  | divStatement => "/ with floor division semantics on Python 2"

end WarningKind

def Category.members (category : Category) : List WarningKind :=
  WarningKind.all.filter fun kind => kind.categories.contains category

/-- One warning. -/
structure Warning where
  kind : WarningKind
  message : String
  file : String
  start : Location
  stop : Location
  lines : List String
deriving DecidableEq, Repr

namespace Warning

def line (warning : Warning) : Nat := warning.start.line

/-- The warning is about a part of a line or several lines, not about one line as a whole. -/
def hasSpan (warning : Warning) : Bool :=
  warning.kind.pass ≠ .line

end Warning

end PythonLint
