import PythonLint.Location

/-!
# Tokens of ignore files
-/

namespace PythonLint.Ignore

/-- The kinds of tokens of an ignore file. -/
inductive TokenKind where
  | name
  | newline
  | indent
  | dedent
  | operator
  | string
  | integer
deriving DecidableEq, Repr

namespace TokenKind

def label : TokenKind → String
  | name => "Name"
  | newline => "Newline"
  | indent => "Indent"
  | dedent => "Dedent"
  | operator => "Operator"
  | string => "String"
  | integer => "Integer"

end TokenKind

/-- A token of an ignore file. -/
structure Token where
  kind : TokenKind
  lexeme : String
  start : Location
  stop : Location
deriving DecidableEq, Repr

end PythonLint.Ignore
