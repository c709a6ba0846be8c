import PythonLint.Decimal

/-!
# Lexemes of a Python source

A lexeme is what the scanner cuts out of a source: a token together with the byte positions at which
it starts and ends. Names, numbers and string literals carry what was written; keywords and symbols
are told apart by their spelling.
-/

namespace PythonLint

/-- What a string literal stands for. -/
inductive LiteralForm where
  | text
  | unicode
  | bytes
  | format
deriving DecidableEq, Repr

/-- A string literal as it is written. -/
structure Literal where
  form : LiteralForm
  raw : Bool
  triple : Bool
  /-- The text between the quotes, with a line feed for every line end. -/
  content : List Char
deriving DecidableEq, Repr

namespace Literal

/-- The letters before the opening quote, in lower case. -/
def letters (literal : Literal) : String :=
  (if literal.raw then "r" else "") ++
    match literal.form with
    | .text => ""
    | .unicode => "u"
    | .bytes => "b"
    | .format => "f"

def quotes (literal : Literal) : String :=
  if literal.triple then "\"\"\"" else "\""

/-- How a message shows the literal: always with double quotes. -/
def shown (literal : Literal) : String :=
  literal.letters ++ literal.quotes ++ String.ofList literal.content ++ literal.quotes

/-- The number of characters before the content. -/
def openingLength (literal : Literal) : Nat :=
  literal.letters.length + literal.quotes.length

end Literal

/-- The tokens of Python. -/
inductive Tok where
  | name (text : String)
  | int (value : Nat)
  | float (value : Decimal)
  | complex (imaginary : Decimal)
  | string (literal : Literal)
  | keyword (text : String)
  | symbol (text : String)
  | newline
  | indent
  | dedent
deriving DecidableEq, Repr

namespace Tok

def shown : Tok → String
  | name text => "'" ++ text ++ "'"
  | int value => "'" ++ toString value ++ "'"
  | float value => "'" ++ value.shown ++ "'"
  | complex imaginary => "0j" ++ imaginary.shown
  | string literal => literal.shown
  | keyword text => "'" ++ text ++ "'"
  | symbol text => "'" ++ text ++ "'"
  | newline => "Newline"
  | indent => "Indent"
  | dedent => "Dedent"

end Tok

def hardKeywords : List String :=
  ["False", "None", "True", "and", "as", "assert", "async", "await", "break", "class", "continue",
    "def", "del", "elif", "else", "except", "finally", "for", "from", "global", "if",
    "import", "in", "is", "lambda", "nonlocal", "not", "or", "pass", "raise", "return", "try",
    "while", "with", "yield"]

/-- The words that are keywords only at the start of certain statements. -/
def softKeywords : List String :=
  ["match", "case", "type"]

/-- A token and the byte positions at which it starts and ends. -/
structure Lexeme where
  tok : Tok
  start : Nat
  /-- The position after its last byte. -/
  stop : Nat
deriving DecidableEq, Repr

end PythonLint
