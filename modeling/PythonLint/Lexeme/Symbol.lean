import PythonLint.Fault

/-!
# Operators, brackets and separators

The symbols of Python, longest first, so that the first one that a text starts with is the one
meant.
-/

namespace PythonLint

/-- The symbols, none before a longer one that it starts. -/
def symbols : List String :=
  ["<<=", ">>=", "**=", "//=", "...", "==", "!=", "<=", ">=", "<<", ">>", "**", "//", "+=", "-=",
    "*=", "/=", "%=", "&=", "|=", "^=", "@=", "->", ":=", "+", "-", "*", "/", "%", "&",
    "|", "^", "~", "<", ">", "(", ")", "[", "]", "\x7b", "\x7d", ",", ":", ".", ";", "=", "@"]

def scanSymbol? (text : List Char) : Option String :=
  symbols.find? fun symbol => symbol.toList.isPrefixOf text

def isOpening (symbol : String) : Bool :=
  symbol = "(" || symbol = "[" || symbol = "\x7b"

def isClosing (symbol : String) : Bool :=
  symbol = ")" || symbol = "]" || symbol = "\x7d"

end PythonLint
