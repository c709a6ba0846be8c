import PythonLint.Text.Split
import PythonLint.Token.Stream

/-!
# Future features

A module header may import features of later versions of the language: `from __future__ import
division`. Such imports stand at the top of a module, after an optional docstring, so that the first
other statement ends the header.
-/

namespace PythonLint

def Token.endsPart (token : Token) : Bool :=
  token.kind == .newline || token.kind == .endMarker || token.lexeme == ";"

/-- The simple statements of a token stream, without those that hold no token. -/
def headerParts (tokens : List Token) : List (List Token) :=
  (Text.splitOn Token.endsPart (tokens.filter fun token => !token.kind.isBlockMark)).filter
    fun part => !part.isEmpty

def isDocstring (part : List Token) : Bool :=
  part.all fun token => token.kind == .string

/-- The names in a list of imported names: the first word of each item, parentheses aside. An item
that starts with `as` names nothing. -/
def importedWords (words : List String) : List String :=
  let bare := words.filter fun word => word ≠ "(" && word ≠ ")"
  (Text.splitOn (· == ",") bare).filterMap fun item => item.head?.filter (· ≠ "as")

/-- The names that a statement imports from the future, if it is such an import. -/
def futureImport? (part : List Token) : Option (List String) :=
  match part.map fun token => token.lexeme with
  | "from" :: "__future__" :: "import" :: words => some (importedWords words)
  | _ => none

/-- The names that future imports bring in, up to the first other statement. -/
def headerImports : List (List Token) → List String
  | [] => []
  | part :: rest =>
    match futureImport? part with
    | some names => names ++ headerImports rest
    | none => []

/-- A sorted list with one more element, which is not repeated. -/
def insertSorted (name : String) : List String → List String
  | [] => [name]
  | first :: rest =>
    if name < first then name :: first :: rest
    else if name = first then first :: rest
    else first :: insertSorted name rest

def sortedNames (names : List String) : List String :=
  names.foldr insertSorted []

/-- The features that tokens import in the header, in order. -/
def featuresOfTokens (tokens : List Token) : List String :=
  let parts := headerParts tokens
  sortedNames (headerImports (if parts.head?.any isDocstring then parts.tail else parts))

/-- The features that a source imports in its header, in order. Those before an error count. -/
def futureFeatures (source : List Char) : List String :=
  featuresOfTokens (tokenize source).tokens

end PythonLint
