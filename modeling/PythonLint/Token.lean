import PythonLint.Fault
import PythonLint.Location

/-!
# Tokens of a Python source

A token is a lexeme seen by a person: its kind, its text, where it starts and ends by line and
column, and the logical line that it belongs to. A logical line is a complete statement, which may
span several physical lines.
-/

namespace PythonLint

/-- The kinds of tokens. -/
inductive TokenKind where
  | name
  | number
  | string
  | op
  | keyword
  | newline
  | indent
  | dedent
  | endMarker
deriving DecidableEq, Repr

namespace TokenKind

def label : TokenKind → String
  | name => "NAME"
  | number => "NUMBER"
  | string => "STRING"
  | op => "OP"
  | keyword => "KEYWORD"
  | newline => "NEWLINE"
  | indent => "INDENT"
  | dedent => "DEDENT"
  | endMarker => "ENDMARKER"

/-- The token only marks a block and carries no code of its own. -/
def isBlockMark (kind : TokenKind) : Bool :=
  kind == indent || kind == dedent

end TokenKind

/-- A token whose logical line is not known yet. -/
structure Piece where
  kind : TokenKind
  lexeme : String
  start : Location
  stop : Location
deriving DecidableEq, Repr

/-- A token with the logical line that it belongs to. -/
structure Token extends Piece where
  range : LineRange
  /-- The text of the logical line, without blanks at its end. -/
  logicalLine : String
deriving DecidableEq, Repr

namespace Token

def isOp (token : Token) (text : String) : Bool :=
  token.kind == .op && token.lexeme == text

def isName (token : Token) (text : String) : Bool :=
  token.kind == .name && token.lexeme == text

end Token

/-- Why a source has no complete token stream. -/
structure TokenError where
  fault : Fault
  location : Location
deriving DecidableEq, Repr

namespace TokenError

def message (error : TokenError) : String :=
  error.fault.message ++ " (" ++ error.location.text ++ ")"

end TokenError

/-- The tokens of a source, and the error that ends them, if any. -/
structure TokenStream where
  /-- The tokens of all logical lines before the error. -/
  tokens : List Token
  error : Option TokenError
deriving DecidableEq, Repr

namespace TokenStream

def complete (stream : TokenStream) : Except TokenError (List Token) :=
  match stream.error with
  | none => .ok stream.tokens
  | some error => .error error

end TokenStream

end PythonLint
