import PythonLint.FileError
import PythonLint.Ignore.Filter
import PythonLint.Ignore.Lexer
import PythonLint.Text.Quoted

/-!
# Parsing ignore files

An ignore file is a list of filters. A filter is a name on a line of its own, followed by an
optional block of comparisons, one on each line. A comparison has an operator between two operands,
which are names, strings or integers below 2^64.

## Design notes

An error of the lexer counts only when the parser gets there, so that a misplaced token on an
earlier line is reported first.
-/

namespace PythonLint.Ignore

/-! ### Errors -/

/-- What can be wrong with a sequence of tokens. -/
inductive ParseFault where
  | unexpected (kind : TokenKind) (lexeme : String)
  | endOfInput
  /-- An integer of 2^64 or more. -/
  | outOfRange (lexeme : String)
deriving DecidableEq, Repr

/-- A fault and its location. -/
structure ParseError where
  fault : ParseFault
  location : Location
deriving DecidableEq, Repr

namespace ParseError

def message (error : ParseError) : String :=
  (match error.fault with
    | .unexpected kind lexeme =>
      "got an unexpected token " ++ kind.label ++ " " ++ Text.quoted lexeme
    | .endOfInput => "unexpected end of input"
    | .outOfRange lexeme => "integer " ++ lexeme ++ " is out of range") ++
    " at " ++ error.location.text

end ParseError

/-- Why an ignore file is refused. -/
inductive IgnoreError where
  | lexing (error : LexError)
  | parsing (error : ParseError)
  | unreadable (path : String) (error : FileError)
deriving DecidableEq, Repr

namespace IgnoreError

def message : IgnoreError → String
  | lexing error => error.message
  | parsing error => error.message
  | unreadable path error => "failed to read " ++ path ++ ": " ++ error.message

def cause : IgnoreError → String
  | lexing error => error.message
  | parsing error => error.message
  | unreadable _ error => error.message

end IgnoreError

/-! ### Reading tokens -/

abbrev Parser (σ : Type) := StateT σ (Except IgnoreError)

/-- Where a parser takes its tokens from. -/
class TokenSource (σ : Type) where
  /-- The kind of the next token, which stays, or `none` at the end. -/
  peekKind : Parser σ (Option TokenKind)
  take : Parser σ Token
  /-- The number of tokens that can be taken. -/
  left : σ → Nat

export TokenSource (peekKind take left)

/-- The lexer of the file that is parsed. -/
structure Reader where
  lexer : Lexer
  /-- Where the last token that has been read ends. -/
  last : Location

namespace Reader

def peekKind : Parser Reader (Option TokenKind) := fun reader =>
  match reader.lexer.peek with
  | (.error error, _) => .error (.lexing error)
  | (.ok token, after) => .ok (token.map Token.kind, { reader with lexer := after })

def take : Parser Reader Token := fun reader =>
  match reader.lexer.next with
  | (.error error, _) => .error (.lexing error)
  | (.ok none, _) => .error (.parsing ⟨.endOfInput, reader.last⟩)
  | (.ok (some token), after) => .ok (token, ⟨after, token.stop⟩)

instance : TokenSource Reader :=
  ⟨peekKind, take, fun reader => reader.lexer.ahead.tokens.length⟩

end Reader

/-- The tokens that have not been read, and what comes after them. -/
structure Input where
  tokens : List Token
  /-- Where the last token that has been read ends. -/
  last : Location
  error : Option LexError

namespace Input

def peekKind : Parser Input (Option TokenKind) := fun input =>
  match input.tokens, input.error with
  | [], some error => .error (.lexing error)
  | [], none => .ok (none, input)
  | token :: _, _ => .ok (some token.kind, input)

def take : Parser Input Token := fun input =>
  match input.tokens, input.error with
  | [], some error => .error (.lexing error)
  | [], none => .error (.parsing ⟨.endOfInput, input.last⟩)
  | token :: rest, _ => .ok (token, { input with tokens := rest, last := token.stop })

instance : TokenSource Input :=
  ⟨peekKind, take, fun input => input.tokens.length⟩

end Input

variable {σ : Type} [TokenSource σ]

def refuse {σ α : Type} (token : Token) : Parser σ α :=
  throw (.parsing ⟨.unexpected token.kind token.lexeme, token.start⟩)

def expect (kinds : List TokenKind) : Parser σ Token := do
  let token ← take
  if kinds.contains token.kind then return token else refuse token

def readMany {α : Type} (more : Parser σ Bool) (item : Parser σ α) : Parser σ (List α) :=
  fun input =>
  match more input with
  | .error error => .error error
  | .ok (false, after) => .ok ([], after)
  | .ok (true, ahead) =>
    match item ahead with
    | .error error => .error error
    | .ok (first, after) =>
      if left after < left input then
        match readMany more item after with
        | .error error => .error error
        | .ok (others, rest) => .ok (first :: others, rest)
      else .ok ([first], after)
termination_by input => left input

/-! ### The language -/

def decimalValue (digits : List Char) : Nat :=
  digits.foldl (fun value digit => 10 * value + (digit.toNat - '0'.toNat)) 0

def unquoted (lexeme : String) : String :=
  String.ofList (lexeme.toList.filter (· ≠ '"'))

def operand : Parser σ Operand := do
  let token ← expect [.name, .string, .integer]
  match token.kind with
  | .name => return ⟨.name token.lexeme, token.start, token.stop⟩
  | .string => return ⟨.literal (.string (unquoted token.lexeme)), token.start, token.stop⟩
  | _ =>
    let value := decimalValue token.lexeme.toList
    if value < Nat.pow 2 64 then return ⟨.literal (.integer value), token.start, token.stop⟩
    throw (.parsing ⟨.outOfRange token.lexeme, token.start⟩)

/-- An operator between two operands, up to the end of the line. -/
def comparison : Parser σ Expression := do
  let left ← operand
  let symbol ← expect [.operator]
  match Operator.ofSymbol? symbol.lexeme with
  | none => refuse symbol
  | some operator =>
    let right ← operand
    match ← peekKind with
    | none => pure ()
    | some .dedent => pure ()
    | some _ =>
      let _ ← expect [.newline]
    return ⟨operator, left, right, left.start, right.stop⟩

/-- The end of the line after the name of a filter, and where it starts. -/
def nameEnd (name : Token) : Parser σ Location := do
  match ← peekKind with
  | none => return name.stop
  | some _ => return (← expect [.newline]).start

def filter : Parser σ Filter := do
  let name ← expect [.name]
  let stop ← nameEnd name
  if (← peekKind) = some .indent then
    let _ ← take
    let expressions ← readMany (do return (← peekKind) ≠ some .dedent) comparison
    let dedent ← expect [.dedent]
    return ⟨name.lexeme, expressions, name.start, dedent.stop⟩
  return ⟨name.lexeme, [], name.start, stop⟩

def filters : Parser σ (List Filter) :=
  readMany (do return (← peekKind).isSome) filter

/-- The filters of an ignore file, or why it is refused. -/
def parse (source : List Char) : Except IgnoreError (List Filter) :=
  (filters (Reader.mk (.ofSource source) ⟨1, 0⟩)).map Prod.fst

end PythonLint.Ignore
