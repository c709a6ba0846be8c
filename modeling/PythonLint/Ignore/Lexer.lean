import PythonLint.Ignore.Token
import PythonLint.Text.Blank
import PythonLint.Text.Lines

/-!
# Tokens of an ignore file

An ignore file is read line by line. A line that is indented more than the one before opens a block,
a line that is indented less closes blocks and has to fall back on a level that was open before.
Blank lines and comment lines do not count.

## Design notes

An error takes the tokens of its own line with it. A `Lexer` that is asked again after an error
still delivers them and goes on with the next line, unless it was read as a sequence, which an error
ends.
-/

namespace PythonLint.Ignore

/-! ### Lines -/

/-- A line of an ignore file. -/
structure Line where
  /-- The number of the line, counted from one. -/
  number : Nat
  /-- The text of the line, without its end. -/
  text : List Char
  terminated : Bool
deriving DecidableEq, Repr

/-- The lines that pieces between line feeds stand for, the first with the given number. -/
def linesFrom (number : Nat) : List (List Char) → List Line
  | [] => []
  | [last] => if last.isEmpty then [] else [⟨number, Text.dropEndWhile (· == '\r') last, false⟩]
  | piece :: rest =>
    ⟨number, Text.dropEndWhile (· == '\r') piece, true⟩ :: linesFrom (number + 1) rest

def sourceLines (source : List Char) : List Line :=
  linesFrom 1 (Text.segments source)

def endOfLines (lines : List Line) : Location :=
  match lines.getLast? with
  | none => ⟨1, 0⟩
  | some last => if last.terminated then ⟨last.number + 1, 0⟩ else ⟨last.number, last.text.length⟩

/-! ### Errors -/

/-- What can be wrong with a line. -/
inductive LexFault where
  | noWord
  /-- The line falls back on a level that was not open. -/
  | unmatchedLevel
deriving DecidableEq, Repr

/-- A fault of a line and its location. -/
structure LexError where
  fault : LexFault
  location : Location
deriving DecidableEq, Repr

namespace LexError

def message (error : LexError) : String :=
  match error.fault with
  | .noWord => "cannot find matching token at " ++ error.location.text
  | .unmatchedLevel =>
    "unindent does not match any outer indentation level at line " ++ toString error.location.line

end LexError

/-! ### Words -/

def isGap (c : Char) : Bool :=
  c == ' ' || c == '\t'

/-- The character may be part of a name, after its first letter. -/
def isNameChar (c : Char) : Bool :=
  c.isAlpha || c.isDigit || c == '_' || c == '-'

def wordAt : List Char → Option (TokenKind × List Char)
  | [] => none
  | c :: rest =>
    if c.isAlpha then some (.name, c :: rest.takeWhile isNameChar)
    else if c = '=' then some (.operator, [c])
    else if c = '<' ∨ c = '>' then
      some (.operator, if rest.head? = some '=' then [c, '='] else [c])
    else if c = '"' then
      let content := rest.takeWhile (· ≠ '"')
      if content.length < rest.length then some (.string, '"' :: content ++ ['"']) else none
    else if c.isDigit then some (.integer, c :: rest.takeWhile Char.isDigit)
    else none

/-- The words of a line, the column after the last one, and the error that ends them, if any. -/
structure Words where
  tokens : List Token
  column : Nat
  error : Option LexError

def lexWords (number : Nat) (column : Nat) : List Char → Words
  | [] => ⟨[], column, none⟩
  | c :: rest =>
    if isGap c then lexWords number (column + 1) rest
    else match wordAt (c :: rest) with
      | none => ⟨[], column, some ⟨.noWord, ⟨number, column⟩⟩⟩
      | some (kind, lexeme) =>
        let stop := column + lexeme.length
        let others := lexWords number stop (rest.drop (lexeme.length - 1))
        { others with
          tokens :=
          ⟨kind, String.ofList lexeme, ⟨number, column⟩, ⟨number, stop⟩⟩ :: others.tokens }
termination_by text => text.length

/-! ### Levels -/

/-- Tokens, the levels that are open after them, the innermost first, and the error that ends
them. -/
structure Piece where
  tokens : List Token
  /-- The open levels, the innermost first. -/
  levels : List Nat
  error : Option LexError

def dedentAt (location : Location) : Token := ⟨.dedent, "", location, location⟩

def lexMargin (levels : List Nat) (number : Nat) (margin : List Char) : Piece :=
  let width := margin.length
  let current := levels.headD 0
  if current < width then
    ⟨[⟨.indent, String.ofList (margin.drop current), ⟨number, current⟩, ⟨number, width⟩⟩],
      width :: levels, none⟩
  else
    let closed := levels.takeWhile (width < ·)
    let kept := levels.dropWhile (width < ·)
    ⟨closed.map fun _ => dedentAt ⟨number, width⟩, kept,
      if kept.head? = some width then none else some ⟨.unmatchedLevel, ⟨number, width⟩⟩⟩

def isSkipped (line : Line) : Bool :=
  match line.text.dropWhile isGap with
  | [] => true
  | c :: _ => c == '#'

def lineEnd (line : Line) (column : Nat) : List Token :=
  if line.terminated then
    [⟨.newline, "\n", ⟨line.number, column⟩, ⟨line.number + 1, 0⟩⟩]
  else []

def lexLine (levels : List Nat) (line : Line) : Piece :=
  if isSkipped line then ⟨[], levels, none⟩
  else
    let margin := line.text.takeWhile isGap
    let block := lexMargin levels line.number margin
    if block.error.isSome then block
    else
      let words := lexWords line.number margin.length (line.text.dropWhile isGap)
      match words.error with
      | some error => ⟨block.tokens ++ words.tokens, block.levels, some error⟩
      | none => ⟨block.tokens ++ words.tokens ++ lineEnd line words.column, block.levels, none⟩

/-- The tokens that close all levels but the outermost at the end. -/
def closeAll (levels : List Nat) (stop : Location) : List Token :=
  levels.dropLast.map fun _ => dedentAt stop

/-! ### Whole files -/

/-- The tokens of the lines before the first error, and the error. -/
structure Stream where
  tokens : List Token
  error : Option LexError
deriving DecidableEq, Repr

/-- The tokens of lines, when `levels` are open before them and the file ends at `stop`. -/
def lexLines (levels : List Nat) (stop : Location) : List Line → Stream
  | [] => ⟨closeAll levels stop, none⟩
  | line :: rest =>
    let piece := lexLine levels line
    match piece.error with
    | some error => ⟨[], some error⟩
    | none =>
      let others := lexLines piece.levels stop rest
      ⟨piece.tokens ++ others.tokens, others.error⟩

/-- The tokens of an ignore file up to the first error. -/
def lexStream (source : List Char) : Stream :=
  let lines := sourceLines source
  lexLines [0] (endOfLines lines) lines

def lex (source : List Char) : Except LexError (List Token) :=
  let stream := lexStream source
  match stream.error with
  | some error => .error error
  | none => .ok stream.tokens

/-! ### Reading token by token -/

/-- An ignore file that is read token by token. -/
structure Lexer where
  lines : List Line
  /-- The tokens that have been read and not been delivered. -/
  pending : List Token
  /-- The open levels, the innermost first. -/
  levels : List Nat
  stop : Location
  finished : Bool

namespace Lexer

def ofSource (source : List Char) : Lexer :=
  let lines := sourceLines source
  ⟨lines, [], [0], endOfLines lines, false⟩

/-- What a lexer still has to give. -/
def ahead (lexer : Lexer) : Stream :=
  if lexer.finished then ⟨lexer.pending, none⟩
  else
    let others := lexLines lexer.levels lexer.stop lexer.lines
    ⟨lexer.pending ++ others.tokens, others.error⟩

/-- Reads lines until there is a token, an error or the end. -/
def fillFrom (levels : List Nat) (stop : Location) : List Line → Lexer × Option LexError
  | [] => (⟨[], closeAll levels stop, levels.drop (levels.length - 1), stop, true⟩, none)
  | line :: rest =>
    let piece := lexLine levels line
    match piece.error, piece.tokens with
    | some error, tokens => (⟨rest, tokens, piece.levels, stop, false⟩, some error)
    | none, [] => fillFrom piece.levels stop rest
    | none, tokens => (⟨rest, tokens, piece.levels, stop, false⟩, none)

/-- Reads until a token is pending, if none is. -/
def fill (lexer : Lexer) : Lexer × Option LexError :=
  if lexer.pending.isEmpty && !lexer.finished then fillFrom lexer.levels lexer.stop lexer.lines
  else (lexer, none)

/-- The next token, which stays pending, or `none` at the end. -/
def peek (lexer : Lexer) : Except LexError (Option Token) × Lexer :=
  match lexer.fill with
  | (filled, some error) => (.error error, filled)
  | (filled, none) => (.ok filled.pending.head?, filled)

/-- The next token, or `none` at the end. -/
def next (lexer : Lexer) : Except LexError (Option Token) × Lexer :=
  match lexer.fill with
  | (filled, some error) => (.error error, filled)
  | (filled, none) => (.ok filled.pending.head?, { filled with pending := filled.pending.tail })

/-- The next token of the file read as a sequence, which an error ends. -/
def advance (lexer : Lexer) : Except LexError (Option Token) × Lexer :=
  match lexer.next with
  | (.ok token, after) => (.ok token, after)
  | (.error error, after) =>
    (.error error, { after with lines := [], pending := [], finished := true })

end Lexer

end PythonLint.Ignore
