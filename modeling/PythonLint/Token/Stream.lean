import PythonLint.Lexeme.SoftKeyword
import PythonLint.Position
import PythonLint.Text.Blank
import PythonLint.Text.Lines
import PythonLint.Token
import PythonLint.Token.Untabify

/-!
# The token stream of a source

The lexemes of a source become tokens one logical line at a time. A logical line ends with a newline
token, and the last one with the end of the source. An error takes the tokens of its own logical
line with it.
-/

namespace PythonLint

open Text

def kindOf : Tok → TokenKind
  | .name _ => .name
  | .int _ => .number
  | .float _ => .number
  | .complex _ => .number
  | .string _ => .string
  | .keyword _ => .keyword
  | .symbol _ => .op
  | .newline => .newline
  | .indent => .indent
  | .dedent => .dedent

/-- The piece for an indentation before the code at `code`: all blanks at the start of that line. -/
def indentPiece (text : List Char) (lines : List (List Char)) (code : Nat) : Piece :=
  let line := (locationAt text code).line
  let blanks := ((lines[line - 1]?).getD []).takeWhile isSpacing
  ⟨.indent, String.ofList blanks, ⟨line, 0⟩, ⟨line, blanks.length⟩⟩

/-- The piece that a lexeme of `text` stands for, when `code` is where the next lexeme starts. A
newline ends on its own line, after the characters that end it. -/
def pieceOf (text : List Char) (lines : List (List Char)) (lexeme : Lexeme) (code : Nat) : Piece :=
  match lexeme.tok with
  | .indent => indentPiece text lines code
  | .dedent =>
    let here := locationAt text code
    ⟨.dedent, "", here, here⟩
  | tok =>
    let chars := sliceBytes text lexeme.start lexeme.stop
    let start := locationAt text lexeme.start
    let stop :=
      if tok = .newline then ⟨start.line, start.column + chars.length⟩
      else locationAt text lexeme.stop
    ⟨kindOf tok, String.ofList chars, start, stop⟩

/-- The pieces that lexemes stand for. A mark of a block is placed at the lexeme after it. -/
def piecesOf (text : List Char) (lines : List (List Char)) : List Lexeme → List Piece
  | [] => []
  | lexeme :: rest =>
    let code := (rest.head?.map Lexeme.start).getD lexeme.stop
    pieceOf text lines lexeme code :: piecesOf text lines rest

/-- The pieces up to and including each newline, and the pieces after the last one. -/
def logicalLines : List Piece → List (List Piece) × List Piece
  | [] => ([], [])
  | piece :: rest =>
    match logicalLines rest with
    | (groups, tail) =>
      if piece.kind = .newline then ([piece] :: groups, tail)
      else match groups with
        | [] => ([], piece :: tail)
        | group :: others => ((piece :: group) :: others, tail)

def rangeOf (pieces : List Piece) : LineRange :=
  match pieces with
  | [] => ⟨1, 1⟩
  | piece :: rest =>
    ⟨rest.foldl (fun line p => min line p.start.line) piece.start.line,
      rest.foldl (fun line p => max line p.stop.line) piece.stop.line⟩

/-- The text of the physical lines of a range, joined and without blanks at its end. -/
def logicalText (lines : List (List Char)) (range : LineRange) : String :=
  String.ofList (trimEnd (unlines ((lines.take range.last).drop (range.first - 1))))

def tokensOfLine (lines : List (List Char)) (pieces : List Piece) : List Token :=
  let range := rangeOf pieces
  let text := logicalText lines range
  pieces.map fun piece => { piece with range, logicalLine := text }

def endPiece (text : List Char) : Piece :=
  let here := locationAt text (byteLength text)
  ⟨.endMarker, "", here, here⟩

/-- The line end before a position, if any, is left out: a fault found at a line end is reported on
the line that it ends. -/
def beforeLineEnd (text : List Char) (offset : Nat) : Nat :=
  let before := (takeBytes offset text).reverse
  let offset := min offset (byteLength text)
  match before with
  | '\n' :: '\r' :: _ => offset - 2
  | '\n' :: _ => offset - 1
  | _ => offset

def tokenError (text : List Char) (misplaced : Misplaced) : TokenError :=
  ⟨misplaced.fault, locationAt text (beforeLineEnd text misplaced.offset)⟩

def tokenize (text : List Char) : TokenStream :=
  let scan := scanModule (untabify text)
  let lines := lines text
  let (groups, tail) := logicalLines (piecesOf text lines scan.lexemes)
  match scan.fault with
  | some fault => ⟨groups.flatMap (tokensOfLine lines), some (tokenError text fault)⟩
  | none => ⟨(groups ++ [tail ++ [endPiece text]]).flatMap (tokensOfLine lines), none⟩

end PythonLint
