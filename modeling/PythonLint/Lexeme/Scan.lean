import PythonLint.Lexeme.Margin
import PythonLint.Lexeme.Number
import PythonLint.Lexeme.String
import PythonLint.Lexeme.Symbol
import PythonLint.Text.Bytes
import PythonLint.Text.Emoji
import PythonLint.Text.Identifier

/-!
# Scanning a source

A source is scanned from left to right. At each place one piece is read: a token, or something that
yields none, such as a comment or the blanks between tokens. Inside brackets line ends yield
nothing; outside they end a statement, and the margin of the next line decides on blocks. Scanning
stops at the first fault.

## Design notes

The scanner recurses on the text one character at a time and counts down the characters that the
last piece has taken. So it is structurally recursive, and every position it reports is the number
of bytes before a character of the text.
-/

namespace PythonLint

open Text

def wordTok (word : String) : Tok :=
  if hardKeywords.contains word || softKeywords.contains word then .keyword word else .name word

def lineEndSize : List Char → Nat
  | '\r' :: '\n' :: _ => 2
  | c :: _ => if isLineEnd c then 1 else 0
  | [] => 0

/-- The blanks that may stand between two tokens. -/
def isSpacing (c : Char) : Bool :=
  c = ' ' || c = '\t' || c = '\x0c'

/-- A backslash joins the next line to its own: the length of both characters, or the fault. -/
def scanContinuation (rest : List Char) : Except (Fault × Nat) Nat :=
  let size := lineEndSize rest
  if size = 0 then .error (.strayBackslash, 1)
  else if (rest.drop size).isEmpty then .error (.unexpectedEnd, 1 + size)
  else .ok (1 + size)

/-- The piece at the start of the text `c :: rest`: the token it yields, if any, and its length.
Line ends count when `depth` brackets are open; then they yield nothing. A fault comes with the
number of characters before the place where it is reported. -/
def scanPiece (depth : Nat) (c : Char) (rest : List Char) :
    Except (Fault × Nat) (Option Tok × Nat) :=
  let text := c :: rest
  let token (result : Tok × Nat) : Option Tok × Nat := (some result.1, result.2)
  match literalStart? text with
  | some (form, raw, letters) => (scanLiteral form raw letters text).map token
  | none =>
    if isIdentifierStart c then
      let word := text.takeWhile isIdentifierPart
      .ok (some (wordTok (String.ofList word)), word.length)
    else if isEmoji c then .ok (some (.name (String.ofList [c])), 1)
    else if isDigitIn 10 c || c = '.' && rest.head?.any (isDigitIn 10) then
      (scanNumber text).map token
    else if c = '#' then .ok (none, (text.takeWhile (!isLineEnd ·)).length)
    else if isLineEnd c then .ok (if depth = 0 then some .newline else none, lineEndSize text)
    else if isSpacing c then .ok (none, (text.takeWhile isSpacing).length)
    else if c = '\\' then (scanContinuation rest).map fun size => (none, size)
    else match scanSymbol? text with
      | some symbol =>
        if isClosing symbol && depth = 0 then .error (.unmatchedClosing, 1)
        else .ok (some (.symbol symbol), symbol.length)
      | none => .error (.strayCharacter c, if c = '!' then 0 else 1)

/-- What the scanner remembers between two pieces. -/
structure Scanner where
  lineStart : Bool
  depth : Nat
  /-- The open levels of indentation, innermost first. -/
  levels : List Level
deriving DecidableEq, Repr

namespace Scanner

def initial : Scanner := ⟨true, 0, []⟩

def after (scanner : Scanner) : Option Tok → Scanner
  | some .newline => { scanner with lineStart := true }
  | some (.symbol symbol) =>
    if isOpening symbol then { scanner with depth := scanner.depth + 1 }
    else if isClosing symbol then { scanner with depth := scanner.depth - 1 }
    else scanner
  | _ => scanner

end Scanner

/-- Lexemes in the order of the source, and the fault that ends them, if any. -/
structure Scan where
  lexemes : List Lexeme
  fault : Option Misplaced
deriving DecidableEq, Repr

namespace Scan

def fail (fault : Fault) (offset : Nat) : Scan := ⟨[], some ⟨fault, offset⟩⟩

def prepend (lexemes : List Lexeme) (scan : Scan) : Scan := ⟨lexemes ++ scan.lexemes, scan.fault⟩

end Scan

/-- The lexemes at the end of a source: the last statement and all open blocks end. -/
def finishScan (offset : Nat) (scanner : Scanner) : Scan :=
  if scanner.depth ≠ 0 then .fail .unexpectedEnd offset
  else
    let newline := if scanner.lineStart then [] else [⟨.newline, offset, offset⟩]
    ⟨newline ++ scanner.levels.map fun _ => ⟨.dedent, offset, offset⟩, none⟩

/-- The lexemes that a change of levels stands for, the code of the line starting at `offset`. -/
def changeLexemes (level : Level) (offset : Nat) : LineChange → List Lexeme
  | .same => []
  | .opens => [⟨.indent, offset - level.width, offset⟩]
  | .closes count => List.replicate count ⟨.dedent, offset, offset⟩

/-- The lexemes of `text`, which starts at byte `offset`, after its first `skip` characters, which
belong to the piece read last. -/
def scanFrom (offset : Nat) (scanner : Scanner) (skip : Nat) : List Char → Scan
  | [] => finishScan offset scanner
  | c :: rest =>
    let next := offset + c.utf8Size
    let place (count : Nat) : Nat := offset + byteLength ((c :: rest).take count)
    let piece (scanner : Scanner) : Scan :=
      match scanPiece scanner.depth c rest with
      | .error (fault, count) => .fail fault (place count)
      | .ok (tok, size) =>
        (scanFrom next (scanner.after tok) (size - 1) rest).prepend
          (tok.toList.map fun tok => ⟨tok, offset, place size⟩)
    match skip with
    | skip + 1 => scanFrom next scanner skip rest
    | 0 =>
      if scanner.lineStart then
        match readMargin false .zero 0 (c :: rest) with
        | .error (fault, count) => .fail fault (place count)
        | .ok (level, size) =>
          if size = rest.length + 1 then scanFrom next scanner (size - 1) rest
          else match enterLine level scanner.levels with
            | .error fault => .fail fault (place size)
            | .ok (change, levels) =>
              let scanner := { scanner with lineStart := false, levels }
              (if size = 0 then piece scanner else scanFrom next scanner (size - 1) rest).prepend
                (changeLexemes level (place size) change)
      else piece scanner

/-- The byte order mark, which is skipped at the start of a source. -/
def byteOrderMark : Char := '\ufeff'

/-- The lexemes of a text whose first character stands at byte `offset`; a byte order mark there is
skipped. -/
def scanAt (offset : Nat) (text : List Char) : Scan :=
  if text.head? = some byteOrderMark then
    scanFrom (offset + byteOrderMark.utf8Size) .initial 0 text.tail
  else scanFrom offset .initial 0 text

end PythonLint
