import PythonLint.Calendar
import PythonLint.Decimal
import PythonLint.Toml
import PythonLint.Toml.Reader

/-!
# Keys and simple values of TOML

Blanks, comments, keys, strings, numbers, dates and times.
-/

namespace PythonLint.Toml

open Reader

/-! ### Blanks and comments -/

/-- The character may stand in a comment or a literal string. -/
def isPlain (c : Char) : Bool :=
  c == '\t' || 0x20 ≤ c.toNat && c.toNat ≠ 0x7F

def blanks : Reader Unit := do
  let _ ← takeWhile fun c => c == ' ' || c == '\t'

def newline : Reader Unit :=
  char '\n' <|> chars ['\r', '\n']

def lineEnd : Reader Unit :=
  newline <|> atEnd

def comment : Reader Unit := do
  char '#'
  let _ ← takeWhile isPlain

/-- What may follow a value or a header on its line. -/
def trailing : Reader Unit := do
  blanks
  let _ ← maybe comment
  lineEnd

/-- Blanks, comments and line ends, between the items of an array. -/
def space : Reader Unit := do
  let _ ← many ((do let _ ← satisfy fun c => c == ' ' || c == '\t') <|> do
    let _ ← maybe comment
    newline)

/-! ### Strings -/

def hexValue (c : Char) : Nat :=
  if c.isDigit then c.toNat - '0'.toNat else c.toLower.toNat - 'a'.toNat + 10

def isHexDigit (c : Char) : Bool :=
  c.isDigit || 'a' ≤ c && c ≤ 'f' || 'A' ≤ c && c ≤ 'F'

def valueIn (base : Nat) (digits : List Char) : Nat :=
  digits.foldl (fun value digit => base * value + hexValue digit) 0

def scalar (count : Nat) : Reader Char := do
  let code := valueIn 16 (← exactly count isHexDigit)
  require (decide code.isValidChar)
  return Char.ofNat code

def escape : Reader Char := do
  char '\\'
  match ← next with
  | 'b' => return '\x08'
  | 't' => return '\t'
  | 'n' => return '\n'
  | 'f' => return '\x0c'
  | 'r' => return '\r'
  | '"' => return '"'
  | '\\' => return '\\'
  | 'u' => scalar 4
  | 'U' => scalar 8
  | _ => failure

/-- A string between double quotes. -/
def basicText : Reader (List Char) := do
  char '"'
  let content ← many (escape <|> satisfy fun c => isPlain c && c ≠ '"' && c ≠ '\\')
  char '"'
  return content

/-- A string between single quotes. -/
def literalText : Reader (List Char) := do
  char '\''
  let content ← takeWhile fun c => isPlain c && c ≠ '\''
  char '\''
  return content

/-- One or two quotes that are followed by something else. -/
def innerQuotes (quote : Char) : Reader (List Char) := fun text =>
  let run := text.takeWhile (· == quote)
  if 1 ≤ run.length ∧ run.length ≤ 2 then some (run, text.drop run.length) else none

/-- Three quotes at the end of a string, with at most two more before them that belong to it. -/
def closingQuotes (quote : Char) : Reader (List Char) := do
  let extra := (← get).takeWhile (· == quote) |>.drop 3 |>.take 2
  chars extra
  chars [quote, quote, quote]
  return extra

/-- A backslash at the end of a line, with all blanks and line ends after it. -/
def joinedLine : Reader (List Char) := do
  char '\\'
  blanks
  newline
  let _ ← many ((do let _ ← satisfy fun c => c == ' ' || c == '\t') <|> newline)
  return []

def longPiece (quote : Char) (p : Char → Bool) : Reader (List Char) :=
  innerQuotes quote
  <|> (do
    newline
    return ['\n'])
  <|> (do
    let c ← satisfy fun c => isPlain c && c ≠ quote && p c
    return [c])

def longText (quote : Char) (piece : Reader (List Char)) : Reader (List Char) := do
  chars [quote, quote, quote]
  let _ ← maybe newline
  let pieces ← many piece
  let extra ← closingQuotes quote
  return pieces.flatten ++ extra

/-- A string in three double quotes. -/
def longBasicText : Reader (List Char) :=
  longText '"' (joinedLine <|> (do return [← escape]) <|> longPiece '"' (· ≠ '\\'))

/-- A string in three single quotes. -/
def longLiteralText : Reader (List Char) :=
  longText '\'' (longPiece '\'' fun _ => true)

def text : Reader Value := do
  return .text (String.ofList (← longBasicText <|> basicText <|> longLiteralText <|> literalText))

/-! ### Keys -/

/-- The character may stand in a key without quotes. -/
def isBareKeyChar (c : Char) : Bool :=
  c.isAlphanum || c == '_' || c == '-'

def simpleKey : Reader String := do
  let name ← basicText <|> literalText <|> (do
    let first ← satisfy isBareKeyChar
    return first :: (← takeWhile isBareKeyChar))
  return String.ofList name

/-- The most names that a key may have, and the most brackets that may be open at a time. -/
def maxDepth : Nat := 79

/-- The names of a dotted key: those before the last one, and the last one. -/
def key : Reader (List String × String) := do
  let names ← sepBy (do
    blanks
    let name ← simpleKey
    blanks
    return name) (char '.')
  require (names.length ≤ maxDepth)
  match names.getLast? with
  | none => failure
  | some last => return (names.dropLast, last)

/-! ### Numbers -/

/-- A sign: `true` for a minus. -/
def sign : Reader Bool := do
  let sign ← maybe (satisfy fun c => c == '+' || c == '-')
  return sign == some '-'

/-- Decimal digits without a zero before others. -/
def wholeDigits : Reader (List Char) :=
  (do
    let first ← satisfy fun c => c.isDigit && c ≠ '0'
    let others ← many (satisfy Char.isDigit <|> do
      char '_'
      satisfy Char.isDigit)
    return first :: others)
  <|> do return [← satisfy Char.isDigit]

def basedInteger (mark : Char) (base : Nat) (p : Char → Bool) : Reader Value := do
  chars ['0', mark]
  let value := valueIn base (← digits p)
  require (value < Nat.pow 2 63)
  return .integer value

def decimalInteger : Reader Value := do
  let negative ← sign
  let value := valueIn 10 (← wholeDigits)
  require (if negative then value ≤ Nat.pow 2 63 else value < Nat.pow 2 63)
  return .integer (if negative then -value else value)

def fraction : Reader (List Char) := do
  char '.'
  digits Char.isDigit

def exponent : Reader Int := do
  let _ ← satisfy fun c => c == 'e' || c == 'E'
  let negative ← sign
  let value : Int := valueIn 10 (← digits Char.isDigit)
  return if negative then -value else value

/-- A number with a fraction, an exponent or both; one that is too large is refused if it is
positive. -/
def decimalFloat : Reader Value := do
  let negative ← sign
  let whole ← wholeDigits
  let places ← maybe fraction
  let power ← maybe exponent
  require (places.isSome || power.isSome)
  let after := places.getD []
  let value : Decimal := ⟨valueIn 10 (whole ++ after), power.getD 0 - after.length⟩
  require (negative || value.nearest.isSome)
  return .float

def specialFloat : Reader Value := do
  let _ ← sign
  chars "inf".toList <|> chars "nan".toList
  return .float

def number : Reader Value :=
  decimalFloat <|> specialFloat <|> basedInteger 'x' 16 isHexDigit
    <|> basedInteger 'o' 8 (fun c => '0' ≤ c && c ≤ '7')
    <|> basedInteger 'b' 2 (fun c => c == '0' || c == '1')
    <|> decimalInteger

def truth : Reader Value :=
  (do
    chars "true".toList
    return .boolean true)
  <|> do
    chars "false".toList
    return .boolean false

/-! ### Dates and times -/

/-- A number of `count` digits from `low` to `high`, as it is written. -/
def field (count low high : Nat) : Reader (List Char) := do
  let written ← exactly count Char.isDigit
  let value := valueIn 10 written
  require (low ≤ value && value ≤ high)
  return written

def date : Reader (List Char) := do
  let year ← field 4 0 9999
  char '-'
  let month ← field 2 1 12
  char '-'
  let days := daysOfMonths (valueIn 10 year)
  let day ← field 2 1 (days.getD (valueIn 10 month - 1) 0)
  return year ++ '-' :: month ++ '-' :: day

/-- A time of day; its fraction is cut after nine digits and ends with no zero. -/
def time : Reader (List Char) := do
  let hour ← field 2 0 23
  char ':'
  let minute ← field 2 0 59
  char ':'
  let second ← field 2 0 60
  let places ← maybe (do
    char '.'
    let first ← satisfy Char.isDigit
    return first :: (← takeWhile Char.isDigit))
  let kept := (((places.getD []).take 9).reverse.dropWhile (· == '0')).reverse
  return hour ++ ':' :: minute ++ ':' :: second ++ (if kept.isEmpty then [] else '.' :: kept)

/-- The difference of a time from the time at Greenwich; without a difference, the sign is a
plus. -/
def offset : Reader (List Char) :=
  (do
    let _ ← satisfy fun c => c == 'Z' || c == 'z'
    return ['Z'])
  <|> do
    let sign ← satisfy fun c => c == '+' || c == '-'
    let hour ← field 2 0 23
    char ':'
    let minute ← field 2 0 59
    let digits := hour ++ ':' :: minute
    return (if digits = "00:00".toList then '+' else sign) :: digits

def timeOfDate : Reader (List Char) := do
  let _ ← satisfy fun c => c == 'T' || c == 't' || c == ' '
  let clock ← time
  let shift ← maybe offset
  return 'T' :: clock ++ shift.getD []

def moment : Reader Value := do
  let written ← (do
      let day ← date
      return day ++ (← maybe timeOfDate).getD [])
    <|> time
  return .moment (String.ofList written)

end PythonLint.Toml
