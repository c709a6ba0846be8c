import PythonLint.Position
import PythonLint.Text.Utf8
import PythonLint.Token

/-!
# Masking print statements

In Python 2 `print` may be a statement. The bytes of every such statement are overwritten by `pass`
and blanks, so that the rest of the source keeps its positions, and the bytes that result are
decoded again. A line end inside the statement stays and is escaped, so that the statement ends
where it did.
-/

namespace PythonLint

open Text

/-- What is known between two tokens. -/
structure PrintState where
  /-- Where the print statement that is being read starts. -/
  opened : Option Nat
  depth : Nat
  atStart : Bool

def depthAfter (depth : Nat) (token : Token) : Nat :=
  if token.kind ≠ .op then depth
  else if ["(", "[", "\x7b"].contains token.lexeme then depth + 1
  else if [")", "]", "\x7d"].contains token.lexeme then depth - 1
  else depth

namespace PrintState

def isEnd (state : PrintState) (token : Token) : Bool :=
  state.depth == 0 &&
    (token.kind == .newline || token.kind == .endMarker || token.lexeme == ";")

/-- The state after a token that ends no statement. A statement may follow a colon outside
brackets. -/
def after (text : List Char) (state : PrintState) (token : Token) : PrintState :=
  if token.kind.isBlockMark then state
  else if token.isOp ":" && state.depth == 0 then { state with atStart := true }
  else
    let starts := state.atStart && state.opened.isNone && token.isName "print"
    { opened := if starts then some (offsetAt text token.start) else state.opened
      depth := depthAfter state.depth token
      atStart := false }

end PrintState

/-- The print statements that tokens form, as the positions where they start and end. -/
def printSpansFrom (text : List Char) (state : PrintState) : List Token → List (Nat × Nat)
  | [] => []
  | token :: rest =>
    if state.isEnd token then
      let others := printSpansFrom text { state with opened := none, atStart := true } rest
      match state.opened with
      | some start => (start, offsetAt text token.start) :: others
      | none => others
    else printSpansFrom text (state.after text token) rest

def printSpans (text : List Char) (tokens : List Token) : List (Nat × Nat) :=
  printSpansFrom text ⟨none, 0, true⟩ tokens

/-! ### Overwriting in place -/

/-- A byte as a blank; line ends stay. -/
def blankByte (byte : UInt8) : UInt8 :=
  if byte = 0x0A ∨ byte = 0x0D then byte else 0x20

/-- Escapes the line end of which the byte at a position is the line feed, by a backslash over the
blank before it. The word that a statement starts with is not touched. -/
def escapeAt (bytes : List UInt8) (feed : Nat) : List UInt8 :=
  if bytes[feed]? = some 0x0A then
    let ending := if 0 < feed ∧ bytes[feed - 1]? = some 0x0D then feed - 1 else feed
    if 4 < ending ∧ bytes[ending - 1]? = some 0x20 then bytes.set (ending - 1) 0x5C else bytes
  else bytes

/-- The bytes of a statement overwritten by blanks, then by `pass`, then by backslashes; fails if
`pass` does not fit in. -/
def blankInPlace? (statement : List UInt8) : Option (List UInt8) :=
  let blanks := statement.map blankByte
  if 4 ≤ blanks.length then
    let word := encodeUtf8 "pass".toList ++ blanks.drop 4
    some ((List.range word.length).foldl escapeAt word)
  else none

/-- Overwrites the statement between two positions; fails if they are out of order or past the
end. -/
def overwrite? (bytes : List UInt8) (span : Nat × Nat) : Option (List UInt8) :=
  if span.1 ≤ span.2 ∧ span.2 ≤ bytes.length then
    (blankInPlace? ((bytes.take span.2).drop span.1)).map fun blanked =>
      bytes.take span.1 ++ blanked ++ bytes.drop span.2
  else none

/-- The text of bytes in which statements are overwritten, and where these start; fails if the bytes
that result are not UTF-8. -/
def maskInPlace? (bytes : List UInt8) (spans : List (Nat × Nat)) :
    Option (List Char × List Nat) := do
  let masked ← spans.foldlM overwrite? bytes
  let text ← (decodeUtf8 masked).toOption
  return (text, spans.map Prod.fst)

end PythonLint
