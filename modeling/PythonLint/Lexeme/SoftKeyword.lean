import PythonLint.Lexeme.Scan

/-!
# Soft keywords

The words `match`, `case` and `type` are keywords only at the start of a logical line that looks
like the statement they introduce. Everywhere else they are names.
-/

namespace PythonLint

/-- The lexemes up to the end of the line hold a colon that is outside `depth` brackets, does not
come first, and does not belong to a `lambda`. -/
def introducesBlock (depth : Nat) (first insideLambda : Bool) : List Lexeme → Bool
  | [] => false
  | lexeme :: rest =>
    match lexeme.tok with
    | .newline => false
    | .keyword "lambda" => introducesBlock depth false (insideLambda || depth == 0) rest
    | .symbol symbol =>
      if symbol = ":" && depth = 0 then
        if insideLambda then introducesBlock depth false false rest
        else !first || introducesBlock depth false false rest
      else if isOpening symbol then introducesBlock (depth + 1) false insideLambda rest
      else if isClosing symbol then introducesBlock (depth - 1) false insideLambda rest
      else introducesBlock depth false insideLambda rest
    | _ => introducesBlock depth false insideLambda rest

def namesAlias : Tok → Bool
  | .name _ => true
  | .keyword word => softKeywords.contains word
  | _ => false

/-- An equals sign comes next, once anything in `depth` square brackets has been skipped. Other
brackets do not count, so that more square brackets may be closed than opened. -/
def definesAlias (depth : Int) : List Lexeme → Bool
  | [] => false
  | lexeme :: rest =>
    match lexeme.tok with
    | .newline => false
    | .symbol "[" => definesAlias (depth + 1) rest
    | .symbol "]" => definesAlias (depth - 1) rest
    | .symbol "=" => depth == 0 || 0 < depth && definesAlias depth rest
    | _ => 0 < depth && definesAlias depth rest

/-- A name comes next and is defined as an alias. -/
def introducesAlias : List Lexeme → Bool
  | [] => false
  | lexeme :: rest => namesAlias lexeme.tok && definesAlias 0 rest

/-- The soft keyword `word` introduces a statement when `rest` follows it on its line. -/
def introducesStatement (word : String) (rest : List Lexeme) : Bool :=
  if word = "type" then introducesAlias rest else introducesBlock 0 true false rest

def endsLine : Tok → Bool
  | .newline => true
  | .indent => true
  | .dedent => true
  | _ => false

/-- The token at the start of a line or elsewhere, before `rest`, as a keyword or as a name. -/
def resolveSoftKeyword (lineStart : Bool) (tok : Tok) (rest : List Lexeme) : Tok :=
  match tok with
  | .keyword word =>
    if softKeywords.contains word && !(lineStart && introducesStatement word rest) then .name word
    else tok
  | _ => tok

/-- The lexemes with soft keywords turned into names where they are names. -/
def resolveSoftKeywords (lineStart : Bool) : List Lexeme → List Lexeme
  | [] => []
  | lexeme :: rest =>
    let tok := resolveSoftKeyword lineStart lexeme.tok rest
    { lexeme with tok } :: resolveSoftKeywords (endsLine tok) rest

namespace Scan

/-- The scan with its soft keywords resolved; statements start at its first lexeme or not. -/
def resolved (scan : Scan) (lineStart : Bool) : Scan :=
  { scan with lexemes := resolveSoftKeywords lineStart scan.lexemes }

end Scan

def scanModule (text : List Char) : Scan :=
  (scanAt 0 text).resolved true

/-- The lexemes of a lone expression whose first character stands at byte `offset`. -/
def scanExpression (offset : Nat) (text : List Char) : Scan :=
  (scanAt offset text).resolved false

end PythonLint
