import PythonLint.Ast
import PythonLint.Grammar.Reading
import PythonLint.Text.Blank

/-!
# The content of string literals

A run of adjacent string literals is one expression. Its literals are decoded from left to right:
escapes have to name characters, bytes are ASCII, and the fields of a format string hold
expressions, which are read by the rules of the grammar on their own.
-/

namespace PythonLint

/-- Reads the expression of a field from its text, the first character of which stands at a
position. -/
abbrev FieldReader := List Char → Nat → Except Misplaced Expr

namespace Reading

/-- What has been read of a field. -/
structure FieldState where
  /-- The text of the expression, last character first. -/
  expression : List Char
  /-- The brackets open in it, innermost first. -/
  brackets : List Char
  /-- An equals sign ended the expression, which is then shown with its value. -/
  documented : Bool
  spec : List Field
  closed : Bool

namespace FieldState

def empty : FieldState := ⟨[], [], false, [], false⟩

def isBlank (state : FieldState) : Bool :=
  state.expression.all Text.isBlank

def push (state : FieldState) (c : Char) : FieldState :=
  { state with expression := c :: state.expression }

end FieldState

def openingOf (closing : Char) : Char :=
  if closing = ')' then '(' else if closing = ']' then '[' else '\x7b'

def closeBracket (state : FieldState) (closing : Char) : Reading FieldState := do
  match state.brackets with
  | [] => fail (.field (.unmatchedBracket closing))
  | opening :: outer =>
    if opening = openingOf closing then return { state.push closing with brackets := outer }
    fail (.field (.mismatchedBracket opening closing))

/-- The conversion after an exclamation mark, which the end of the field or its specification
follows. -/
def conversion (state : FieldState) : Reading Unit := do
  if state.isBlank then fail (.field .emptyExpression)
  match ← next with
  | none => fail (.field .unclosed)
  | some c =>
    if !(['s', 'a', 'r'].contains c) then fail (.field .invalidConversion)
    match ← peek with
    | some '\x7d' => pure ()
    | some ':' => pure ()
    | _ => fail (.field .unclosed)

/-- The next character of a field; `spec` reads a format specification. -/
def fieldStep (spec : Reading (List Field)) (state : FieldState) : Reading (Option FieldState) := do
  if state.closed then return none
  match ← next with
  | none => fail (.field .unclosed)
  | some c =>
    let top := state.brackets.isEmpty
    if ['!', '=', '<', '>'].contains c && (← peek) == some '=' then
      let _ ← next
      return some ((state.push c).push '=')
    if c = '!' && top then
      conversion state
      return some state
    if c = '=' && top then return some { state with documented := true }
    if c = ':' && top then return some { state with spec := ← spec }
    if c = '(' || c = '[' || c = '\x7b' then
      return some { state.push c with brackets := c :: state.brackets }
    if c = ')' || c = ']' then return some (← closeBracket state c)
    if c = '\x7d' then
      if !top then return some (← closeBracket state c)
      if state.isBlank then fail (.field .emptyExpression)
      return some { state with closed := true }
    if c = '"' || c = '\'' then
      let quoted ← through c (.field .unterminatedString)
      return some { state with expression := quoted.reverse ++ c :: state.expression }
    if c = ' ' && state.documented then return some state
    if c = '\\' then fail (.field .unterminatedString)
    if state.documented then fail (.field .unclosed)
    return some (state.push c)

/-- A field after its opening brace; `spec` reads a format specification. -/
def field (read : FieldReader) (spec : Reading (List Field)) : Reading Field := do
  let start ← position
  let state ← iterate (fieldStep spec) .empty
  match read state.expression.reverse start with
  | .ok value => return .mk value state.spec
  | .error misplaced => failAt (.fieldExpression misplaced.fault) start

/-- A format specification that may not hold fields, up to the closing brace or the end. -/
def plainSpec : Reading (List Field) := do
  let step (fields : List Field) : Reading (Option (List Field)) := do
    match ← peek with
    | none => return none
    | some '\x7d' => return none
    | some '\x7b' => fail (.field .nestedTooDeeply)
    | some _ =>
      let _ ← next
      return some fields
  iterate step []

/-- A backslash outside a field: before a brace it stands for itself. -/
def backslash (names : Text.NameTable) : Reading Unit := do
  let _ ← next
  match ← peek with
  | some '\x7b' => pure ()
  | some '\x7d' => pure ()
  | _ => escape names false

/-- Text and fields inside a format specification, up to the closing brace or the end. -/
def innerText (names : Text.NameTable) (read : FieldReader) (raw : Bool) :
    Reading (List Field) := do
  let step (fields : List Field) : Reading (Option (List Field)) := do
    match ← peek with
    | none => return none
    | some '\x7d' => return none
    | some '\x7b' =>
      let _ ← next
      return some (fields ++ [← field read plainSpec])
    | some c =>
      if c = '\\' && !raw then backslash names
      else
        let _ ← next
      return some fields
  iterate step []

/-- A format specification up to the closing brace or the end. Escapes count only after a field. -/
def spec (names : Text.NameTable) (read : FieldReader) (raw : Bool) : Reading (List Field) := do
  let step (fields : List Field) : Reading (Option (List Field)) := do
    match ← peek with
    | none => return none
    | some '\x7d' => return none
    | some '\x7b' => return some (fields ++ (← innerText names read raw))
    | some _ =>
      let _ ← next
      return some fields
  iterate step []

def formatText (names : Text.NameTable) (read : FieldReader) (raw : Bool) :
    Reading (List Field) := do
  let step (fields : List Field) : Reading (Option (List Field)) := do
    match ← peek with
    | none => return none
    | some '\x7b' =>
      let _ ← next
      match ← peek with
      | some '\x7b' =>
        let _ ← next
        return some fields
      | none => fail (.field .unclosed)
      | some _ => return some (fields ++ [← field read (spec names read raw)])
    | some '\x7d' =>
      let _ ← next
      if (← peek) ≠ some '\x7d' then fail (.field .singleClosingBrace)
      let _ ← next
      return some fields
    | some c =>
      if c = '\\' && !raw then backslash names
      else
        let _ ← next
      return some fields
  iterate step []

def plainText (names : Text.NameTable) (bytes raw : Bool) : Reading Unit := do
  let step (_ : Unit) : Reading (Option Unit) := do
    match ← next with
    | none => return none
    | some c =>
      if c = '\\' && !raw then escape names bytes
      else if bytes && c.toNat > 0x7F then fail .nonAsciiBytes
      return some ()
  iterate step ()

end Reading

/-- The fields of a literal that starts at a position, once its content has been decoded. -/
def literalFields (names : Text.NameTable) (read : FieldReader) (start : Nat) (literal : Literal) :
    Except Misplaced (List Field) :=
  let content : Content := ⟨literal.content, start + literal.openingLength⟩
  match literal.form with
  | .format => (Reading.formatText names read literal.raw content).map Prod.fst
  | .bytes => (Reading.plainText names true literal.raw content).map fun _ => []
  | .text => (Reading.plainText names false literal.raw content).map fun _ => []
  | .unicode => (Reading.plainText names false literal.raw content).map fun _ => []

/-- The expression that a run of adjacent literals stands for, each with its position. -/
def runExpr (names : Text.NameTable) (read : FieldReader) (start : Nat)
    (run : List (Nat × Literal)) :
    Except Misplaced Expr := do
  let bytes := run.filter fun (_, literal) => literal.form == .bytes
  if !bytes.isEmpty && bytes.length < run.length then throw ⟨.mixedBytes, start⟩
  let fields ← run.mapM fun (position, literal) => literalFields names read position literal
  if run.any fun (_, literal) => literal.form == .format then
    return .formatted start fields.flatten
  return .literal start

end PythonLint
