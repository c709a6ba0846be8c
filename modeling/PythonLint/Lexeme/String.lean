import PythonLint.Fault

/-!
# String literals

Scanning a string literal at the start of a text. Letters before the quote say what the literal
stands for; a backslash takes the next character with it; every line end inside counts as a line
feed. A fault is given with the number of characters before the place where it is reported.
-/

namespace PythonLint

def isQuote (c : Char) : Bool :=
  c = '"' || c = '\''

/-- What a single letter before the quote says: the form and whether the literal is raw. -/
def letterKind? (c : Char) : Option (LiteralForm × Bool) :=
  match c.toLower with
  | 'r' => some (.text, true)
  | 'f' => some (.format, false)
  | 'u' => some (.unicode, false)
  | 'b' => some (.bytes, false)
  | _ => none

/-- What two letters before the quote say: `r` with `f` or `b`, in either order. -/
def lettersKind? (c d : Char) : Option (LiteralForm × Bool) :=
  match c.toLower, d.toLower with
  | 'r', 'f' => some (.format, true)
  | 'f', 'r' => some (.format, true)
  | 'r', 'b' => some (.bytes, true)
  | 'b', 'r' => some (.bytes, true)
  | _, _ => none

/-- The form of the literal at the start of a text, whether it is raw, and how many letters come
before its quote; `none` when no literal starts there. -/
def literalStart? : List Char → Option (LiteralForm × Bool × Nat)
  | c :: d :: e :: _ =>
    if isQuote c then some (.text, false, 0)
    else if isQuote d then (letterKind? c).map fun (form, raw) => (form, raw, 1)
    else if isQuote e then (lettersKind? c d).map fun (form, raw) => (form, raw, 2)
    else none
  | c :: d :: [] =>
    if isQuote c then some (.text, false, 0)
    else if isQuote d then (letterKind? c).map fun (form, raw) => (form, raw, 1)
    else none
  | c :: [] => if isQuote c then some (.text, false, 0) else none
  | [] => none

/-- Puts characters before the content of a body that was scanned. -/
def withContent (chars : List Char) :
    Except (Fault × Nat) (List Char × Nat) → Except (Fault × Nat) (List Char × Nat)
  | .ok (content, size) => .ok (chars ++ content, size)
  | .error fault => .error fault

/-- The content of a literal up to its closing quotes, and the number of characters up to and
including them; `before` characters precede the text. -/
def scanBody (quote : Char) (triple : Bool) :
    List Char → (before : Nat) → Except (Fault × Nat) (List Char × Nat)
  | [], before => .error (if triple then .unexpectedEnd else .unfinishedString, before)
  | '\\' :: '\r' :: '\n' :: rest, before =>
    withContent ['\\', '\n'] (scanBody quote triple rest (before + 3))
  | '\\' :: c :: rest, before =>
    withContent ['\\', if c = '\r' then '\n' else c] (scanBody quote triple rest (before + 2))
  | '\r' :: '\n' :: rest, before =>
    if triple then withContent ['\n'] (scanBody quote triple rest (before + 2))
    else .error (.lineEndInString, before + 2)
  | c :: rest, before =>
    if c = '\n' ∨ c = '\r' then
      if triple then withContent ['\n'] (scanBody quote triple rest (before + 1))
      else .error (.lineEndInString, before + 1)
    else if c = quote then
      if !triple then .ok ([], before + 1)
      else if rest.take 2 = [quote, quote] then .ok ([], before + 3)
      else withContent [c] (scanBody quote triple rest (before + 1))
    else withContent [c] (scanBody quote triple rest (before + 1))

/-- The literal whose quote follows `letters` characters of a text, and its length. -/
def scanLiteral (form : LiteralForm) (raw : Bool) (letters : Nat) (text : List Char) :
    Except (Fault × Nat) (Tok × Nat) :=
  let quote := (text.drop letters).headD '"'
  let rest := text.drop (letters + 1)
  let triple := rest.take 2 = [quote, quote]
  let opening := if triple then 3 else 1
  (scanBody quote triple (text.drop (letters + opening)) (letters + opening)).map
    fun (content, size) => (.string ⟨form, raw, triple, content⟩, size)

end PythonLint
