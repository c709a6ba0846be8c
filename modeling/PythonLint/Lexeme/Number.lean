import PythonLint.Fault

/-!
# Numbers

Scanning a number at the start of a text. Whole numbers are written in base ten or, after `0x`, `0o`
or `0b`, in base sixteen, eight or two; a fraction or an exponent makes a number a floating point
number, and a final `j` makes it imaginary. An underscore may stand before any digit but the first
of a part. A fault is given with the number of characters before the place where it is reported.
-/

namespace PythonLint

def digitValue (c : Char) : Nat :=
  if '0' ≤ c ∧ c ≤ '9' then c.toNat - '0'.toNat
  else if 'a' ≤ c ∧ c ≤ 'f' then c.toNat - 'a'.toNat + 10
  else if 'A' ≤ c ∧ c ≤ 'F' then c.toNat - 'A'.toNat + 10
  else 16

def isDigitIn (base : Nat) (c : Char) : Bool :=
  digitValue c < base

/-- The digits at the start of a text, with the underscores that stand before one of them. -/
def digitRun (base : Nat) : List Char → List Char
  | [] => []
  | c :: rest =>
    if isDigitIn base c then c :: digitRun base rest
    else if c = '_' && rest.head?.any (isDigitIn base) then c :: digitRun base rest
    else []

/-- The value of digits in a base; underscores count for nothing. -/
def digitsValue (base : Nat) (digits : List Char) : Nat :=
  digits.foldl (fun value c => if c = '_' then value else value * base + digitValue c) 0

def digitCount (digits : List Char) : Nat :=
  (digits.filter (· != '_')).length

def announcedBase : List Char → Option Nat
  | '0' :: c :: _ =>
    if c = 'x' ∨ c = 'X' then some 16
    else if c = 'o' ∨ c = 'O' then some 8
    else if c = 'b' ∨ c = 'B' then some 2
    else none
  | _ => none

def isExponentMark (c : Char) : Bool :=
  c = 'e' || c = 'E'

def isSign (c : Char) : Bool :=
  c = '+' || c = '-'

/-- An exponent mark, a sign or none, and a digit start the text. -/
def startsExponent : List Char → Bool
  | e :: c :: rest =>
    isExponentMark e && (isDigitIn 10 c || isSign c && rest.head?.any (isDigitIn 10))
  | _ => false

/-- The fraction at the start of a text, its point included; `before` characters precede it. -/
def scanFraction (before : Nat) : List Char → Except (Fault × Nat) (List Char)
  | '.' :: rest =>
    if rest.head? = some '_' then .error (.misplacedUnderscore, before)
    else .ok ('.' :: digitRun 10 rest)
  | _ => .ok []

/-- The digits of an exponent, which must not be missing; `before` characters precede them. -/
def scanExponentDigits (before : Nat) (text : List Char) : Except (Fault × Nat) (List Char) :=
  if text.head? = some '_' then .error (.misplacedUnderscore, before - 1)
  else
    let digits := digitRun 10 text
    if digits.isEmpty then .error (.missingExponent, before) else .ok digits

/-- The exponent at the start of a text, mark and sign included; `before` characters precede it. -/
def scanExponent (before : Nat) : List Char → Except (Fault × Nat) (List Char)
  | [] => .ok []
  | e :: rest =>
    if isExponentMark e then
      match rest with
      | sign :: digits =>
        if isSign sign then (scanExponentDigits (before + 2) digits).map (e :: sign :: ·)
        else (scanExponentDigits (before + 1) rest).map (e :: ·)
      | [] => .error (.missingExponent, before + 1)
    else .ok []

def exponentValue : List Char → Int
  | _ :: '-' :: digits => -(digitsValue 10 digits : Int)
  | _ :: '+' :: digits => digitsValue 10 digits
  | _ :: digits => digitsValue 10 digits
  | [] => 0

/-- The number whose parts are given: a whole part, a fraction with its point, and an exponent. -/
def decimalOf (whole fraction exponent : List Char) : Decimal :=
  let places := fraction.drop 1
  ⟨digitsValue 10 (whole ++ places), exponentValue exponent - digitCount places⟩

/-- The token for a number of `size` characters, `rest` following it: imaginary before a `j`. -/
def numberTok (real : Decimal → Tok) (value : Decimal) (size : Nat) (rest : List Char) :
    Tok × Nat :=
  match rest with
  | c :: _ => if c = 'j' ∨ c = 'J' then (.complex value, size + 1) else (real value, size)
  | [] => (real value, size)

/-- The number with a fraction or an exponent after `whole`. -/
def scanFloat (whole rest : List Char) : Except (Fault × Nat) (Tok × Nat) := do
  let fraction ← scanFraction whole.length rest
  let size := whole.length + fraction.length
  let exponent ← scanExponent size (rest.drop fraction.length)
  let stop := size + exponent.length
  pure (numberTok .float (decimalOf whole fraction exponent) stop
    (rest.drop (fraction.length + exponent.length)))

def scanNumber (text : List Char) : Except (Fault × Nat) (Tok × Nat) :=
  match announcedBase text with
  | some base =>
    let digits := digitRun base (text.drop 2)
    if digits.isEmpty then .error (.missingDigits, 0)
    else .ok (.int (digitsValue base digits), 2 + digits.length)
  | none =>
    let whole := digitRun 10 text
    let rest := text.drop whole.length
    if rest.head? = some '.' || startsExponent rest then scanFloat whole rest
    else
      let value := digitsValue 10 whole
      let (tok, size) := numberTok (fun _ => .int value) ⟨value, 0⟩ whole.length rest
      if size = whole.length && text.head? = some '0' && value ≠ 0 then .error (.leadingZeros, size)
      else .ok (tok, size)

end PythonLint
