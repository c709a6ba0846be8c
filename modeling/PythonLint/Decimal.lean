/-!
# Decimal numbers and their binary neighbours

A floating point literal is written in decimal and read as the nearest binary number of 53
significant bits, ties going to the even neighbour. `Decimal.shown` writes that binary number with
the fewest digits that read back as it, the nearest such decimal winning, and never with an
exponent. All of it is exact arithmetic on natural numbers.
-/

namespace PythonLint

/-- The number `digits · 10 ^ exponent`. -/
structure Decimal where
  /-- The digits, read as a whole number. -/
  digits : Nat
  exponent : Int
deriving DecidableEq, Repr, Inhabited

/-- The number `mantissa · 2 ^ exponent`. -/
structure Binary where
  mantissa : Nat
  exponent : Int
deriving DecidableEq, Repr

namespace Binary

def leastExponent : Int := -1074

def greatestExponent : Int := 971

end Binary

/-- The whole number nearest to `num / den`, the even one of two that are equally near. -/
def roundHalfEven (num den : Nat) : Nat :=
  let whole := num / den
  let twice := 2 * (num % den)
  if twice < den then whole
  else if twice > den then whole + 1
  else if whole % 2 = 0 then whole else whole + 1

/-- `num / den / 2 ^ exponent` as a quotient. -/
def scaleDown (num den : Nat) (exponent : Int) : Nat × Nat :=
  if exponent < 0 then (num * Nat.pow 2 (-exponent).toNat, den)
  else (num, den * Nat.pow 2 exponent.toNat)

namespace Decimal

def quotient (d : Decimal) : Nat × Nat :=
  if d.exponent < 0 then (d.digits, Nat.pow 10 (-d.exponent).toNat)
  else (d.digits * Nat.pow 10 d.exponent.toNat, 1)

/-- The binary number nearest to `num / den`, which is below `2 ^ (exponent + 54)`. -/
def roundAt (num den : Nat) (exponent : Int) : Binary :=
  let (n, m) := scaleDown num den exponent
  let mantissa := roundHalfEven n m
  if mantissa < Nat.pow 2 53 then ⟨mantissa, exponent⟩
  else
    let (n, m) := scaleDown num den (exponent + 1)
    let mantissa := roundHalfEven n m
    if mantissa < Nat.pow 2 53 then ⟨mantissa, exponent + 1⟩ else ⟨mantissa / 2, exponent + 2⟩

/-- The binary number nearest to a decimal, and `none` for one that is too large. The first tests
keep the powers of ten within reach. -/
def nearest (d : Decimal) : Option Binary :=
  let length : Int := (Nat.toDigits 10 d.digits).length
  if d.digits = 0 then some ⟨0, Binary.leastExponent⟩
  else if length + d.exponent > 400 then none
  else if length + d.exponent < -400 then some ⟨0, Binary.leastExponent⟩
  else
    let (num, den) := d.quotient
    let exponent : Int := max ((num.log2 : Int) - den.log2 - 53) Binary.leastExponent
    let rounded := roundAt num den exponent
    if rounded.exponent > Binary.greatestExponent then none else some rounded

end Decimal

namespace Binary

/-- How `a · 10 ^ tens` compares with `b · 2 ^ twos`. -/
def compareScaled (a : Nat) (tens : Int) (b : Nat) (twos : Int) : Ordering :=
  compare (a * Nat.pow 10 tens.toNat * Nat.pow 2 (-twos).toNat)
    (b * Nat.pow 2 twos.toNat * Nat.pow 10 (-tens).toNat)

/-- Whether `a · 10 ^ tens` rounds to the binary number `b`, whose upper neighbour lies a whole unit
above it and whose lower neighbour a whole or a half unit below it. -/
def readsBackAs (b : Binary) (a : Nat) (tens : Int) : Bool :=
  let even := b.mantissa % 2 = 0
  let lowest := b.mantissa = Nat.pow 2 52 ∧ b.exponent > leastExponent
  let low := 4 * b.mantissa - (if lowest then 1 else 2)
  let high := 4 * b.mantissa + 2
  let above := compareScaled a tens low (b.exponent - 2)
  let below := compareScaled a tens high (b.exponent - 2)
  (above = .gt ∨ even ∧ above = .eq) ∧ (below = .lt ∨ even ∧ below = .eq)

/-- The number of decimal digits before the point of `b`, negative when zeros follow the point. -/
def magnitude (b : Binary) : Int :=
  let whole := b.mantissa * Nat.pow 2 b.exponent.toNat / Nat.pow 2 (-b.exponent).toNat
  if whole > 0 then (Nat.toDigits 10 whole).length
  else
    let zeros := (List.range 400).find? fun j =>
      Nat.pow 2 (-b.exponent).toNat ≤ b.mantissa * Nat.pow 10 (j + 1)
    Int.neg (zeros.getD 400)

/-- A neighbour of `b` on the grid of multiples of `10 ^ tens` that reads back as `b`, the nearest
first. -/
def onGrid (b : Binary) (tens : Int) : Option Nat :=
  let num := b.mantissa * Nat.pow 2 b.exponent.toNat * Nat.pow 10 (-tens).toNat
  let den := Nat.pow 2 (-b.exponent).toNat * Nat.pow 10 tens.toNat
  let below := num / den
  let nearer := roundHalfEven num den
  if b.readsBackAs nearer tens then some nearer
  else if b.readsBackAs below tens then some below
  else if b.readsBackAs (below + 1) tens then some (below + 1)
  else none

/-- The fewest digits that read back as `b`, with their power of ten. -/
def shortest (b : Binary) : Decimal :=
  let magnitude := b.magnitude
  let found := (List.range 17).findSome? fun n =>
    let tens := magnitude - (n + 1 : Nat)
    (b.onGrid tens).map fun digits => (⟨digits, tens⟩ : Decimal)
  found.getD ⟨b.mantissa, 0⟩

end Binary

namespace Decimal

/-- The digits of a decimal with its point in place and no exponent; zeros that say nothing are left
out. -/
def positional (d : Decimal) : String :=
  let digits := Nat.toDigits 10 d.digits
  if 0 ≤ d.exponent then String.ofList (digits ++ List.replicate d.exponent.toNat '0')
  else
    let places := (-d.exponent).toNat
    let padded := List.replicate (places + 1 - digits.length) '0' ++ digits
    let whole := padded.take (padded.length - places)
    let fraction := (padded.drop (padded.length - places)).reverse.dropWhile (· == '0')
    String.ofList (if fraction.isEmpty then whole else whole ++ '.' :: fraction.reverse)

/-- The text of a decimal after rounding to a binary number. -/
def shown (d : Decimal) : String :=
  match d.nearest with
  | none => "inf"
  | some b => if b.mantissa = 0 then "0" else b.shortest.positional

end Decimal

end PythonLint
