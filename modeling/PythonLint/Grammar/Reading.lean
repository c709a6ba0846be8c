import PythonLint.Fault
import PythonLint.Text.Bytes
import PythonLint.Text.CharName

/-!
# Reading the content of a string literal

A reading goes through the content of a literal character by character and knows the position in the
source that it has reached. A line end counts as one byte, however it is written.
-/

namespace PythonLint

/-- The characters not read yet, and the position of the first one. -/
structure Content where
  rest : List Char
  offset : Nat

abbrev Reading := StateT Content (Except Misplaced)

namespace Reading

variable {α : Type}

def peek : Reading (Option Char) := fun content =>
  .ok (content.rest.head?, content)

def next : Reading (Option Char) := fun content =>
  match content.rest with
  | [] => .ok (none, content)
  | c :: rest => .ok (some c, ⟨rest, content.offset + c.utf8Size⟩)

def position : Reading Nat := fun content =>
  .ok (content.offset, content)

def failAt (fault : Fault) (offset : Nat) : Reading α :=
  throw ⟨fault, offset⟩

def fail (fault : Fault) : Reading α := do
  failAt fault (← position)

/-- Reads characters as long as they satisfy `p`, `limit` of them at most. -/
def takeWhile (p : Char → Bool) (limit : Nat) : Reading (List Char) := fun content =>
  let taken := (content.rest.take limit).takeWhile p
  .ok (taken, ⟨content.rest.drop taken.length, content.offset + Text.byteLength taken⟩)

/-- Repeats a step from one value to the next until it yields none, or reads nothing. -/
def iterate (step : α → Reading (Option α)) (value : α) : Reading α := fun content =>
  match step value content with
  | .error fault => .error fault
  | .ok (none, after) => .ok (value, after)
  | .ok (some value, after) =>
    if after.rest.length < content.rest.length then iterate step value after else .ok (value, after)
termination_by content => content.rest.length

/-- Reads characters up to and including `stop`; the fault is raised at the end when there is
none. -/
def through (stop : Char) (missing : Fault) : Reading (List Char) := fun content =>
  let taken := content.rest.takeWhile (· != stop)
  let offset := content.offset + Text.byteLength taken
  match content.rest.drop taken.length with
  | [] => .error ⟨missing, offset⟩
  | c :: rest => .ok (taken ++ [c], ⟨rest, offset + c.utf8Size⟩)

def hexValue? (c : Char) : Option Nat :=
  if '0' ≤ c ∧ c ≤ '9' then some (c.toNat - '0'.toNat)
  else if 'a' ≤ c ∧ c ≤ 'f' then some (c.toNat - 'a'.toNat + 10)
  else if 'A' ≤ c ∧ c ≤ 'F' then some (c.toNat - 'A'.toNat + 10)
  else none

/-- A code point of `count` hexadecimal digits. -/
def hexEscape (count : Nat) : Reading Unit := do
  let start ← position
  let digits ← takeWhile (hexValue? · |>.isSome) count
  let value := digits.foldl (fun value c => value * 16 + (hexValue? c).getD 0) 0
  if digits.length ≠ count ∨ value > 0x10FFFF then failAt .invalidEscape start

def longestName : Nat := 88

/-- A character name in braces. -/
def nameEscape (names : Text.NameTable) : Reading Unit := do
  let start ← position
  if (← next) ≠ some '\x7b' then failAt .unfinishedString start
  let inside ← position
  let name ← through '\x7d' .unfinishedString
  if Text.byteLength name > longestName + 1 then fail .invalidEscape
  if !names name.dropLast then failAt .invalidEscape inside

/-- What follows a backslash, in a bytes literal or in a text. -/
def escape (names : Text.NameTable) (bytes : Bool) : Reading Unit := do
  match ← next with
  | none => fail .unfinishedString
  | some c =>
    if c = 'x' then hexEscape 2
    else if c = 'u' && !bytes then hexEscape 4
    else if c = 'U' && !bytes then hexEscape 8
    else if c = 'N' && !bytes then nameEscape names
    else if bytes && c.toNat > 0x7F then fail .nonAsciiBytes

end Reading

end PythonLint
