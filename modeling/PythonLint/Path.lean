import PythonLint.Text.Split

/-!
# Paths

A path is a text of names with slashes between them. Repeated slashes and single dots inside a path
mean nothing, but the text of a path is kept as it was given.
-/

namespace PythonLint

/-- A path as it was given. -/
structure Path where
  text : List Char
deriving DecidableEq, Repr

namespace Path

def ofString (text : String) : Path := ⟨text.toList⟩

def shown (path : Path) : String := String.ofList path.text

def isAbsolute (path : Path) : Bool :=
  path.text.head? == some '/'

def pieces (text : List Char) : List (List Char) :=
  Text.splitOn (· == '/') text

/-- The names among pieces, each with the position where it ends; `here` is where the first piece
starts, and a dot counts only at the start of a path. -/
def componentsFrom (here : Nat) : List (List Char) → List (List Char × Nat)
  | [] => []
  | piece :: rest =>
    let stop := here + piece.length
    let others := componentsFrom (stop + 1) rest
    if piece = [] ∨ piece = ['.'] ∧ here ≠ 0 then others else (piece, stop) :: others

/-- The names of a path, each with the position where it ends. -/
def components (path : Path) : List (List Char × Nat) :=
  componentsFrom 0 (pieces path.text)

def names (path : Path) : List (List Char) :=
  (if path.isAbsolute then [['/']] else []) ++ path.components.map Prod.fst

def parent? (path : Path) : Option Path :=
  match path.components.reverse with
  | [] => none
  | [_] => some ⟨if path.isAbsolute then ['/'] else []⟩
  | _ :: (_, stop) :: _ => some ⟨path.text.take stop⟩

def ancestors (path : Path) : List Path :=
  let above := path.components.reverse.tail.map fun (_, stop) => Path.mk (path.text.take stop)
  let top := if path.components.isEmpty then []
    else [Path.mk (if path.isAbsolute then ['/'] else [])]
  path :: above ++ top

def join (path : Path) (name : String) : Path :=
  if path.text.isEmpty || path.text.getLast? == some '/' then ⟨path.text ++ name.toList⟩
  else ⟨path.text ++ '/' :: name.toList⟩

/-- The last name of a path, unless it leads upward. -/
def fileName? (path : Path) : Option (List Char) :=
  match path.components.getLast? with
  | none => none
  | some (name, _) => if name = ['.'] ∨ name = ['.', '.'] then none else some name

/-- The part of a name after its last dot, which may not be its first character. -/
def extensionOf? (name : List Char) : Option (List Char) :=
  let after := name.reverse.takeWhile (· ≠ '.')
  if name.length ≤ after.length + 1 then none else some after.reverse

def extension? (path : Path) : Option (List Char) :=
  path.fileName?.bind extensionOf?

end Path

end PythonLint
