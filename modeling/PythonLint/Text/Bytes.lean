/-!
# Texts measured in bytes

Positions in a source are counted in the bytes of its UTF-8 form. A position that does not fall
between two characters counts as lying at the end of the character it falls into.
-/

namespace PythonLint.Text

def byteLength : List Char → Nat
  | [] => 0
  | c :: rest => c.utf8Size + byteLength rest

def dropBytes : Nat → List Char → List Char
  | 0, text => text
  | _ + 1, [] => []
  | n + 1, c :: rest => dropBytes (n + 1 - c.utf8Size) rest

/-- The first `n` bytes of a text. -/
def takeBytes : Nat → List Char → List Char
  | 0, _ => []
  | _ + 1, [] => []
  | n + 1, c :: rest => c :: takeBytes (n + 1 - c.utf8Size) rest

/-- The text between positions `first` and `last`, empty when they are out of order. -/
def sliceBytes (text : List Char) (first last : Nat) : List Char :=
  takeBytes (last - first) (dropBytes first text)

end PythonLint.Text
