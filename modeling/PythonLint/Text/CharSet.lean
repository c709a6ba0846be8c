/-!
# Sets of characters

A set of characters is a list of runs of code points, which is how the properties of the Unicode
standard are tabulated: the first run lies outside the set, the second inside, and so on by turns.
Membership counts a code point down while it walks the runs.
-/

namespace PythonLint.Text

/-- A set of code points, as the lengths of runs that lie outside and inside by turns. -/
structure CharSet where
  runs : List Nat

namespace CharSet

/-- Whether the code point that comes after `n` others lies in the set, where `inside` says that the
first run does. -/
def covers (inside : Bool) (n : Nat) : List Nat → Bool
  | [] => false
  | run :: rest => if n < run then inside else covers (!inside) (n - run) rest

def contains (set : CharSet) (c : Char) : Bool :=
  covers false c.toNat set.runs

end CharSet

end PythonLint.Text
