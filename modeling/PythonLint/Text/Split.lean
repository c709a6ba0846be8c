/-!
# Splitting lists

The pieces of a list between separators.
-/

namespace PythonLint.Text

/-- The pieces of a list between the elements that satisfy `p`, one more than there are such
elements. -/
def splitOn {α : Type} (p : α → Bool) : List α → List (List α)
  | [] => [[]]
  | x :: rest =>
    if p x then [] :: splitOn p rest
    else match splitOn p rest with
      | [] => [[x]]
      | first :: others => (x :: first) :: others

end PythonLint.Text
