import PythonLint.Text.Quoted

/-!
# Versions of the language

The versions of Python that a source may be written for.
-/

namespace PythonLint

/-- The version of Python that a source is written for. -/
inductive Version where
  | python2
  | python3
deriving DecidableEq, Repr, Inhabited

namespace Version

def name : Version → String
  | python2 => "py2"
  | python3 => "py3"

def ofName? (text : String) : Option Version :=
  if text = "py2" ∨ text = "2" then some python2
  else if text = "py3" ∨ text = "3" then some python3
  else none

def unknownMessage (text : String) : String :=
  "unknown target version " ++ Text.quoted text ++ " (expected py2 or py3)"

end Version

end PythonLint
