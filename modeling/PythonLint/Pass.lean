import PythonLint.Text.Quoted

/-!
# Passes

The passes over a source, each with its own view of it: lines, tokens, the bracket tree, and the
syntax tree.
-/

namespace PythonLint

/-- One pass over a source. -/
inductive Pass where
  | line
  | token
  | tree
  | ast
deriving DecidableEq, Repr

namespace Pass

def all : List Pass := [line, token, tree, ast]

def name : Pass → String
  | line => "line"
  | token => "token"
  | tree => "cst"
  | ast => "ast"

def lowerCase (text : String) : String :=
  String.ofList (text.toList.map Char.toLower)

/-- The pass that a name stands for, in any case of letters. -/
def ofName? (text : String) : Option Pass :=
  all.find? fun pass => pass.name == lowerCase text

def unknownMessage (text : String) : String :=
  "unknown analyser " ++ Text.quoted text ++ " (expected line, token, cst or ast)"

end Pass

end PythonLint
