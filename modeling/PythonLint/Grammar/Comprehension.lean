import PythonLint.Grammar.Rules

/-!
# Comprehensions

The clauses after the element of a comprehension or a generator.
-/

namespace PythonLint.Grammar

open Rule

/-- One `for` clause with its conditions. -/
def clause (self : Rules) : Rule Clause := do
  let _ ← acceptKeyword "async"
  keyword "for"
  let target ← targets self
  keyword "in"
  let source ← self.disjunction
  let conditions ← many (nextKeyword "if") (do keyword "if"; self.disjunction)
  return .mk target source conditions

def clauses (self : Rules) : Rule (List Clause) := do
  return (← clause self) :: (← many (nextIs startsClause) (clause self))

end PythonLint.Grammar
