import PythonLint.Ignore.Parser
import PythonLint.Ignore.Verify

/-!
# Suppressing warnings

Filters that can be used become conditions on warnings. A warning is suppressed when some filter
covers its kind and all comparisons of that filter hold.
-/

namespace PythonLint.Ignore

/-- A comparison of an attribute of a warning with a value. -/
structure Condition where
  subject : Attribute
  operator : Operator
  value : Value
  nameOnLeft : Bool
deriving DecidableEq, Repr

namespace Condition

/-- How the value of an attribute compares to a value of the same type. -/
def compare? : AttributeValue → Value → Option Ordering
  | .string a, .string b => some (compare a b)
  | .integer a, .integer b => some (compare a b)
  | _, _ => none

def holds (condition : Condition) (warning : Warning) : Bool :=
  match compare? (warning.value condition.subject) condition.value with
  | none => false
  | some ordering =>
    condition.operator.holds (if condition.nameOnLeft then ordering else ordering.swap)

/-- The condition that a comparison expresses in a filter for the given target. -/
def ofExpression? (target : Target) (expression : Expression) : Option Condition :=
  match expression.shape with
  | .comparison id value nameOnLeft =>
    (target.attribute? id).map fun subject => ⟨subject, expression.operator, value, nameOnLeft⟩
  | _ => none

end Condition

/-- A target with the conditions under which its warnings are suppressed. -/
structure Suppressor where
  target : Target
  /-- The conditions, all of which have to hold. -/
  conditions : List Condition
deriving DecidableEq, Repr

namespace Suppressor

def suppresses (suppressor : Suppressor) (warning : Warning) : Bool :=
  suppressor.target.covers warning.kind &&
    suppressor.conditions.all fun condition => condition.holds warning

/-- The suppressor of a filter, unless one of its comparisons expresses no condition. -/
def ofFilter? (filter : Filter) : Option Suppressor := do
  let target ← Target.ofName? filter.name
  let conditions ← filter.expressions.mapM (Condition.ofExpression? target)
  return ⟨target, conditions⟩

end Suppressor

/-- What an ignore file suppresses. -/
structure IgnoreFilter where
  suppressors : List Suppressor
deriving DecidableEq, Repr

namespace IgnoreFilter

def allowAll : IgnoreFilter := ⟨[]⟩

/-- The suppressors of filters. A filter that has none is left out. -/
def compile (filters : List Filter) : IgnoreFilter :=
  ⟨filters.filterMap Suppressor.ofFilter?⟩

def size (filter : IgnoreFilter) : Nat := filter.suppressors.length

def suppresses (filter : IgnoreFilter) (warning : Warning) : Bool :=
  filter.suppressors.any fun suppressor => suppressor.suppresses warning

def emits (filter : IgnoreFilter) (warning : Warning) : Bool :=
  !filter.suppresses warning

def summary (filter : IgnoreFilter) : String :=
  "IgnoreFilter \x7b filters: " ++ toString filter.size ++ " \x7d"

end IgnoreFilter

/-- What an ignore file with the given text suppresses, and the notices about it. -/
def loadIgnore (name : String) (source : List Char) :
    Except IgnoreError (IgnoreFilter × List Notice) :=
  (parse source).map fun filters =>
    let (usable, notices) := verify ⟨name, filters⟩ source
    (.compile usable, notices)

end PythonLint.Ignore
