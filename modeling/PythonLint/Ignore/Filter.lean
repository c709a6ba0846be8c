import PythonLint.Location

/-!
# Filters of ignore files

A filter names a kind or a category of warnings and may narrow it down by comparisons.
-/

namespace PythonLint.Ignore

/-- The comparison operators. -/
inductive Operator where
  | equal
  | less
  | greater
  | lessOrEqual
  | greaterOrEqual
deriving DecidableEq, Repr

namespace Operator

def all : List Operator := [equal, less, greater, lessOrEqual, greaterOrEqual]

def symbol : Operator → String
  | equal => "="
  | less => "<"
  | greater => ">"
  | lessOrEqual => "<="
  | greaterOrEqual => ">="

def name : Operator → String
  | equal => "equal"
  | less => "less than"
  | greater => "greater than"
  | lessOrEqual => "less or equal than"
  | greaterOrEqual => "greater or equal than"

def ofSymbol? (text : String) : Option Operator :=
  all.find? fun operator => operator.symbol == text

/-- The comparison holds when its left side compares to its right side in the given way. -/
def holds (operator : Operator) (ordering : Ordering) : Bool :=
  match operator with
  | equal => ordering == .eq
  | less => ordering == .lt
  | greater => ordering == .gt
  | lessOrEqual => ordering != .gt
  | greaterOrEqual => ordering != .lt

end Operator

/-- A value that an attribute is compared with. -/
inductive Value where
  | string (value : String)
  | integer (value : Nat)
deriving DecidableEq, Repr

namespace Value

def typeName : Value → String
  | string _ => "string"
  | integer _ => "integer"

end Value

/-- What stands on one side of a comparison. -/
inductive OperandKind where
  | name (id : String)
  | literal (value : Value)
deriving DecidableEq, Repr

/-- One side of a comparison. -/
structure Operand where
  kind : OperandKind
  start : Location
  stop : Location
deriving DecidableEq, Repr

/-- A comparison as it is written. -/
structure Expression where
  operator : Operator
  left : Operand
  right : Operand
  start : Location
  stop : Location
deriving DecidableEq, Repr

/-- What stands on the two sides of a comparison. -/
inductive Shape where
  /-- An attribute and a value; `nameOnLeft` says on which side the attribute stands. -/
  | comparison (id : String) (value : Value) (nameOnLeft : Bool)
  | bothNames
  | bothLiterals
deriving DecidableEq, Repr

namespace Expression

/-- What stands on the two sides of a comparison. -/
def shape (expression : Expression) : Shape :=
  match expression.left.kind, expression.right.kind with
  | .name id, .literal value => .comparison id value true
  | .literal value, .name id => .comparison id value false
  | .name _, .name _ => .bothNames
  | .literal _, .literal _ => .bothLiterals

end Expression

/-- A kind or a category of warnings by name, narrowed down by comparisons. -/
structure Filter where
  name : String
  /-- The comparisons, all of which have to hold. -/
  expressions : List Expression
  start : Location
  stop : Location
deriving DecidableEq, Repr

/-- The filters of an ignore file. -/
structure File where
  name : String
  filters : List Filter
deriving DecidableEq, Repr

end PythonLint.Ignore
