import PythonLint.Ignore.Filter
import PythonLint.Registry
import PythonLint.Text.Blank
import PythonLint.Text.Lines

/-!
# Checking filters

A filter has to name a kind or a category of warnings, and each of its comparisons an attribute of
those warnings together with a value of the same type. What is wrong is left out and reported.
-/

namespace PythonLint.Ignore

/-- What can be wrong with a filter or a comparison. -/
inductive Problem where
  | unknownFilter (name : String)
  | missingConstant (operator : Operator)
  | missingName (operator : Operator)
  | unknownAttribute (operator : Operator) (id filter : String)
  | wrongType (operator : Operator) (id typeName : String)
deriving DecidableEq, Repr

namespace Problem

def message : Problem → String
  | unknownFilter name => "Ignoring filter with unknown warning type \"" ++ name ++ "\"."
  | missingConstant operator =>
    "Ignoring " ++ operator.name ++ " expression with missing constant."
  | missingName operator => "Ignoring " ++ operator.name ++ " expression with missing name."
  | unknownAttribute operator id filter =>
    "Ignoring " ++ operator.name ++ " expression with \"" ++ id ++ "\". \"" ++ filter ++
      "\" doesn't have such an attribute to compare to."
  | wrongType operator id typeName =>
    "Ignoring " ++ operator.name ++ " expression. \"" ++ id ++ "\" is not of type " ++
      typeName ++ "."

end Problem

/-- A problem with its place in the ignore file. -/
structure Notice where
  problem : Problem
  file : String
  start : Location
  stop : Location
  lines : List String
deriving DecidableEq, Repr

namespace Notice

def message (notice : Notice) : String := notice.problem.message

def text (notice : Notice) : String :=
  notice.file ++ ":" ++ toString notice.start.line ++ ":" ++ toString notice.start.column ++ ": " ++
    notice.message

end Notice

/-! ### Comparisons -/

def accepts : AttributeType → Value → Bool
  | .string, .string _ => true
  | .integer, .integer _ => true
  | _, _ => false

/-- What is wrong with a comparison in a filter for the given target. -/
def expressionProblem? (target : Target) (expression : Expression) : Option Problem :=
  let operator := expression.operator
  match expression.shape with
  | .bothNames => some (.missingConstant operator)
  | .bothLiterals => some (.missingName operator)
  | .comparison id value _ =>
    match target.attribute? id with
    | none => some (.unknownAttribute operator id target.name)
    | some subject =>
      if accepts subject.type value then none
      else some (.wrongType operator id value.typeName)

/-! ### Filters -/

/-- The lines of a text from one line to another, without the carriage returns at their ends. -/
def contextLines (segments : List (List Char)) (first last : Nat) : List String :=
  (LineRange.mk (max first 1) last).toList.filterMap fun line =>
    (segments[line - 1]?).map fun text => String.ofList (Text.dropEndWhile (· == '\r') text)

/-- An ignore file and the pieces between its line feeds. -/
structure Context where
  file : String
  /-- The pieces between its line feeds. -/
  segments : List (List Char)

namespace Context

def notice (context : Context) (problem : Problem) (start stop : Location) : Notice :=
  ⟨problem, context.file, start, stop, contextLines context.segments start.line stop.line⟩

end Context

/-- The filter without the comparisons that cannot be used, unless its name stands for nothing, and
the notices about what is left out. -/
def checkFilter (context : Context) (filter : Filter) : Option Filter × List Notice :=
  match Target.ofName? filter.name with
  | none => (none, [context.notice (.unknownFilter filter.name) filter.start filter.stop])
  | some target =>
    (some { filter with
        expressions := filter.expressions.filter fun expression =>
          (expressionProblem? target expression).isNone },
      filter.expressions.filterMap fun expression =>
        (expressionProblem? target expression).map fun problem =>
          context.notice problem expression.start expression.stop)

/-- The filters that can be used, and the notices about what is left out. The source of the file is
used for the lines of the notices only. -/
def verify (file : File) (source : List Char) : List Filter × List Notice :=
  let context : Context := ⟨file.name, Text.segments source⟩
  let checked := file.filters.map (checkFilter context)
  (checked.filterMap Prod.fst, checked.flatMap Prod.snd)

end PythonLint.Ignore
