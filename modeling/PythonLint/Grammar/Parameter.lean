import PythonLint.Grammar.Rules

/-!
# Parameters of a function

Parameters are read from left to right. A slash makes those before it positional, after a star they
take their arguments by name, and after a double star there are none.
-/

namespace PythonLint.Grammar

open Rule

/-- What has been read of a list of parameters. -/
structure ParamState where
  params : List Param
  /-- The parameters after this one take their arguments in this way. -/
  kind : ParamKind
  slash : Bool
  bareStar : Option Nat
  more : Bool

def typeHint (typed : Bool) (value : Rule Expr) : Rule (Option Expr) := do
  if typed then
    if ← acceptSymbol ":" then return some (← value)
  return none

def parameter (self : Rules) (typed : Bool) (kind : ParamKind) : Rule Param := do
  let start ← position
  let id ← identifier
  let type ← typeHint typed self.test
  if ← acceptSymbol "=" then return .mk kind start id type (some (← self.test))
  return .mk kind start id type none

def starParameter (typed : Bool) (kind : ParamKind) (type : Rule Expr) : Rule (List Param) := do
  match ← peek with
  | some (.name id) =>
    let start ← position
    skip
    return [.mk kind start id (← typeHint typed type) none]
  | _ => return []

/-- The next part of a list of parameters. A list ends before the token that closes it. -/
def parameterStep (self : Rules) (typed : Bool) (state : ParamState) :
    Rule (Option ParamState) := do
  if !state.more then return none
  let start ← position
  let proceed (state : ParamState) : Rule (Option ParamState) := do
    return some { state with more := ← acceptSymbol "," }
  match ← peek with
  | some (.name _) =>
    if state.kind = .keywords then return none
    let param ← parameter self typed state.kind
    proceed { state with params := state.params ++ [param] }
  | some (.symbol "/") =>
    if state.kind ≠ .positional || state.slash || state.params.isEmpty then return none
    skip
    proceed { state with params := state.params.map (·.withKind .positionalOnly), slash := true }
  | some (.symbol "*") =>
    if state.kind ≠ .positional then return none
    skip
    let param ← starParameter typed .variadic (testOrStarred self)
    let bareStar := if param.isEmpty then some start else none
    proceed { state with params := state.params ++ param, kind := .keywordOnly, bareStar }
  | some (.symbol "**") =>
    if state.kind = .keywords then return none
    skip
    let param ← starParameter typed .keywords self.test
    proceed { state with params := state.params ++ param, kind := .keywords }
  | _ => return none

/-- The first parameter without a default after one that has a default, among those that take
arguments by position. -/
def misplacedDefault? (params : List Param) : Option Param :=
  let positional := params.filter fun param =>
    param.kind == .positionalOnly || param.kind == .positional
  ((positional.dropWhile (!·.hasDefault)).dropWhile (·.hasDefault)).head?

def nameOrder (params : List Param) : List Param :=
  [ParamKind.positionalOnly, .positional, .keywordOnly, .variadic, .keywords].flatMap fun kind =>
    params.filter (·.kind == kind)

/-- The first parameter whose name is in `seen` or that of an earlier one. -/
def repeatedName? (seen : List String) : List Param → Option Param
  | [] => none
  | param :: rest =>
    if seen.contains param.id then some param else repeatedName? (param.id :: seen) rest

/-- Raises a fault when two parameters have the same name. -/
def checkNames (params : List Param) : Rule Unit := do
  if let some param := repeatedName? [] (nameOrder params) then
    fail (.repeatedParameter param.id) param.start

/-- Parameters up to the symbol that closes the list, which is read. -/
def parameters (self : Rules) (typed : Bool) (closing : String) : Rule (List Param) := do
  let state ← iterate (parameterStep self typed) ⟨[], .positional, false, none, true⟩
  unless ← nextSymbol closing do unexpected false
  if let some start := state.bareStar then
    unless state.kind = .keywords || state.params.any (·.kind == .keywordOnly) do
      fail .bareStar start
  if let some param := misplacedDefault? state.params then fail .defaultOrder param.start
  symbol closing
  return state.params

end PythonLint.Grammar
