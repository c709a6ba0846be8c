import PythonLint.Grammar.Comprehension

/-!
# Arguments of a call

The arguments are read first and sorted afterwards, once the closing parenthesis comes next.
-/

namespace PythonLint.Grammar

open Rule

/-- An argument as it is written. -/
inductive Argument where
  | positional (value : Expr)
  | keyword (start : Nat) (id : Option String) (value : Expr)

def argument (self : Rules) : Rule Argument := do
  let start ← position
  if ← acceptSymbol "*" then return .positional (.starred start (← self.test))
  if ← acceptSymbol "**" then return .keyword start none (← self.test)
  if ← nextNameThen "=" then
    let id ← identifier
    symbol "="
    return .keyword start (some id) (← self.test)
  let value ← namedTest self
  if ← nextIs startsClause then
    return .positional (.comprehension start .generator [value] (← clauses self))
  return .positional value

abbrev Arguments := List Expr × List KeywordArg

/-- The arguments by position and by name, given those before. A keyword may not be repeated, a
positional argument may not follow a keyword, and an unpacked iterable may not follow an unpacked
mapping. -/
def sortArguments (args : List Expr) (keywords : List KeywordArg) :
    List Argument → Except Misplaced Arguments
  | [] => .ok (args, keywords)
  | .keyword start (some id) value :: rest =>
    if keywords.any fun | .mk other _ => other == some id then .error ⟨.repeatedKeyword id, start⟩
    else sortArguments args (keywords ++ [.mk (some id) value]) rest
  | .keyword _ none value :: rest => sortArguments args (keywords ++ [.mk none value]) rest
  | .positional value :: rest =>
    if !keywords.isEmpty && !value.isStarred then .error ⟨.positionalAfterKeyword, value.start⟩
    else if keywords.any fun | .mk other _ => other.isNone then
      .error ⟨.unpackingAfterMapping, value.start⟩
    else sortArguments (args ++ [value]) keywords rest

def startsArgument (tok : Tok) : Bool :=
  startsItem tok || tok == .symbol "**"

/-- Arguments up to the closing parenthesis, which is read. -/
def arguments (self : Rules) : Rule Arguments := do
  let written ← if ← nextIs startsArgument then
      Prod.fst <$> items startsArgument (argument self)
    else pure []
  unless ← nextSymbol ")" do unexpected false
  let sorted ← sortArguments [] [] written
  symbol ")"
  return sorted

end PythonLint.Grammar
