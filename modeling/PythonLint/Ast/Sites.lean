import PythonLint.Ast

/-!
# What the checks look at

The checks on a syntax tree look at a few kinds of statements and at operators. These sites are
listed in the order of the source, each before what it holds.

Format specifications, patterns, type parameters and the values of type aliases are not looked at.
-/

namespace PythonLint

/-- A statement or an operator that checks look at. -/
inductive Site where
  | importNames (start : Nat) (names : List Alias)
  | importFrom (start : Nat) (source : Option String) (names : List Alias)
  | tryBlock (handlers : List Handler)
  | global (start : Nat)
  | pass (start : Nat)
  | binary (start : Nat) (op : BinaryOp)

mutual

def Expr.sites : Expr → List Site
  | .name _ _ => []
  | .literal _ => []
  | .formatted _ fields => fieldSites fields
  | .unary _ operand => operand.sites
  | .binary start op left right => .binary start op :: (left.sites ++ right.sites)
  | .boolean _ operands => exprSites operands
  | .comparison _ left others => left.sites ++ exprSites others
  | .conditional _ value test otherwise => value.sites ++ test.sites ++ otherwise.sites
  | .lambda _ params body => paramSites params ++ body.sites
  | .named _ target value => target.sites ++ value.sites
  | .await _ operand => operand.sites
  | .yield _ value => optionSites value
  | .yieldFrom _ value => value.sites
  | .starred _ value => value.sites
  | .call _ callee args keywords => callee.sites ++ exprSites args ++ keywordSites keywords
  | .member _ object _ => object.sites
  | .subscript _ object index => object.sites ++ index.sites
  | .slice _ lower upper step => optionSites lower ++ optionSites upper ++ optionSites step
  | .tuple _ elements => exprSites elements
  | .listDisplay _ elements => exprSites elements
  | .setDisplay _ elements => exprSites elements
  | .dictDisplay _ entries => entrySites entries
  | .comprehension _ _ elements clauses => exprSites elements ++ clauseSites clauses

def optionSites : Option Expr → List Site
  | none => []
  | some expr => expr.sites

def exprSites : List Expr → List Site
  | [] => []
  | expr :: rest => expr.sites ++ exprSites rest

def fieldSites : List Field → List Site
  | [] => []
  | .mk value _ :: rest => value.sites ++ fieldSites rest

/-- The sites of parameters, each type before its default. -/
def paramSites : List Param → List Site
  | [] => []
  | .mk _ _ _ type byDefault :: rest => optionSites type ++ optionSites byDefault ++ paramSites rest

def keywordSites : List KeywordArg → List Site
  | [] => []
  | .mk _ value :: rest => value.sites ++ keywordSites rest

def entrySites : List Entry → List Site
  | [] => []
  | .pair key value :: rest => key.sites ++ value.sites ++ entrySites rest
  | .unpack value :: rest => value.sites ++ entrySites rest

def clauseSites : List Clause → List Site
  | [] => []
  | .mk target source conditions :: rest =>
    target.sites ++ source.sites ++ exprSites conditions ++ clauseSites rest

end

def itemSites (items : List WithItem) : List Site :=
  items.flatMap fun item => item.context.sites ++ optionSites item.target

mutual

def Stmt.sites : Stmt → List Site
  | .function _ decorators _ _ params returns body =>
    exprSites decorators ++ paramSites params ++ optionSites returns ++ sitesOf body
  | .classDef _ decorators _ _ bases keywords body =>
    exprSites decorators ++ exprSites bases ++ keywordSites keywords ++ sitesOf body
  | .ret _ value => optionSites value
  | .delete _ targets => exprSites targets
  | .assign _ targets value => exprSites targets ++ value.sites
  | .augmented _ target value => target.sites ++ value.sites
  | .annotated _ target type value => target.sites ++ type.sites ++ optionSites value
  | .typeAlias _ _ _ _ => []
  | .forLoop _ target source body orelse =>
    target.sites ++ source.sites ++ sitesOf body ++ sitesOf orelse
  | .whileLoop _ test body orelse => test.sites ++ sitesOf body ++ sitesOf orelse
  | .branch _ test body orelse => test.sites ++ sitesOf body ++ sitesOf orelse
  | .withBlock _ items body => itemSites items ++ sitesOf body
  | .matchBlock _ subject cases => subject.sites ++ caseSites cases
  | .raise _ exception cause => optionSites exception ++ optionSites cause
  | .tryBlock _ body handlers orelse finish =>
    .tryBlock handlers ::
      (sitesOf body ++ handlerSites handlers ++ sitesOf orelse ++ sitesOf finish)
  | .assertion _ test message => test.sites ++ optionSites message
  | .importNames start names => [.importNames start names]
  | .importFrom start _ source names => [.importFrom start source names]
  | .global start _ => [.global start]
  | .nonlocal _ _ => []
  | .expression _ value => value.sites
  | .pass start => [.pass start]
  | .breakLoop _ => []
  | .continueLoop _ => []

def sitesOf : List Stmt → List Site
  | [] => []
  | stmt :: rest => stmt.sites ++ sitesOf rest

/-- The sites of `except` blocks. -/
def handlerSites : List Handler → List Site
  | [] => []
  | .mk _ type body :: rest => optionSites type ++ sitesOf body ++ handlerSites rest

/-- The sites of `case` blocks. -/
def caseSites : List MatchCase → List Site
  | [] => []
  | .mk _ guard body :: rest => optionSites guard ++ sitesOf body ++ caseSites rest

end

end PythonLint
