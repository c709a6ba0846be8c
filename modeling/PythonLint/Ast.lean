/-!
# Syntax trees of Python modules

Expressions, patterns and statements. Every expression and statement knows the byte position at
which it starts. Parentheses around an expression are not part of it. Children are kept in the order
in which they are written, parameters included.
-/

namespace PythonLint

/-- The operators with two operands. -/
inductive BinaryOp where
  | bitOr | bitXor | bitAnd | shiftLeft | shiftRight
  | add | subtract | multiply | divide | floorDivide | modulo | matrixMultiply | power
deriving DecidableEq, Repr

/-- How a parameter takes its arguments. -/
inductive ParamKind where
  | positionalOnly
  | positional
  | variadic
  | keywordOnly
  | keywords
deriving DecidableEq, Repr

/-- What a comprehension builds. -/
inductive ComprehensionKind where
  | list | set | dict | generator
deriving DecidableEq, Repr

mutual

/-- An expression; `start` is the position of its first byte. -/
inductive Expr where
  | name (start : Nat) (id : String)
  /-- A number, a constant or a string without fields. -/
  | literal (start : Nat)
  | formatted (start : Nat) (fields : List Field)
  | unary (start : Nat) (operand : Expr)
  | binary (start : Nat) (op : BinaryOp) (left right : Expr)
  | boolean (start : Nat) (operands : List Expr)
  | comparison (start : Nat) (left : Expr) (others : List Expr)
  | conditional (start : Nat) (value test otherwise : Expr)
  | lambda (start : Nat) (params : List Param) (body : Expr)
  | named (start : Nat) (target value : Expr)
  | await (start : Nat) (operand : Expr)
  | yield (start : Nat) (value : Option Expr)
  | yieldFrom (start : Nat) (value : Expr)
  | starred (start : Nat) (value : Expr)
  | call (start : Nat) (callee : Expr) (args : List Expr) (keywords : List KeywordArg)
  | member (start : Nat) (object : Expr) (id : String)
  | subscript (start : Nat) (object index : Expr)
  | slice (start : Nat) (lower upper step : Option Expr)
  | tuple (start : Nat) (elements : List Expr)
  | listDisplay (start : Nat) (elements : List Expr)
  | setDisplay (start : Nat) (elements : List Expr)
  | dictDisplay (start : Nat) (entries : List Entry)
  /-- A comprehension; the elements of one that builds a dictionary are a key and a value. -/
  | comprehension (start : Nat) (kind : ComprehensionKind) (elements : List Expr)
      (clauses : List Clause)

/-- A field of a format string: its expression, and the fields of its format specification. -/
inductive Field where
  | mk (value : Expr) (spec : List Field)

/-- A parameter of a function; `start` is the position of its name. -/
inductive Param where
  | mk (kind : ParamKind) (start : Nat) (id : String) (type byDefault : Option Expr)

/-- A keyword argument, or a mapping that is unpacked. -/
inductive KeywordArg where
  | mk (id : Option String) (value : Expr)

/-- An entry of a dictionary display. -/
inductive Entry where
  | pair (key value : Expr)
  | unpack (value : Expr)

/-- A `for` clause of a comprehension with its conditions. -/
inductive Clause where
  | mk (target source : Expr) (conditions : List Expr)

end

namespace Expr

/-- The position of the first byte of an expression. -/
def start : Expr → Nat
  | name start _ | literal start | formatted start _ | unary start _ | binary start _ _ _
  | boolean start _ | comparison start _ _ | conditional start _ _ _ | lambda start _ _
  | named start _ _ | await start _ | yield start _ | yieldFrom start _ | starred start _
  | call start _ _ _ | member start _ _ | subscript start _ _ | slice start _ _ _
  | tuple start _ | listDisplay start _ | setDisplay start _ | dictDisplay start _
  | comprehension start _ _ _ => start

def isStarred : Expr → Bool
  | starred _ _ => true
  | _ => false

end Expr

namespace Param

def kind : Param → ParamKind
  | mk kind _ _ _ _ => kind

def start : Param → Nat
  | mk _ start _ _ _ => start

def id : Param → String
  | mk _ _ id _ _ => id

def hasDefault : Param → Bool
  | mk _ _ _ _ byDefault => byDefault.isSome

/-- The parameter taking its arguments in another way. -/
def withKind (kind : ParamKind) : Param → Param
  | mk _ start id type byDefault => mk kind start id type byDefault

end Param

/-- A pattern of a `case` block. -/
inductive Pattern where
  /-- A constant, a string or a dotted name. -/
  | value (value : Expr)
  | singleton
  | capture (id : String)
  | star (id : String)
  | sequence (patterns : List Pattern)
  | mapping (keys : List Expr) (patterns : List Pattern) (rest : Option String)
  | classPattern (callee : Expr) (patterns : List Pattern) (names : List String)
      (named : List Pattern)
  | binding (pattern : Pattern) (id : String)
  | alternatives (patterns : List Pattern)

/-- A type parameter with its bound. -/
structure TypeParam where
  id : String
  bound : Option Expr

/-- A name that is imported, and the name it is given. -/
structure Alias where
  id : String
  asName : Option String
deriving DecidableEq, Repr

/-- A context manager and what it is bound to. -/
structure WithItem where
  context : Expr
  target : Option Expr

mutual

/-- A statement; `start` is the position of its first byte, after any decorators. -/
inductive Stmt where
  | function (start : Nat) (decorators : List Expr) (id : String) (typeParams : List TypeParam)
      (params : List Param) (returns : Option Expr) (body : List Stmt)
  | classDef (start : Nat) (decorators : List Expr) (id : String) (typeParams : List TypeParam)
      (bases : List Expr) (keywords : List KeywordArg) (body : List Stmt)
  | ret (start : Nat) (value : Option Expr)
  | delete (start : Nat) (targets : List Expr)
  | assign (start : Nat) (targets : List Expr) (value : Expr)
  | augmented (start : Nat) (target value : Expr)
  | annotated (start : Nat) (target type : Expr) (value : Option Expr)
  | typeAlias (start : Nat) (id : String) (typeParams : List TypeParam) (value : Expr)
  | forLoop (start : Nat) (target source : Expr) (body orelse : List Stmt)
  | whileLoop (start : Nat) (test : Expr) (body orelse : List Stmt)
  | branch (start : Nat) (test : Expr) (body orelse : List Stmt)
  | withBlock (start : Nat) (items : List WithItem) (body : List Stmt)
  | matchBlock (start : Nat) (subject : Expr) (cases : List MatchCase)
  | raise (start : Nat) (exception cause : Option Expr)
  | tryBlock (start : Nat) (body : List Stmt) (handlers : List Handler) (orelse finish : List Stmt)
  | assertion (start : Nat) (test : Expr) (message : Option Expr)
  | importNames (start : Nat) (names : List Alias)
  /-- Names from a module, before the name of which `level` dots stand. -/
  | importFrom (start level : Nat) (source : Option String) (names : List Alias)
  | global (start : Nat) (names : List String)
  | nonlocal (start : Nat) (names : List String)
  | expression (start : Nat) (value : Expr)
  | pass (start : Nat)
  | breakLoop (start : Nat)
  | continueLoop (start : Nat)

/-- An `except` block with the exceptions it takes; without any it takes all. -/
inductive Handler where
  | mk (start : Nat) (type : Option Expr) (body : List Stmt)

/-- A `case` block. -/
inductive MatchCase where
  | mk (pattern : Pattern) (guard : Option Expr) (body : List Stmt)

end

end PythonLint
