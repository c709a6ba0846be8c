import PythonLint.Warning

/-!
# Names for groups of warnings

Every kind of warning and every category has a name, under which it is known together with the
attributes that its warnings can be asked for.
-/

namespace PythonLint

/-- What a warning can be asked for. -/
inductive Attribute where
  | message
  | file
  | line
  | start
  | stop
deriving DecidableEq, Repr

namespace Attribute

def name : Attribute → String
  | message => "message"
  | file => "file"
  | line => "lineno"
  | start => "start"
  | stop => "end"

end Attribute

/-- The type of the value of an attribute. -/
inductive AttributeType where
  | string
  | integer
  | location
deriving DecidableEq, Repr

namespace AttributeType

def name : AttributeType → String
  | string => "string"
  | integer => "integer"
  | location => "location"

end AttributeType

namespace Attribute

def type : Attribute → AttributeType
  | message => .string
  | file => .string
  | line => .integer
  | start => .location
  | stop => .location

end Attribute

/-- The value of an attribute. -/
inductive AttributeValue where
  | string (value : String)
  | integer (value : Nat)
  | location (value : Location)
deriving DecidableEq, Repr

namespace Warning

def value (warning : Warning) : Attribute → AttributeValue
  | .message => .string warning.message
  | .file => .string warning.file
  | .line => .integer warning.line
  | .start => .location warning.start
  | .stop => .location warning.stop

end Warning

def lineAttributes : List Attribute := [.message, .file, .line]

/-- The attributes of a warning about a part of a line or several lines. -/
def spanAttributes : List Attribute := lineAttributes ++ [.start, .stop]

def WarningKind.attributes (kind : WarningKind) : List Attribute :=
  if kind.pass = .line then lineAttributes else spanAttributes

/-- A kind or a category. -/
inductive Target where
  | ofKind (kind : WarningKind)
  | ofCategory (category : Category)
deriving DecidableEq, Repr

namespace Target

def name : Target → String
  | ofKind kind => kind.name
  | ofCategory category => category.name

def covers (target : Target) (other : WarningKind) : Bool :=
  match target with
  | ofKind kind => other == kind
  | ofCategory category => other.categories.contains category

def attributes : Target → List Attribute
  | ofKind kind => kind.attributes
  | ofCategory _ => lineAttributes

def attribute? (target : Target) (name : String) : Option Attribute :=
  target.attributes.find? (·.name == name)

def all : List Target :=
  WarningKind.all.map ofKind ++ Category.all.map ofCategory

def ofName? (name : String) : Option Target :=
  all.find? fun target => target.name == name

def names : List String :=
  (all.map name).mergeSort fun a b => decide (a ≤ b)

end Target

end PythonLint
