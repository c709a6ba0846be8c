/-!
# TOML values

The values of a TOML document, and how a document is put together from its sections. A table may be
written in several places, and which of them may add to a table depends on how the table came to be.

## Design notes

A table with a header of its own may be named as part of a longer header before or after, but it has
one header only, and dotted keys add to tables that other dotted keys made. Nothing adds to an
inline table.
-/

namespace PythonLint.Toml

/-- How a table came to be. -/
inductive Origin where
  | header
  | implied
  | dotted
  | inline
deriving DecidableEq, Repr

/-- A TOML value. -/
inductive Value where
  | text (content : String)
  | integer (value : Int)
  | float
  | boolean (value : Bool)
  /-- A date, a time or both, in their normal form. -/
  | moment (content : String)
  | array (items : List Value)
  | table (origin : Origin) (entries : List (String × Value))
  /-- The tables that share a header in double brackets. -/
  | tables (items : List Value)

namespace Value

def emptyTable (origin : Origin) : Value := table origin []

def get? (name : String) : Value → Option Value
  | table _ entries => entries.lookup name
  | _ => none

def replace (name : String) (value : Value) : List (String × Value) → List (String × Value)
  | [] => [(name, value)]
  | (other, inner) :: rest =>
    if other = name then (name, value) :: rest else (other, inner) :: replace name value rest

/-- Changes a table that a path leads through. A dotted key does not lead through a table with a
header of its own, and where tables share a header the path leads through the last of them. -/
def through (dotted : Bool) (change : Value → Option Value) : Value → Option Value
  | table origin entries =>
    if origin = .inline ∨ dotted ∧ origin = .header then none else change (table origin entries)
  | tables items =>
    match items.getLast? with
    | none => none
    | some last => (change last).map fun changed => tables (items.dropLast ++ [changed])
  | _ => none

/-- Changes the table at the end of a path, making the tables on the way. -/
def update (dotted : Bool) (change : Origin → List (String × Value) → Option Value) :
    List String → Value → Option Value
  | [], table origin entries => change origin entries
  | name :: rest, table origin entries => do
    let inner := (entries.lookup name).getD (emptyTable (if dotted then .dotted else .implied))
    let changed ← through dotted (update dotted change rest) inner
    return table origin (replace name changed entries)
  | _, _ => none

def addNew (name : String) (value : Value) (origin : Origin) (entries : List (String × Value)) :
    Option Value :=
  if (entries.lookup name).isSome then none else some (table origin (entries ++ [(name, value)]))

end Value

/-- A key and its value; the key is the last of one or more names. -/
structure Assignment where
  path : List String
  name : String
  value : Value

def Value.insert (target : Value) (item : Assignment) : Option Value :=
  target.update true (fun origin entries =>
    if decide (origin = .dotted) = item.path.isEmpty then none
    else addNew item.name item.value origin entries) item.path

/-- A header in single or double brackets. -/
structure Header where
  path : List String
  name : String
  /-- The brackets are double, so that other tables may share the header. -/
  shared : Bool
deriving DecidableEq, Repr

/-- A header and the keys below it. -/
structure Section where
  header : Header
  items : List Assignment

namespace Value

def placeSection (part : Section) (origin : Origin) (entries : List (String × Value)) :
    Option Value := do
  let name := part.header.name
  let filled (start : List (String × Value)) := part.items.foldlM insert (table .header start)
  let placed ← match part.header.shared, entries.lookup name with
    | true, none => (filled []).map fun last => tables [last]
    | true, some (tables items) => (filled []).map fun last => tables (items ++ [last])
    | false, none => filled []
    | false, some (table .implied start) => filled start
    | _, _ => none
  return table origin (replace name placed entries)

def addSection (target : Value) (part : Section) : Option Value :=
  target.update false (placeSection part) part.header.path

/-- The table that a document stands for: the keys before the first header, then the sections. -/
def ofSections (items : List Assignment) (sections : List Section) : Option Value := do
  let start ← items.foldlM insert (emptyTable .header)
  sections.foldlM addSection start

end Value

end PythonLint.Toml
