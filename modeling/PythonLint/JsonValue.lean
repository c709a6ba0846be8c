import PythonLint.Text.Quoted

/-!
# JSON texts

Values without fractions, null and truth values, and the two ways in which they are written: on one
line, or with two blanks for each level.
-/

namespace PythonLint

/-- A value of a JSON text. The fields of an object stand in the order in which they are written. -/
inductive JsonValue where
  | number (value : Int)
  | text (value : String)
  | list (items : List JsonValue)
  | object (fields : List (String × JsonValue))

/-- How a character is written between double quotes. -/
def jsonChar (c : Char) : List Char :=
  match c with
  | '"' => ['\\', '"']
  | '\\' => ['\\', '\\']
  | '\x08' => ['\\', 'b']
  | '\x0c' => ['\\', 'f']
  | '\n' => ['\\', 'n']
  | '\r' => ['\\', 'r']
  | '\t' => ['\\', 't']
  | c =>
    if c.toNat < 0x20 then
      "\\u00".toList ++ [Nat.digitChar (c.toNat / 16), Nat.digitChar (c.toNat % 16)]
    else [c]

def jsonText (text : String) : List Char :=
  '"' :: text.toList.flatMap jsonChar ++ ['"']

def separated (separator : List Char) : List (List Char) → List Char
  | [] => []
  | [text] => text
  | text :: rest => text ++ separator ++ separated separator rest

namespace JsonValue

mutual

def compact : JsonValue → List Char
  | number value => (toString value).toList
  | text value => jsonText value
  | list items => '[' :: separated [','] (compactItems items) ++ [']']
  | object fields => '\x7b' :: separated [','] (compactFields fields) ++ ['\x7d']

def compactItems : List JsonValue → List (List Char)
  | [] => []
  | item :: rest => item.compact :: compactItems rest

def compactFields : List (String × JsonValue) → List (List Char)
  | [] => []
  | field :: rest => compactField field :: compactFields rest

def compactField : String × JsonValue → List Char
  | (key, value) => jsonText key ++ ':' :: value.compact

end

def lineStart (level : Nat) : List Char :=
  '\n' :: List.replicate (2 * level) ' '

/-- Parts between brackets, each on a line of its own at a level. -/
def bracketed (level : Nat) (opening closing : Char) (parts : List (List Char)) : List Char :=
  if parts.isEmpty then [opening, closing]
  else opening :: lineStart (level + 1) ++ separated (',' :: lineStart (level + 1)) parts ++
    lineStart level ++ [closing]

mutual

/-- A value on several lines, the first of which stands at a level. -/
def prettyAt (level : Nat) : JsonValue → List Char
  | number value => (toString value).toList
  | text value => jsonText value
  | list items => bracketed level '[' ']' (prettyItems (level + 1) items)
  | object fields => bracketed level '\x7b' '\x7d' (prettyFields (level + 1) fields)

def prettyItems (level : Nat) : List JsonValue → List (List Char)
  | [] => []
  | item :: rest => item.prettyAt level :: prettyItems level rest

def prettyFields (level : Nat) : List (String × JsonValue) → List (List Char)
  | [] => []
  | field :: rest => prettyField level field :: prettyFields level rest

def prettyField (level : Nat) : String × JsonValue → List Char
  | (key, value) => jsonText key ++ ':' :: ' ' :: value.prettyAt level

end

def pretty (value : JsonValue) : String :=
  String.ofList (value.prettyAt 0)

end JsonValue

end PythonLint
