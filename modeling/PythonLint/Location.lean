/-!
# Locations in a source file

A location is a line, counted from one, and a column, counted from zero in characters. Locations are
ordered by line and then by column. A line range is a block of consecutive lines.
-/

namespace PythonLint

/-- A position in a source file. -/
structure Location where
  /-- The line, counted from one. -/
  line : Nat
  /-- The column, counted from zero in characters. -/
  column : Nat
deriving DecidableEq, Repr, Inhabited

namespace Location

/-- The first location lies before the second, on an earlier line or further left. -/
def Before (a b : Location) : Prop :=
  a.line < b.line ∨ a.line = b.line ∧ a.column < b.column

instance : LT Location := ⟨Before⟩

instance : LE Location := ⟨fun a b => a < b ∨ a = b⟩

instance (a b : Location) : Decidable (a < b) :=
  inferInstanceAs (Decidable (_ ∨ _))

instance (a b : Location) : Decidable (a ≤ b) :=
  inferInstanceAs (Decidable (_ ∨ _))

def text (a : Location) : String :=
  "line " ++ toString a.line ++ ", column " ++ toString a.column

end Location

/-- A block of consecutive lines, both ends included. -/
structure LineRange where
  /-- The first line, counted from one. -/
  first : Nat
  last : Nat
deriving DecidableEq, Repr, Inhabited

namespace LineRange

def toList (range : LineRange) : List Nat :=
  List.range' range.first (range.last + 1 - range.first)

instance : Membership Nat LineRange := ⟨fun range line => range.first ≤ line ∧ line ≤ range.last⟩

instance (range : LineRange) (line : Nat) : Decidable (line ∈ range) :=
  inferInstanceAs (Decidable (_ ∧ _))

end LineRange

end PythonLint
