import PythonLint.Text.Blank
import PythonLint.Text.Lines
import PythonLint.Token

/-!
# Logical lines

Every physical line belongs to one logical line: the statement that covers it, or, when no statement
does, a logical line of its own.
-/

namespace PythonLint

/-- A block of physical lines with its text. -/
structure LogicalLine where
  range : LineRange
  text : String
deriving DecidableEq, Repr

/-- The lines of a source, without the blanks at their ends. -/
def physicalLines (text : List Char) : List String :=
  (Text.lines text).map fun line => String.ofList (Text.trimEnd line)

/-- The statements that tokens belong to, after the lines up to `covered`. A token starts a
statement when its logical line begins after all lines that are covered already; `count` is the
number of physical lines. -/
def statementsFrom (count covered : Nat) : List Token → List LogicalLine
  | [] => []
  | token :: rest =>
    if covered < token.range.first ∧ token.range.first ≤ count then
      ⟨⟨token.range.first, min token.range.last count⟩, token.logicalLine⟩ ::
        statementsFrom count token.range.last rest
    else statementsFrom count covered rest

/-! ### Slots

A table has a slot for every physical line. Statements enter their places in the slots of their
lines, and each line whose slot stays empty becomes a logical line of its own, after the statements.
-/

/-- Enters a place in the slots of the lines of a range. -/
def enterRange (index : Nat) (range : LineRange) (slots : List (Option Nat)) : List (Option Nat) :=
  slots.mapIdx fun n slot => if n + 1 ∈ range then some index else slot

/-- Enters statements one after the other, the first of which has the place `index`. -/
def enterStatements (index : Nat) (slots : List (Option Nat)) :
    List LogicalLine → List (Option Nat)
  | [] => slots
  | logical :: rest => enterStatements (index + 1) (enterRange index logical.range slots) rest

/-- The lines with an empty slot as logical lines, where the first line is `line` and the first of
them gets the place `next`, and the slots with their places. -/
def fillSlots (next line : Nat) : List (String × Option Nat) → List LogicalLine × List Nat
  | [] => ([], [])
  | (_, some index) :: rest =>
    let filled := fillSlots next (line + 1) rest
    (filled.1, index :: filled.2)
  | (text, none) :: rest =>
    let filled := fillSlots (next + 1) (line + 1) rest
    (⟨⟨line, line⟩, text⟩ :: filled.1, next :: filled.2)

section Slots

variable {n index next line : Nat} {slot : Option Nat} {slots : List (Option Nat)} {text : String}
  {rows : List (String × Option Nat)} {statements : List LogicalLine}

theorem length_enterStatements :
    (enterStatements index slots statements).length = slots.length := by
  induction statements generalizing index slots with
  | nil => rfl
  | cons logical rest ih => rw [enterStatements, ih, enterRange, List.length_mapIdx]

/-- A slot keeps what it has, or has the place of a statement that covers its line. -/
theorem getElem?_enterStatements (h : (enterStatements index slots statements)[n]? = some slot) :
    (slots[n]? = some slot ∧ ∀ logical ∈ statements, n + 1 ∉ logical.range) ∨
      ∃ k logical, slot = some (index + k) ∧ statements[k]? = some logical ∧
        n + 1 ∈ logical.range := by
  induction statements generalizing index slots with
  | nil => exact .inl ⟨h, fun _ hmem => absurd hmem List.not_mem_nil⟩
  | cons logical rest ih =>
    rcases ih h with ⟨hslot, hrest⟩ | ⟨k, other, rfl, hother, hin⟩
    · rw [enterRange, List.getElem?_mapIdx, Option.map_eq_some_iff] at hslot
      obtain ⟨old, hold, rfl⟩ := hslot
      by_cases hin : n + 1 ∈ logical.range
      · exact .inr ⟨0, logical, if_pos hin, rfl, hin⟩
      · rw [if_neg hin]
        exact .inl ⟨hold, List.forall_mem_cons.2 ⟨hin, hrest⟩⟩
    · exact .inr ⟨k + 1, other, by rw [Nat.add_right_comm, Nat.add_assoc], hother, hin⟩

theorem length_fillSlots : (fillSlots next line rows).2.length = rows.length := by
  fun_induction fillSlots next line rows with
  | case1 => rfl
  | case2 next line text index rest filled ih => rw [List.length_cons, ih, List.length_cons]
  | case3 next line text rest filled ih => rw [List.length_cons, ih, List.length_cons]

/-- A slot that has a place keeps it, and another one gets that of its line alone. -/
theorem getElem?_fillSlots (h : rows[n]? = some (text, slot)) :
    ∃ index, (fillSlots next line rows).2[n]? = some index ∧
      (slot = some index ∨ slot = none ∧ ∃ k, index = next + k ∧
        (fillSlots next line rows).1[k]? = some ⟨⟨line + n, line + n⟩, text⟩) := by
  induction rows generalizing n next line with
  | nil => cases h
  | cons row rest ih =>
    obtain ⟨other, old | index⟩ := row
    · cases n with
      | zero =>
        cases h
        exact ⟨next, rfl, .inr ⟨rfl, 0, rfl, rfl⟩⟩
      | succ n =>
        obtain ⟨found, hfound, hslot⟩ := @ih n (next + 1) (line + 1) h
        refine ⟨found, hfound, hslot.imp_right fun ⟨hnone, k, hk, hlone⟩ => ⟨hnone, k + 1, ?_, ?_⟩⟩
        · omega
        · rw [Nat.add_right_comm, Nat.add_assoc] at hlone
          exact hlone
    · cases n with
      | zero =>
        cases h
        exact ⟨index, rfl, .inl rfl⟩
      | succ n =>
        obtain ⟨found, hfound, hslot⟩ := @ih n next (line + 1) h
        rw [Nat.add_right_comm, Nat.add_assoc] at hslot
        exact ⟨found, hfound, hslot⟩

end Slots

/-- The physical lines of a source, its logical lines, and the place of each physical line among
them. -/
structure LineMap where
  physical : List String
  /-- The statements, then the lines that no statement covers. -/
  logicalLines : List LogicalLine
  slots : List Nat
  length_slots : slots.length = physical.length
  /-- The slot of a line has the place of a logical line that covers it. -/
  covers : ∀ n < physical.length, ∃ index logical,
    slots[n]? = some index ∧ logicalLines[index]? = some logical ∧ n + 1 ∈ logical.range
deriving DecidableEq, Repr

namespace LineMap

/-- The physical lines with the slots that statements have entered. -/
def rowsOf (physical : List String) (statements : List LogicalLine) :
    List (String × Option Nat) :=
  physical.zip (enterStatements 0 (List.replicate physical.length none) statements)

/-- The slot of a row has the place of a statement that covers the line, or no statement does. -/
theorem getElem?_rowsOf {physical : List String} {n : Nat} (hn : n < physical.length)
    (statements : List LogicalLine) :
    ∃ slot, (rowsOf physical statements)[n]? = some (physical[n], slot) ∧
      (slot = none ∧ (∀ logical ∈ statements, n + 1 ∉ logical.range) ∨
        ∃ k logical, slot = some k ∧ statements[k]? = some logical ∧ n + 1 ∈ logical.range) := by
  let slots := enterStatements 0 (List.replicate physical.length none) statements
  have hbound : n < slots.length := by
    rwa [length_enterStatements, List.length_replicate]
  have hslot : slots[n]? = some slots[n] := List.getElem?_eq_getElem hbound
  refine ⟨slots[n], ?_, ?_⟩
  · rw [rowsOf, List.getElem?_zip_eq_some]
    exact ⟨List.getElem?_eq_getElem hn, hslot⟩
  · rcases getElem?_enterStatements hslot with ⟨hempty, hfree⟩ | ⟨k, logical, hk, hfound⟩
    · rw [List.getElem?_replicate, if_pos hn, Option.some.injEq] at hempty
      exact .inl ⟨hempty.symm, hfree⟩
    · rw [Nat.zero_add] at hk
      exact .inr ⟨k, logical, hk, hfound⟩

theorem exists_place {physical : List String} {n : Nat} (hn : n < physical.length)
    (statements : List LogicalLine) :
    let filled := fillSlots statements.length 1 (rowsOf physical statements)
    ∃ index logical, filled.2[n]? = some index ∧
      (statements ++ filled.1)[index]? = some logical ∧ n + 1 ∈ logical.range := by
  obtain ⟨slot, hrow, hslot⟩ := getElem?_rowsOf hn statements
  obtain ⟨index, hindex, hplace⟩ := getElem?_fillSlots hrow
  rcases hplace with rfl | ⟨rfl, k, rfl, hlone⟩
  · rcases hslot with ⟨hnone, -⟩ | ⟨k, logical, hk, hlogical, hin⟩
    · cases hnone
    · cases hk
      refine ⟨index, logical, hindex, ?_, hin⟩
      rw [List.getElem?_append_left (List.getElem?_eq_some_iff.1 hlogical).1, hlogical]
  · refine ⟨_, ⟨⟨1 + n, 1 + n⟩, physical[n]⟩, hindex, ?_, ?_⟩
    · rw [List.getElem?_append_right (Nat.le_add_right _ _), Nat.add_sub_cancel_left]
      exact hlone
    · rw [Nat.add_comm]
      exact ⟨Nat.le_refl _, Nat.le_refl _⟩

/-- The map of lines that statements cover. A line that several cover has the last one. -/
def ofStatements (physical : List String) (statements : List LogicalLine) : LineMap :=
  let filled := fillSlots statements.length 1 (rowsOf physical statements)
  { physical
    logicalLines := statements ++ filled.1
    slots := filled.2
    length_slots := by
      rw [length_fillSlots, rowsOf, List.length_zip, length_enterStatements, List.length_replicate,
        Nat.min_self]
    covers := fun _ hn => exists_place hn statements }

def ofTokens (physical : List String) (tokens : List Token) : LineMap :=
  ofStatements physical (statementsFrom physical.length 0 tokens)

/-- The physical line with a number, counted from one. -/
def physical? (map : LineMap) : Nat → Option String
  | 0 => none
  | n + 1 => map.physical[n]?

/-- The logical line that the slot of a line leads to. -/
def get? (map : LineMap) : Nat → Option LogicalLine
  | 0 => none
  | n + 1 => map.slots[n]?.bind fun index => map.logicalLines[index]?

/-- The physical lines of the logical line that holds a line. A line that does not exist stands for
itself. -/
def rangeOf (map : LineMap) (line : Nat) : LineRange :=
  ((map.get? line).map LogicalLine.range).getD ⟨line, line⟩

/-- Logical lines without those that repeat the range of the one before. -/
def dropRepeated : List LogicalLine → List LogicalLine
  | first :: second :: rest =>
    if first.range = second.range then dropRepeated (first :: rest)
    else first :: dropRepeated (second :: rest)
  | short => short
termination_by logical => logical.length

/-- The texts of the logical lines that the lines from `start` to `stop` touch, in order; the line
of `start` at least. -/
def linesBetween (map : LineMap) (start stop : Location) : List String :=
  let touched := (LineRange.mk start.line (max start.line stop.line)).toList.filterMap map.get?
  (dropRepeated touched).map LogicalLine.text

/-- From the start of the first to the end of the last physical line of the logical line that holds
a line. -/
def span (map : LineMap) (line : Nat) : Location × Location :=
  let range := map.rangeOf line
  let width := ((map.physical? (max range.last 1)).map String.length).getD 0
  (⟨range.first, 0⟩, ⟨range.last, width⟩)

end LineMap

end PythonLint
