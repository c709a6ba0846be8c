import PythonLint.Position
import Mathlib.Data.List.Basic

/-!
# Positions between characters

A position between two characters of a text cuts the text in two, so it is named here by the part
before it. `Location.after` counts the lines and columns of that part. Both conversions of positions
are described through it: `locationAt` gives the location after the part, and `offsetAt` leads back
from that location to the number of bytes of the part.

Main statements: `locationAt_append`, `offsetAt_after_add`, `textBetween_of_offsets`.
-/

namespace PythonLint

open Text

/-! ### Bytes -/

namespace Text

@[simp]
theorem byteLength_nil : byteLength [] = 0 := rfl

@[simp]
theorem byteLength_cons (c : Char) (text : List Char) :
    byteLength (c :: text) = c.utf8Size + byteLength text := rfl

@[simp]
theorem byteLength_append (a b : List Char) :
    byteLength (a ++ b) = byteLength a + byteLength b := by
  induction a with
  | nil => simp
  | cons c a ih =>
    rw [List.cons_append, byteLength_cons, byteLength_cons, ih]
    omega

/-- A character that starts a part of a text keeps the number of its bytes from being zero. -/
theorem byteLength_cons_eq_succ (c : Char) (text : List Char) :
    ∃ n, byteLength (c :: text) = n + 1 ∧ ¬n + 1 < c.utf8Size ∧
      n + 1 - c.utf8Size = byteLength text := by
  have hc := c.utf8Size_pos
  refine ⟨c.utf8Size + byteLength text - 1, ?_, ?_, ?_⟩
  · rw [byteLength_cons]
    omega
  · omega
  · omega

theorem takeBytes_append (a b : List Char) : takeBytes (byteLength a) (a ++ b) = a := by
  induction a with
  | nil => cases b <;> rfl
  | cons c a ih =>
    obtain ⟨n, hn, -, hrest⟩ := byteLength_cons_eq_succ c a
    rw [hn, List.cons_append, takeBytes, hrest, ih]

theorem dropBytes_append (a b : List Char) : dropBytes (byteLength a) (a ++ b) = b := by
  induction a with
  | nil => cases b <;> rfl
  | cons c a ih =>
    obtain ⟨n, hn, -, hrest⟩ := byteLength_cons_eq_succ c a
    rw [hn, List.cons_append, dropBytes, hrest, ih]

theorem sliceBytes_append (a b c : List Char) :
    sliceBytes (a ++ b ++ c) (byteLength a) (byteLength (a ++ b)) = b := by
  have hlen : byteLength (a ++ b) - byteLength a = byteLength b := by
    rw [byteLength_append]
    omega
  rw [sliceBytes, hlen, List.append_assoc, dropBytes_append, takeBytes_append]

end Text

theorem eq_nil_of_byteLength_le {a b : List Char} (h : byteLength (a ++ b) ≤ byteLength a) :
    b = [] := by
  cases b with
  | nil => rfl
  | cons c b =>
    have hpos := c.utf8Size_pos
    rw [byteLength_append, byteLength_cons] at h
    omega

/-- Of two first parts of a text, the one with fewer bytes comes first. -/
theorem exists_append_of_byteLength_le {a b c d : List Char} (h : a ++ b = c ++ d)
    (hle : byteLength a ≤ byteLength c) : ∃ more, c = a ++ more ∧ b = more ++ d := by
  rcases List.append_eq_append_iff.1 h with ⟨more, hc, hb⟩ | ⟨more, ha, hd⟩
  · exact ⟨more, hc, hb⟩
  · rw [ha] at hle
    obtain rfl := eq_nil_of_byteLength_le hle
    exact ⟨[], by rw [ha, List.append_nil, List.append_nil], hd.symm⟩

theorem append_inj_of_byteLength {a b c d : List Char} (h : a ++ b = c ++ d)
    (hlength : byteLength a = byteLength c) : a = c ∧ b = d := by
  obtain ⟨more, rfl, rfl⟩ := exists_append_of_byteLength_le h (Nat.le_of_eq hlength)
  obtain rfl := eq_nil_of_byteLength_le (Nat.le_of_eq hlength.symm)
  exact ⟨(List.append_nil a).symm, rfl⟩

/-! ### Locations -/

namespace Location

/-- The location after a character that stands at `here`. -/
def next (here : Location) (c : Char) : Location :=
  if c = '\n' then ⟨here.line + 1, 0⟩ else ⟨here.line, here.column + 1⟩

/-- The location after a text that starts at `here`. -/
def after (here : Location) (text : List Char) : Location :=
  text.foldl next here

/-- The start of a source. -/
def origin : Location := ⟨1, 0⟩

@[simp]
theorem after_nil (here : Location) : here.after [] = here := rfl

@[simp]
theorem after_cons (here : Location) (c : Char) (text : List Char) :
    here.after (c :: text) = (here.next c).after text := rfl

theorem after_append (here : Location) (a b : List Char) :
    here.after (a ++ b) = (here.after a).after b :=
  List.foldl_append

theorem next_lineFeed (here : Location) : here.next '\n' = ⟨here.line + 1, 0⟩ :=
  if_pos rfl

theorem next_of_ne (here : Location) {c : Char} (h : c ≠ '\n') :
    here.next c = ⟨here.line, here.column + 1⟩ :=
  if_neg h

theorem after_of_not_mem (here : Location) {text : List Char} (h : '\n' ∉ text) :
    here.after text = ⟨here.line, here.column + text.length⟩ := by
  induction text generalizing here with
  | nil => rfl
  | cons c text ih =>
    have hc : c ≠ '\n' := fun hc => h (by simp [hc])
    have ht : '\n' ∉ text := fun ht => h (List.mem_cons_of_mem _ ht)
    rw [after_cons, next_of_ne here hc, ih _ ht, List.length_cons]
    simp only [Location.mk.injEq, true_and]
    omega

theorem after_line (here : Location) (text : List Char) :
    (here.after text).line = here.line + text.count '\n' := by
  induction text generalizing here with
  | nil => rfl
  | cons c text ih =>
    rw [after_cons, ih]
    by_cases hc : c = '\n'
    · subst hc
      rw [next_lineFeed, List.count_cons_self]
      change here.line + 1 + _ = _
      omega
    · rw [next_of_ne here hc, List.count_cons_of_ne hc]

theorem after_lineFeed (here : Location) (a : List Char) {b : List Char} (h : '\n' ∉ b) :
    here.after (a ++ '\n' :: b) = ⟨here.line + a.count '\n' + 1, b.length⟩ := by
  rw [after_append, after_cons, next_lineFeed, after_line, after_of_not_mem _ h]
  simp

/-! ### The order of locations -/

theorem le_iff {a b : Location} :
    a ≤ b ↔ a.line < b.line ∨ a.line = b.line ∧ a.column ≤ b.column := by
  have hlt : a < b ↔ a.line < b.line ∨ a.line = b.line ∧ a.column < b.column := Iff.rfl
  have heq : a = b ↔ a.line = b.line ∧ a.column = b.column := by
    rw [Location.mk.injEq]
  change a < b ∨ a = b ↔ _
  rw [hlt, heq]
  omega

theorem le_refl (a : Location) : a ≤ a :=
  .inr rfl

theorem le_trans {a b c : Location} (hab : a ≤ b) (hbc : b ≤ c) : a ≤ c := by
  rw [le_iff] at *
  omega

theorem lt_of_lt_of_le {a b c : Location} (hab : a < b) (hbc : b ≤ c) : a < c := by
  change a.line < b.line ∨ a.line = b.line ∧ a.column < b.column at hab
  change a.line < c.line ∨ a.line = c.line ∧ a.column < c.column
  rw [le_iff] at hbc
  omega

theorem line_le_of_le {a b : Location} (h : a ≤ b) : a.line ≤ b.line := by
  rw [le_iff] at h
  omega

theorem le_of_line_lt {a b : Location} (h : a.line < b.line) : a ≤ b :=
  le_iff.2 (.inl h)

theorem lt_next (here : Location) (c : Char) : here < here.next c := by
  by_cases hc : c = '\n'
  · rw [hc, next_lineFeed]
    exact .inl (Nat.lt_succ_self _)
  · rw [next_of_ne here hc]
    exact .inr ⟨rfl, Nat.lt_succ_self _⟩

theorem le_after (here : Location) (text : List Char) : here ≤ here.after text := by
  induction text generalizing here with
  | nil => exact le_refl here
  | cons c text ih => exact le_trans (.inl (lt_next here c)) (ih _)

theorem after_le_append (here : Location) (a b : List Char) :
    here.after a ≤ here.after (a ++ b) := by
  rw [after_append]
  exact le_after _ b

end Location

/-- The last line feed of a text, if it has any, cuts off its last line. -/
theorem lastLine_cases (text : List Char) :
    '\n' ∉ text ∨ ∃ a b, text = a ++ '\n' :: b ∧ '\n' ∉ b := by
  induction text with
  | nil => exact .inl (by simp)
  | cons c text ih =>
    rcases ih with h | ⟨a, b, rfl, hb⟩
    · by_cases hc : c = '\n'
      · exact .inr ⟨[], text, by rw [hc]; rfl, h⟩
      · exact .inl (by simp [h, Ne.symm hc])
    · exact .inr ⟨c :: a, b, rfl, hb⟩

/-! ### From positions to locations -/

/-- A part of a text is left behind with its last byte, wherever the text starts. -/
theorem locationFrom_append (a b : List Char) (here : Location) (bytes : Nat) :
    locationFrom (a ++ b) (byteLength a) here bytes = here.after a := by
  induction a generalizing here bytes with
  | nil => cases b <;> rfl
  | cons c a ih =>
    obtain ⟨n, hn, hsize, hrest⟩ := byteLength_cons_eq_succ c a
    rw [hn, List.cons_append, locationFrom, if_neg hsize, hrest, Location.after_cons]
    by_cases hc : c = '\n'
    · rw [if_pos hc, hc, Location.next_lineFeed, ih]
    · rw [if_neg hc, Location.next_of_ne here hc, ih]

/-- The location of a position between two characters counts the characters before it. -/
theorem locationAt_append (a b : List Char) :
    locationAt (a ++ b) (byteLength a) = Location.origin.after a :=
  locationFrom_append a b _ _

/-! ### From locations to positions -/

/-- Columns without a line feed are passed one character each. -/
theorem columnOffset_append {a : List Char} (h : '\n' ∉ a) (b : List Char) (k passed : Nat) :
    columnOffset (a ++ b) (a.length + k) passed = columnOffset b k (passed + byteLength a) := by
  induction a generalizing passed with
  | nil => simp
  | cons c a ih =>
    have hc : c ≠ '\n' := fun hc => h (by simp [hc])
    have ha : '\n' ∉ a := fun ha => h (List.mem_cons_of_mem _ ha)
    have hk : (c :: a).length + k = (a.length + k) + 1 := by
      rw [List.length_cons]
      omega
    rw [hk, List.cons_append, columnOffset, if_neg hc, ih ha, byteLength_cons]
    congr 1
    omega

/-- The line after a line feed starts with its first column. -/
theorem lineOffset_lineFeed (a b : List Char) (column passed : Nat) :
    lineOffset (a ++ '\n' :: b) (a.count '\n' + 1) column passed =
      columnOffset b column (passed + byteLength (a ++ ['\n'])) := by
  induction a generalizing passed with
  | nil =>
    rw [List.nil_append, List.count_nil, Nat.zero_add, lineOffset, if_pos rfl]
    cases b <;> rfl
  | cons c a ih =>
    have hbytes : passed + byteLength (c :: a ++ ['\n']) =
        passed + c.utf8Size + byteLength (a ++ ['\n']) := by
      rw [List.cons_append, byteLength_cons]
      omega
    rw [hbytes, List.cons_append, lineOffset, ← ih]
    by_cases hc : c = '\n'
    · rw [if_pos hc, hc, List.count_cons_self]
    · rw [if_neg hc, List.count_cons_of_ne hc]

/-- Some columns further on than a part of a text lies the position that many columns into the rest
of its line. -/
theorem offsetAt_after_add (a b : List Char) (k : Nat) :
    offsetAt (a ++ b)
        ⟨(Location.origin.after a).line, (Location.origin.after a).column + k⟩ =
      columnOffset b k (byteLength a) := by
  rcases lastLine_cases a with h | ⟨u, v, rfl, hv⟩
  · rw [Location.after_of_not_mem _ h]
    simp only [Location.origin, offsetAt, Nat.zero_add]
    rw [lineOffset.eq_def]
    simpa using columnOffset_append h b k 0
  · rw [Location.after_lineFeed _ u hv]
    simp only [Location.origin, offsetAt]
    have hline : 1 + u.count '\n' = u.count '\n' + 1 := by omega
    rw [hline, List.append_assoc, List.cons_append, lineOffset_lineFeed, columnOffset_append hv]
    congr 1
    simp only [byteLength_append, byteLength_cons, byteLength_nil]
    omega

/-- The location after a part of a text leads back to the position after that part. -/
theorem offsetAt_after (a b : List Char) :
    offsetAt (a ++ b) (Location.origin.after a) = byteLength a := by
  have h := offsetAt_after_add a b 0
  have hzero : columnOffset b 0 (byteLength a) = byteLength a := by
    cases b <;> rfl
  rw [hzero] at h
  exact h

/-- A line end is passed by counting its characters as columns of the line that it ends. -/
theorem offsetAt_after_lineEnd (a b : List Char) {word : List Char} (h : '\n' ∉ word.dropLast) :
    offsetAt (a ++ word ++ b)
        ⟨(Location.origin.after a).line, (Location.origin.after a).column + word.length⟩ =
      byteLength (a ++ word) := by
  rw [List.append_assoc, offsetAt_after_add, byteLength_append]
  rcases List.eq_nil_or_concat word with rfl | ⟨u, c, rfl⟩
  · cases b <;> rfl
  · rw [List.concat_eq_append] at h ⊢
    rw [List.dropLast_concat] at h
    rw [List.length_append, List.append_assoc, columnOffset_append h]
    simp only [List.length_singleton, List.singleton_append, columnOffset, byteLength_append,
      byteLength_cons, byteLength_nil]
    by_cases hc : c = '\n'
    · rw [if_pos hc]
      omega
    · rw [if_neg hc]
      omega

/-- Two locations that stand for the ends of a part of a text enclose that part. -/
theorem textBetween_of_offsets (a b c : List Char) (start stop : Location)
    (hstart : offsetAt (a ++ b ++ c) start = byteLength a)
    (hstop : offsetAt (a ++ b ++ c) stop = byteLength (a ++ b)) :
    textBetween (a ++ b ++ c) start stop = b := by
  rw [textBetween, hstart, hstop, sliceBytes_append]

end PythonLint
