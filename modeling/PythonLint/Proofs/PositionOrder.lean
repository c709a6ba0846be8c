import PythonLint.Proofs.Position

/-!
# The order of positions and locations

Positions and locations count the same places of a text in the same order. A position between two
characters has a location that leads back to it, and later positions have later locations. In the
other direction every location leads to some place of the text, although it may name a line or a
column that the text does not have: `offsetAt` gives the first place that does not lie before the
location, and the end of the text when all places do. This makes it monotone, and the text between
any two locations can always be cut out.

Main statements: `exists_offsetAt`, `offsetAt_le`, `locationAt_orders`.
-/

namespace PythonLint

open Text

variable {a text : List Char} {offset : Nat}

namespace Text

/-- The parts of a text before and after a position. A position inside a character or past the end
cuts nothing. -/
def cutAt? : List Char → Nat → Option (List Char × List Char)
  | text, 0 => some ([], text)
  | [], _ + 1 => none
  | c :: rest, n + 1 =>
    if n + 1 < c.utf8Size then none
    else (cutAt? rest (n + 1 - c.utf8Size)).map fun (before, after) => (c :: before, after)

/-- The text between two positions. They have to lie between characters, the first one not after the
second. -/
def slice? (text : List Char) (first last : Nat) : Option (List Char) := do
  let (before, _) ← cutAt? text last
  let (_, part) ← cutAt? before first
  return part

/-- The position lies between two characters of the text or at one of its ends. -/
def IsBoundary (text : List Char) (offset : Nat) : Prop :=
  ∃ before after, text = before ++ after ∧ byteLength before = offset

theorem cutAt?_append (a b : List Char) : cutAt? (a ++ b) (byteLength a) = some (a, b) := by
  induction a with
  | nil => cases b <;> rfl
  | cons c a ih =>
    obtain ⟨n, hn, hsize, hrest⟩ := byteLength_cons_eq_succ c a
    rw [hn, List.cons_append, cutAt?, if_neg hsize, hrest, ih, Option.map_some]

theorem eq_append_of_cutAt? {b : List Char} (h : cutAt? text offset = some (a, b)) :
    text = a ++ b ∧ byteLength a = offset := by
  fun_induction cutAt? text offset generalizing a with
  | case1 text =>
    cases h
    exact ⟨rfl, rfl⟩
  | case2 => cases h
  | case3 => cases h
  | case4 c rest n hsize ih =>
    obtain ⟨⟨a', b'⟩, hcut, hpair⟩ := Option.map_eq_some_iff.1 h
    cases hpair
    obtain ⟨rfl, hlength⟩ := ih hcut
    refine ⟨rfl, ?_⟩
    rw [byteLength_cons]
    omega

theorem isSome_cutAt?_iff : (cutAt? text offset).isSome ↔ IsBoundary text offset := by
  rw [Option.isSome_iff_exists]
  constructor
  · rintro ⟨⟨a, b⟩, h⟩
    exact ⟨a, b, eq_append_of_cutAt? h⟩
  · rintro ⟨a, b, rfl, rfl⟩
    exact ⟨(a, b), cutAt?_append a b⟩

instance (text : List Char) (offset : Nat) : Decidable (IsBoundary text offset) :=
  decidable_of_iff _ isSome_cutAt?_iff

theorem slice?_append (a b c : List Char) :
    slice? (a ++ b ++ c) (byteLength a) (byteLength (a ++ b)) = some b := by
  rw [slice?, cutAt?_append]
  show (do let (_, part) ← cutAt? (a ++ b) (byteLength a); return part) = some b
  rw [cutAt?_append]
  rfl

/-- Two positions that cut a text cut out the part between them. -/
theorem slice?_eq_sliceBytes {first last : Nat} (hfirst : IsBoundary text first)
    (hlast : IsBoundary text last) (hle : first ≤ last) :
    slice? text first last = some (sliceBytes text first last) := by
  obtain ⟨a, b, rfl, rfl⟩ := hfirst
  obtain ⟨c, d, htext, rfl⟩ := hlast
  obtain ⟨part, rfl, rfl⟩ := exists_append_of_byteLength_le htext hle
  rw [htext, slice?_append, sliceBytes_append]

theorem sliceBytes_of_le (text : List Char) {first last : Nat} (h : last ≤ first) :
    sliceBytes text first last = [] := by
  rw [sliceBytes, Nat.sub_eq_zero_of_le h]
  cases dropBytes first text <;> rfl

end Text

theorem lineOffset_zero (text : List Char) (column passed : Nat) :
    lineOffset text 0 column passed = columnOffset text column passed := by
  cases text <;> rfl

theorem offsetAt_firstLine (text : List Char) (column : Nat) :
    offsetAt text ⟨1, column⟩ = columnOffset text column 0 :=
  lineOffset_zero text column 0

theorem offsetAt_laterLine (text : List Char) (n column : Nat) :
    offsetAt text ⟨n + 2, column⟩ = lineOffset text (n + 1) column 0 := rfl

/-! ### A location leads to a place that does not lie before it -/

/-- A column of a line that starts at `here` leads to a place on or after it, unless the text ends
before. -/
theorem exists_columnOffset (text : List Char) (here : Location) (k passed : Nat) :
    ∃ a b, text = a ++ b ∧ columnOffset text k passed = passed + byteLength a ∧
      ((⟨here.line, here.column + k⟩ : Location) ≤ here.after a ∨ b = []) := by
  induction text generalizing here k passed with
  | nil =>
    refine ⟨[], [], rfl, ?_, .inr rfl⟩
    cases k <;> rfl
  | cons c text ih =>
    cases k with
    | zero => exact ⟨[], c :: text, rfl, rfl, .inl (Location.le_refl here)⟩
    | succ k =>
      rw [columnOffset]
      by_cases hc : c = '\n'
      · -- The line ends here, and the next one starts after every column of it.
        refine ⟨[c], text, rfl, if_pos hc, .inl ?_⟩
        subst hc
        exact Location.le_of_line_lt (Nat.lt_succ_self _)
      · obtain ⟨a, b, rfl, hoffset, hplace⟩ := ih (here.next c) k (passed + c.utf8Size)
        refine ⟨c :: a, b, rfl, ?_, ?_⟩
        · rw [if_neg hc, hoffset, byteLength_cons, Nat.add_assoc]
        · have hcolumn : here.column + (k + 1) = here.column + 1 + k := by omega
          rw [Location.after_cons, hcolumn]
          rwa [Location.next_of_ne here hc] at hplace ⊢

theorem exists_lineOffset (text : List Char) (here : Location) (n column passed : Nat) :
    ∃ a b, text = a ++ b ∧ lineOffset text (n + 1) column passed = passed + byteLength a ∧
      ((⟨here.line + (n + 1), column⟩ : Location) ≤ here.after a ∨ b = []) := by
  induction text generalizing here n passed with
  | nil => exact ⟨[], [], rfl, rfl, .inr rfl⟩
  | cons c text ih =>
    rw [lineOffset]
    by_cases hc : c = '\n'
    · subst hc
      rw [if_pos rfl]
      cases n with
      | zero =>
        -- The line starts right after this line feed.
        obtain ⟨a, b, rfl, hoffset, hplace⟩ :=
          exists_columnOffset text (here.next '\n') column (passed + '\n'.utf8Size)
        refine ⟨'\n' :: a, b, rfl, ?_, ?_⟩
        · rw [lineOffset_zero, hoffset, byteLength_cons, Nat.add_assoc]
        · simpa [Location.next_lineFeed] using hplace
      | succ n =>
        obtain ⟨a, b, rfl, hoffset, hplace⟩ := ih (here.next '\n') n (passed + '\n'.utf8Size)
        refine ⟨'\n' :: a, b, rfl, ?_, ?_⟩
        · rw [hoffset, byteLength_cons, Nat.add_assoc]
        · have hline : here.line + (n + 1 + 1) = here.line + 1 + (n + 1) := by omega
          rw [Location.after_cons, hline]
          exact hplace
    · rw [if_neg hc]
      obtain ⟨a, b, rfl, hoffset, hplace⟩ := ih (here.next c) n (passed + c.utf8Size)
      refine ⟨c :: a, b, rfl, ?_, ?_⟩
      · rw [hoffset, byteLength_cons, Nat.add_assoc]
      · rw [Location.after_cons]
        rwa [Location.next_of_ne here hc] at hplace ⊢

/-- Every location leads to a place of the text, which does not lie before it unless it is the
end. -/
theorem exists_offsetAt (text : List Char) (location : Location) :
    ∃ a b, text = a ++ b ∧ offsetAt text location = byteLength a ∧
      (location ≤ Location.origin.after a ∨ b = []) := by
  obtain ⟨line, column⟩ := location
  match line with
  | 0 => exact ⟨[], text, rfl, rfl, .inl (Location.le_of_line_lt Nat.one_pos)⟩
  | 1 =>
    obtain ⟨a, b, htext, hoffset, hplace⟩ := exists_columnOffset text Location.origin column 0
    refine ⟨a, b, htext, ?_, ?_⟩
    · rw [offsetAt_firstLine, hoffset, Nat.zero_add]
    · simpa [Location.origin] using hplace
  | n + 2 =>
    obtain ⟨a, b, htext, hoffset, hplace⟩ := exists_lineOffset text Location.origin n column 0
    refine ⟨a, b, htext, ?_, ?_⟩
    · rw [offsetAt_laterLine, hoffset, Nat.zero_add]
    · have hline : n + 2 = Location.origin.line + (n + 1) := by
        show n + 2 = 1 + (n + 1)
        omega
      rwa [hline]

/-! ### It is the first such place -/

theorem columnOffset_le (b : List Char) (here : Location) {k : Nat}
    (h : (⟨here.line, here.column + k⟩ : Location) ≤ here.after a) (passed : Nat) :
    columnOffset (a ++ b) k passed ≤ passed + byteLength a := by
  induction a generalizing here k passed with
  | nil =>
    obtain rfl : k = 0 := by
      rw [Location.after_nil, Location.le_iff] at h
      simp only at h
      omega
    cases b <;> exact Nat.le_refl _
  | cons c a ih =>
    cases k with
    | zero => exact Nat.le_add_right _ _
    | succ k =>
      rw [List.cons_append, columnOffset, byteLength_cons]
      by_cases hc : c = '\n'
      · rw [if_pos hc]
        omega
      · have hcolumn : here.column + (k + 1) = here.column + 1 + k := by omega
        rw [Location.after_cons, Location.next_of_ne here hc, hcolumn] at h
        have hle := ih ⟨here.line, here.column + 1⟩ h (passed + c.utf8Size)
        rw [if_neg hc]
        omega

theorem lineOffset_le (b : List Char) (here : Location) {n column : Nat}
    (h : (⟨here.line + (n + 1), column⟩ : Location) ≤ here.after a) (passed : Nat) :
    lineOffset (a ++ b) (n + 1) column passed ≤ passed + byteLength a := by
  induction a generalizing here n passed with
  | nil =>
    have hline := Location.line_le_of_le h
    simp only [Location.after_nil] at hline
    omega
  | cons c a ih =>
    rw [List.cons_append, lineOffset, byteLength_cons, ← Nat.add_assoc]
    rw [Location.after_cons] at h
    by_cases hc : c = '\n'
    · rw [if_pos hc]
      rw [hc, Location.next_lineFeed] at h
      cases n with
      | zero =>
        rw [lineOffset_zero]
        apply columnOffset_le b ⟨here.line + 1, 0⟩
        simpa using h
      | succ n =>
        apply ih ⟨here.line + 1, 0⟩
        have hline : here.line + (n + 1 + 1) = here.line + 1 + (n + 1) := by omega
        rwa [hline] at h
    · rw [if_neg hc]
      rw [Location.next_of_ne here hc] at h
      exact ih ⟨here.line, here.column + 1⟩ h _

/-- A location does not lead past a place that it does not lie after. -/
theorem offsetAt_le (b : List Char) {location : Location} (h : location ≤ Location.origin.after a) :
    offsetAt (a ++ b) location ≤ byteLength a := by
  obtain ⟨line, column⟩ := location
  match line with
  | 0 => exact Nat.zero_le _
  | 1 =>
    rw [offsetAt_firstLine, ← Nat.zero_add (byteLength a)]
    apply columnOffset_le b Location.origin
    simpa [Location.origin] using h
  | n + 2 =>
    rw [offsetAt_laterLine, ← Nat.zero_add (byteLength a)]
    apply lineOffset_le b Location.origin
    have hline : n + 2 = Location.origin.line + (n + 1) := by
      show n + 2 = 1 + (n + 1)
      omega
    rwa [← hline]

theorem isBoundary_offsetAt (text : List Char) (location : Location) :
    IsBoundary text (offsetAt text location) := by
  obtain ⟨a, b, htext, hoffset, -⟩ := exists_offsetAt text location
  exact ⟨a, b, htext, hoffset.symm⟩

theorem offsetAt_mono (text : List Char) {l m : Location} (h : l ≤ m) :
    offsetAt text l ≤ offsetAt text m := by
  obtain ⟨a, b, rfl, hoffset, hplace⟩ := exists_offsetAt text m
  rw [hoffset]
  rcases hplace with hplace | rfl
  · exact offsetAt_le b (Location.le_trans h hplace)
  · -- The later location leads to the end, and no location leads further.
    obtain ⟨c, d, htext, hc, -⟩ := exists_offsetAt (a ++ []) l
    have hlength := congrArg byteLength htext
    rw [byteLength_append, byteLength_append, byteLength_nil] at hlength
    omega

theorem offsetAt_locationAt (h : IsBoundary text offset) :
    offsetAt text (locationAt text offset) = offset := by
  obtain ⟨a, b, rfl, rfl⟩ := h
  rw [locationAt_append, offsetAt_after]

theorem locationAt_strictMono {a b : Nat} (ha : IsBoundary text a) (hb : IsBoundary text b)
    (h : a < b) : locationAt text a < locationAt text b := by
  obtain ⟨u, v, rfl, rfl⟩ := ha
  obtain ⟨u', v', htext, rfl⟩ := hb
  obtain ⟨part, rfl, rfl⟩ := exists_append_of_byteLength_le htext (Nat.le_of_lt h)
  rw [locationAt_append, htext, locationAt_append, Location.after_append]
  cases part with
  | nil =>
    rw [List.append_nil] at h
    exact absurd h (Nat.lt_irrefl _)
  | cons c part =>
    exact Location.lt_of_lt_of_le (Location.lt_next _ c) (Location.le_after _ part)

/-- Positions between characters and locations are in the same order, and each position comes back
from its location. Any two locations enclose a part of the text, which for the locations of two
positions is what stands between these. -/
theorem locationAt_orders (text : List Char) :
    (∀ offset, IsBoundary text offset → offsetAt text (locationAt text offset) = offset) ∧
    (∀ a b, IsBoundary text a → IsBoundary text b → a < b → locationAt text a < locationAt text b) ∧
    (∀ location, IsBoundary text (offsetAt text location) ∧
      offsetAt text location ≤ byteLength text) ∧
    (∀ l m : Location, l ≤ m → offsetAt text l ≤ offsetAt text m) ∧
    (∀ start stop,
      slice? text (offsetAt text start) (max (offsetAt text stop) (offsetAt text start)) =
        some (textBetween text start stop)) ∧
    (∀ a b, IsBoundary text a → IsBoundary text b → a ≤ b →
      slice? text a b = some (textBetween text (locationAt text a) (locationAt text b))) := by
  refine ⟨fun _ => offsetAt_locationAt, fun _ _ => locationAt_strictMono, fun location => ?_,
    fun _ _ => offsetAt_mono text, fun start stop => ?_, fun a b ha hb hle => ?_⟩
  · refine ⟨isBoundary_offsetAt text location, ?_⟩
    obtain ⟨a, b, rfl, hoffset, -⟩ := exists_offsetAt text location
    rw [hoffset, byteLength_append]
    omega
  · have hstart := isBoundary_offsetAt text start
    have hstop := isBoundary_offsetAt text stop
    rw [textBetween]
    by_cases hle : offsetAt text start ≤ offsetAt text stop
    · rw [Nat.max_eq_left hle, slice?_eq_sliceBytes hstart hstop hle]
    · have hge : offsetAt text stop ≤ offsetAt text start := by omega
      rw [Nat.max_eq_right hge, slice?_eq_sliceBytes hstart hstart (Nat.le_refl _),
        sliceBytes_of_le text hge, sliceBytes_of_le text (Nat.le_refl _)]
  · rw [textBetween, offsetAt_locationAt ha, offsetAt_locationAt hb, slice?_eq_sliceBytes ha hb hle]

/-- Positions around a character of two bytes and a line feed, and a column past the end of its
line. -/
theorem locationAt_orders_twoBytes :
    IsBoundary "é\n\tb".toList 2 ∧ IsBoundary "é\n\tb".toList 4 ∧ ¬IsBoundary "é\n\tb".toList 1 ∧
      offsetAt "é\n\tb".toList (locationAt "é\n\tb".toList 4) = 4 ∧
      locationAt "é\n\tb".toList 2 < locationAt "é\n\tb".toList 4 ∧
      offsetAt "é\n\tb".toList ⟨1, 9⟩ ≤ offsetAt "é\n\tb".toList ⟨2, 0⟩ ∧
      slice? "é\n\tb".toList 2 4 =
        some (textBetween "é\n\tb".toList (locationAt "é\n\tb".toList 2)
          (locationAt "é\n\tb".toList 4)) := by
  have htwo : IsBoundary "é\n\tb".toList 2 := by decide
  have hfour : IsBoundary "é\n\tb".toList 4 := by decide
  obtain ⟨hinverse, hstrict, -, hmono, -, hslice⟩ := locationAt_orders "é\n\tb".toList
  exact ⟨htwo, hfour, by decide, hinverse 4 hfour, hstrict 2 4 htwo hfour (by decide),
    hmono ⟨1, 9⟩ ⟨2, 0⟩ (by decide), hslice 2 4 htwo hfour (by decide)⟩

end PythonLint
