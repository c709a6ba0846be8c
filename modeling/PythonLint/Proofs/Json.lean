import PythonLint.JsonValue
import PythonLint.Toml.Scalar
import Mathlib.Data.List.Basic

/-!
# Reading JSON texts

A reader of JSON texts, with blanks between their parts, for values without fractions, null and
truth values that are nested up to a given depth. It reads every value back from what is written of
it on one line.

Main statements: `many_flatMap`, `value_compact`, `lineFeed_not_mem_compact`.
-/

namespace PythonLint.JsonValue

open Toml (Reader isHexDigit scalar valueIn)
open Toml.Reader

/-! ### The reader -/

/-- Blanks between the parts of a text. -/
def isBlankChar (c : Char) : Bool :=
  c == ' ' || c == '\t' || c == '\n' || c == '\r'

/-- A character after blanks. -/
def symbol (c : Char) : Reader Unit := do
  let _ ← takeWhile isBlankChar
  char c

/-- What letters stand for after a backslash. -/
def escapes : List (Char × Char) :=
  [('"', '"'), ('\\', '\\'), ('/', '/'), ('b', '\x08'), ('f', '\x0c'), ('n', '\n'), ('r', '\r'),
    ('t', '\t')]

/-- A character between double quotes. -/
def character : Reader Char := do
  let c ← satisfy fun c => c != '"' && decide (0x20 ≤ c.toNat)
  if c = '\\' then
    let letter ← next
    if letter = 'u' then scalar 4 else StateT.lift (escapes.lookup letter)
  else return c

/-- A text between double quotes. -/
def quotedText : Reader String := do
  symbol '"'
  let text ← many character
  char '"'
  return String.ofList text

/-- A number in decimal digits. -/
def natural : Reader Nat := do
  let digits ← takeWhile Char.isDigit
  require !digits.isEmpty
  return Nat.ofDigitChars 10 digits 0

/-- A number with its sign. -/
def integer : Reader Int := do
  let _ ← takeWhile isBlankChar
  (do
    char '-'
    return -(← natural : Int)) <|> do return (← natural : Int)

/-- Items between brackets, with commas between them. -/
def group {α : Type} (opening closing : Char) (item : Reader α) : Reader (List α) := do
  symbol opening
  let items ← maybe (sepBy item (symbol ','))
  symbol closing
  return items.getD []

def field (value : Reader JsonValue) : Reader (String × JsonValue) := do
  let key ← quotedText
  symbol ':'
  return (key, ← value)

def leaf : Reader JsonValue :=
  text <$> quotedText <|> number <$> integer

/-- A value that is nested up to a depth. -/
def value : Nat → Reader JsonValue
  | 0 => leaf
  | depth + 1 =>
    list <$> group '[' ']' (value depth) <|> object <$> group '\x7b' '\x7d'
      (field (value depth)) <|> leaf

/-- The value that a text stands for, with at most 128 values around each. -/
def parse (text : List Char) : Option JsonValue :=
  (value 128 text).bind fun found => if found.2.all isBlankChar then some found.1 else none

/-! ### Single readers -/

variable {α β : Type} {input rest : List Char}

theorem bind_some {reader : Reader α} {next : α → Reader β} {found : α}
    (h : reader input = some (found, rest)) : (reader >>= next) input = next found rest := by
  simp [bind, StateT.bind, h]

theorem bind_none {reader : Reader α} {next : α → Reader β} (h : reader input = none) :
    (reader >>= next) input = none := by
  simp [bind, StateT.bind, h]

theorem pure_some (found : α) : (pure found : Reader α) input = some (found, input) := rfl

theorem map_some {reader : Reader α} {f : α → β} {found : α}
    (h : reader input = some (found, rest)) : (f <$> reader) input = some (f found, rest) := by
  simp [Functor.map, StateT.map, bind, h]

theorem map_none {reader : Reader α} {f : α → β} (h : reader input = none) :
    (f <$> reader) input = none := by
  simp [Functor.map, StateT.map, bind, h]

theorem orElse_some {first second : Reader α} {found : α × List Char}
    (h : first input = some found) : (first <|> second) input = some found := by
  change (first input <|> second input) = some found
  rw [h]
  rfl

theorem orElse_none {first second : Reader α} (h : first input = none) :
    (first <|> second) input = second input := by
  change (first input <|> second input) = second input
  rw [h]
  rfl

theorem symbol_self {c : Char} (hc : isBlankChar c = false) :
    symbol c (c :: rest) = some ((), rest) := by
  simp [symbol, bind, StateT.bind, takeWhile, char, satisfy, hc, pure_some]

theorem symbol_ne {c d : Char} (hd : isBlankChar d = false) (hne : d ≠ c) :
    symbol c (d :: rest) = none := by
  simp [symbol, bind, StateT.bind, takeWhile, char, satisfy, hd, hne]

/-- What is written one after the other is read one after the other, as long as what follows suits
the reader. -/
theorem many_flatMap {item : Reader α} {write : α → List Char} (suits : List Char → Prop)
    {xs : List α} (hitem : ∀ x ∈ xs, ∀ rest, suits rest → item (write x ++ rest) = some (x, rest))
    (hwrite : ∀ x, write x ≠ []) (hsuits : ∀ x rest, suits (write x ++ rest)) (hrest : suits rest)
    (hstop : item rest = none) : many item (xs.flatMap write ++ rest) = some (xs, rest) := by
  induction xs with
  | nil => rw [List.flatMap_nil, List.nil_append, many, hstop]
  | cons x xs ih =>
    obtain ⟨hx, hxs⟩ := List.forall_mem_cons.1 hitem
    have hnext : suits (xs.flatMap write ++ rest) := by
      cases xs with
      | nil => exact hrest
      | cons y ys =>
        rw [List.flatMap_cons, List.append_assoc]
        exact hsuits y _
    have hshorter : (xs.flatMap write ++ rest).length <
        (write x ++ (xs.flatMap write ++ rest)).length := by
      have := List.length_pos_of_ne_nil (hwrite x)
      simp only [List.length_append]
      omega
    rw [List.flatMap_cons, List.append_assoc, many, hx _ hnext]
    simp only [if_pos hshorter, ih hxs]

/-! ### Texts and numbers -/

theorem scalar_four {a b c d : Char} {n : Nat} (hdigits : [a, b, c, d].all isHexDigit = true)
    (hn : valueIn 16 [a, b, c, d] = n) (hvalid : n.isValidChar) :
    scalar 4 (a :: b :: c :: d :: rest) = some (Char.ofNat n, rest) := by
  simp only [List.all_cons, List.all_nil, Bool.and_true, Bool.and_eq_true] at hdigits
  simp [scalar, exactly, satisfy, require, bind, StateT.bind, pure_some, hdigits, hn, hvalid]

theorem character_jsonChar (c : Char) (rest : List Char) :
    character (jsonChar c ++ rest) = some (c, rest) := by
  have hcode : ∀ n < 0x20,
    ['0', '0', Nat.digitChar (n / 16), Nat.digitChar (n % 16)].all isHexDigit = true ∧
      valueIn 16 ['0', '0', Nat.digitChar (n / 16), Nat.digitChar (n % 16)] = n := by decide
  unfold jsonChar
  split
  -- Seven characters have an escape of their own; other control characters are written by their
  -- number.
  iterate 7 rfl
  · next hquote hslash _ _ _ _ _ =>
    split
    · next hlow =>
      obtain ⟨hdigits, hn⟩ := hcode c.toNat hlow
      refine (scalar_four hdigits hn (.inl (by omega))).trans ?_
      rw [Char.ofNat_toNat]
      rfl
    · next hlow =>
      have hquote : c ≠ '"' := hquote
      have hslash : c ≠ '\\' := hslash
      simp [character, satisfy, bind, StateT.bind, pure_some, hquote, hslash, Nat.le_of_not_lt hlow]

theorem quotedText_jsonText (text : String) (rest : List Char) :
    quotedText (jsonText text ++ rest) = some (text, rest) := by
  have hne : ∀ c, jsonChar c ≠ [] := by
    intro c
    unfold jsonChar
    split <;> first | exact List.cons_ne_nil _ _ | split <;> exact List.cons_ne_nil _ _
  have hmany : many character (text.toList.flatMap jsonChar ++ '"' :: rest) =
      some (text.toList, '"' :: rest) :=
    many_flatMap (fun _ => True) (fun c _ rest _ => character_jsonChar c rest) hne
      (fun _ _ => trivial) trivial rfl
  have hquote : char '"' ('"' :: rest) = some ((), rest) := rfl
  rw [jsonText, quotedText, List.cons_append, List.cons_append, bind_some (symbol_self rfl),
    List.append_assoc, List.singleton_append, bind_some hmany, bind_some hquote,
    String.ofList_toList]
  rfl

def EndsNumber (rest : List Char) : Prop :=
  ∀ c ∈ rest.head?, c.isDigit = false

theorem natural_toDigits (n : Nat) (hrest : EndsNumber rest) :
    natural (Nat.toDigits 10 n ++ rest) = some (n, rest) := by
  have hdigits : ∀ c ∈ Nat.toDigits 10 n, c.isDigit = true := fun c hc =>
    Nat.isDigit_of_mem_toDigits (by decide) (by decide) hc
  have hends : rest.takeWhile Char.isDigit = [] ∧ rest.dropWhile Char.isDigit = rest := by
    cases rest with
    | nil => exact ⟨rfl, rfl⟩
    | cons c rest => simp [hrest c rfl]
  have hread : takeWhile Char.isDigit (Nat.toDigits 10 n ++ rest) =
      some (Nat.toDigits 10 n, rest) := by
    rw [takeWhile, List.takeWhile_append_of_pos hdigits, List.dropWhile_append_of_pos hdigits,
      hends.1, hends.2, List.append_nil]
  have hne : (!(Nat.toDigits 10 n).isEmpty) = true := by simp [Nat.toDigits_ne_nil]
  rw [natural, bind_some hread, hne, Nat.ofDigitChars_ten_toDigits]
  rfl

theorem takeWhile_blank {c : Char} (hc : isBlankChar c = false) :
    takeWhile isBlankChar (c :: rest) = some ([], c :: rest) := by
  simp [takeWhile, hc]

theorem exists_toDigits_eq (n : Nat) :
    ∃ d digits, Nat.toDigits 10 n = d :: digits ∧ isBlankChar d = false ∧
      d ≠ '-' ∧ d ≠ '"' ∧ d ≠ '[' ∧ d ≠ '\x7b' := by
  obtain ⟨d, digits, hdigits⟩ := List.exists_cons_of_ne_nil (Nat.toDigits_ne_nil (n := n) (b := 10))
  have hd : d.isDigit = true :=
    Nat.isDigit_of_mem_toDigits (b := 10) (n := n) (by decide) (by decide) (by simp [hdigits])
  have hne : ∀ c : Char, c.isDigit = false → d ≠ c :=
    fun c hc h => absurd (hd.symm.trans (h ▸ hc)) (by decide)
  refine ⟨d, digits, hdigits, ?_, hne _ rfl, hne _ rfl, hne _ rfl, hne _ rfl⟩
  simp [isBlankChar, hne ' ' rfl, hne '\t' rfl, hne '\n' rfl, hne '\r' rfl]

theorem toString_ofNat (n : Nat) : (toString (Int.ofNat n)).toList = Nat.toDigits 10 n :=
  Nat.toList_repr

theorem toString_negSucc (n : Nat) :
    (toString (Int.negSucc n)).toList = '-' :: Nat.toDigits 10 (n + 1) :=
  String.toList_append.trans (congrArg ('-' :: ·) Nat.toList_repr)

theorem integer_toString (n : Int) (hrest : EndsNumber rest) :
    integer ((toString n).toList ++ rest) = some (n, rest) := by
  cases n with
  | ofNat n =>
    have hnatural := natural_toDigits n hrest
    obtain ⟨d, digits, hdigits, hblank, hsign, -⟩ := exists_toDigits_eq n
    rw [hdigits, List.cons_append] at hnatural
    have hnone : char '-' (d :: (digits ++ rest)) = none := by
      simp [char, satisfy, bind, StateT.bind, hsign]
    rw [toString_ofNat, hdigits, integer, List.cons_append, bind_some (takeWhile_blank hblank),
      orElse_none (bind_none hnone), bind_some hnatural]
    rfl
  | negSucc n =>
    have hsign : char '-' ('-' :: (Nat.toDigits 10 (n + 1) ++ rest)) =
      some ((), Nat.toDigits 10 (n + 1) ++ rest) := rfl
    rw [toString_negSucc, integer, List.cons_append, bind_some (takeWhile_blank rfl)]
    refine orElse_some ?_
    rw [bind_some hsign, bind_some (natural_toDigits (n + 1) hrest)]
    rfl

/-! ### Values -/

theorem group_none {opening closing c : Char} {item : Reader α} (hc : isBlankChar c = false)
    (hne : c ≠ opening) : group opening closing item (c :: rest) = none :=
  bind_none (symbol_ne hc hne)

theorem quotedText_none {c : Char} (hc : isBlankChar c = false) (hne : c ≠ '"') :
    quotedText (c :: rest) = none :=
  bind_none (symbol_ne hc hne)

theorem separated_cons (separator first : List Char) (others : List (List Char)) :
    separated separator (first :: others) = first ++ others.flatMap (separator ++ ·) := by
  induction others generalizing first with
  | nil => simp [separated]
  | cons second others ih => simp [separated, ih]

theorem EndsNumber.cons {c : Char} (hc : c.isDigit = false) (rest : List Char) :
    EndsNumber (c :: rest) := by
  rintro d hd
  cases hd
  exact hc

theorem sepBy_separated {closing : Char} {item : Reader α} {write : α → List Char} {x : α}
    {xs : List α} (hclosing : isBlankChar closing = false ∧ closing ≠ ',' ∧ closing.isDigit = false)
    (hitem : ∀ y ∈ x :: xs, ∀ rest, EndsNumber rest → item (write y ++ rest) = some (y, rest)) :
    sepBy item (symbol ',') (separated [','] ((x :: xs).map write) ++ closing :: rest) =
      some (x :: xs, closing :: rest) := by
  obtain ⟨hx, hxs⟩ := List.forall_mem_cons.1 hitem
  have hmany : many (symbol ',' >>= fun _ => item)
    (xs.flatMap (fun y => [','] ++ write y) ++ closing :: rest) =
      some (xs, closing :: rest) := by
    refine many_flatMap EndsNumber (fun y hy rest hrest => ?_) (fun _ => List.cons_ne_nil _ _)
      (fun _ _ => .cons rfl _) (.cons hclosing.2.2 _)
        (bind_none (symbol_ne hclosing.1 hclosing.2.1))
    rw [List.append_assoc, List.singleton_append, bind_some (symbol_self rfl)]
    exact hxs y hy rest hrest
  -- The first item is followed by a comma or by the bracket.
  have hnext : EndsNumber (xs.flatMap (fun y => [','] ++ write y) ++ closing :: rest) := by
    cases xs with
    | nil => exact .cons hclosing.2.2 _
    | cons y ys => exact .cons rfl _
  rw [List.map_cons, separated_cons, List.flatMap_map, List.append_assoc, sepBy,
    bind_some (hx _ hnext), bind_some hmany]
  rfl

/-- Items between brackets are read back if each of them is. -/
theorem group_separated {opening closing : Char} {item : Reader α} {write : α → List Char}
    {xs : List α} (hopening : isBlankChar opening = false)
    (hclosing : isBlankChar closing = false ∧ closing ≠ ',' ∧ closing.isDigit = false)
    (hitem : ∀ x ∈ xs, ∀ rest, EndsNumber rest → item (write x ++ rest) = some (x, rest))
    (hempty : item (closing :: rest) = none) :
    group opening closing item (opening :: separated [','] (xs.map write) ++ [closing] ++ rest) =
      some (xs, rest) := by
  have hitems : maybe (sepBy item (symbol ','))
    (separated [','] (xs.map write) ++ closing :: rest) =
      some (if xs = [] then none else some xs, closing :: rest) := by
    cases xs with
    | nil =>
      have hnone : sepBy item (symbol ',') (closing :: rest) = none := bind_none hempty
      simp [maybe, separated, hnone]
    | cons x xs => simp only [maybe, sepBy_separated hclosing hitem, reduceCtorEq, if_false]
  rw [List.append_assoc, List.cons_append, List.singleton_append, group,
    bind_some (symbol_self hopening), bind_some hitems, bind_some (symbol_self hclosing.1)]
  cases xs <;> rfl

/-- The value is nested up to a depth. -/
inductive Fits : Nat → JsonValue → Prop
  | number (depth : Nat) (n : Int) : Fits depth (number n)
  | text (depth : Nat) (content : String) : Fits depth (text content)
  | list {depth : Nat} {items : List JsonValue} (h : ∀ item ∈ items, Fits depth item) :
      Fits (depth + 1) (list items)
  | object {depth : Nat} {fields : List (String × JsonValue)}
    (h : ∀ field ∈ fields, Fits depth field.2) : Fits (depth + 1) (object fields)

theorem compactItems_eq (items : List JsonValue) : compactItems items = items.map compact := by
  induction items with
  | nil => rfl
  | cons item rest ih => rw [compactItems, ih, List.map_cons]

theorem compactFields_eq (fields : List (String × JsonValue)) :
    compactFields fields = fields.map compactField := by
  induction fields with
  | nil => rfl
  | cons field rest ih => rw [compactFields, ih, List.map_cons]

theorem value_eq_leaf {c : Char} (hc : isBlankChar c = false) (hlist : c ≠ '[')
    (hobject : c ≠ '\x7b') (depth : Nat) : value depth (c :: rest) = leaf (c :: rest) := by
  cases depth with
  | zero => rfl
  | succ depth =>
    rw [value, orElse_none (map_none (group_none hc hlist)),
      orElse_none (map_none (group_none hc hobject))]

theorem value_number (n : Int) (hrest : EndsNumber rest) (depth : Nat) :
    value depth ((toString n).toList ++ rest) = some (number n, rest) := by
  obtain ⟨d, digits, htext, hblank, hquote, hlist, hobject⟩ : ∃ d digits,
    (toString n).toList = d :: digits ∧
      isBlankChar d = false ∧ d ≠ '"' ∧ d ≠ '[' ∧ d ≠ '\x7b' := by
    cases n with
    | ofNat n =>
      obtain ⟨d, digits, hdigits, hblank, -, hother⟩ := exists_toDigits_eq n
      exact ⟨d, digits, (toString_ofNat n).trans hdigits, hblank, hother⟩
    | negSucc n => exact ⟨'-', _, toString_negSucc n, rfl, by decide, by decide, by decide⟩
  have hread := integer_toString n hrest
  rw [htext, List.cons_append] at hread ⊢
  rw [value_eq_leaf hblank hlist hobject, leaf,
    orElse_none (map_none (quotedText_none hblank hquote)), map_some hread]

theorem value_text (content : String) (rest : List Char) (depth : Nat) :
    value depth (jsonText content ++ rest) = some (text content, rest) :=
  (value_eq_leaf rfl (by decide) (by decide) depth).trans
    (orElse_some (map_some (quotedText_jsonText content rest)))

theorem field_compact {reader : Reader JsonValue} {found : String × JsonValue}
    (h : reader (found.2.compact ++ rest) = some (found.2, rest)) :
    field reader (compactField found ++ rest) = some (found, rest) := by
  rw [compactField, field, List.append_assoc, List.cons_append,
    bind_some (quotedText_jsonText found.1 _), bind_some (symbol_self rfl), bind_some h]
  rfl

/-- A value is read back from what is written of it on one line. -/
theorem value_compact {depth : Nat} {found : JsonValue} (hfits : Fits depth found)
    (hrest : EndsNumber rest) : value depth (found.compact ++ rest) = some (found, rest) := by
  induction hfits generalizing rest with
  | number depth n => exact value_number n hrest depth
  | text depth content => exact value_text content rest depth
  | @list depth items _ ih =>
    have hempty : value depth (']' :: rest) = none :=
      value_eq_leaf rfl (by decide) (by decide) depth
    rw [compact, compactItems_eq]
    exact orElse_some
      (map_some
        (group_separated rfl ⟨rfl, by decide, rfl⟩ (fun item hitem _ => ih item hitem) hempty))
  | @object depth fields _ ih =>
    have hempty : field (value depth) ('\x7d' :: rest) = none :=
      bind_none (quotedText_none rfl (by decide))
    rw [compact, compactFields_eq]
    refine (orElse_none (map_none (group_none rfl (by decide)))).trans (orElse_some (map_some ?_))
    refine group_separated rfl ⟨rfl, by decide, rfl⟩ ?_ hempty
    exact fun entry hentry rest hrest => field_compact (ih entry hentry hrest)

theorem parse_compact {found : JsonValue} (hfits : Fits 128 found) :
    parse found.compact = some found := by
  have hread : value 128 (found.compact ++ []) = some (found, []) :=
    value_compact hfits fun _ hc => by cases hc
  rw [parse, ← List.append_nil found.compact, hread]
  rfl

/-! ### One line -/

theorem lineFeed_not_mem_jsonText (content : String) : '\n' ∉ jsonText content := by
  have hchar : ∀ c, '\n' ∉ jsonChar c := by
    intro c
    unfold jsonChar
    split
    iterate 7 decide
    · next hfeed _ _ =>
      split
      · next hlow =>
        have hdigits : ∀ n < 0x20,
            '\n' ∉ ['\\', 'u', '0', '0', Nat.digitChar (n / 16), Nat.digitChar (n % 16)] := by
          decide
        exact hdigits c.toNat hlow
      · exact fun hmem => hfeed (List.mem_singleton.1 hmem).symm
  simp [jsonText, hchar]

theorem lineFeed_not_mem_toString (n : Int) : '\n' ∉ (toString n).toList := by
  have hdigits : ∀ n, '\n' ∉ Nat.toDigits 10 n := fun n hmem =>
    absurd (Nat.isDigit_of_mem_toDigits (by decide) (by decide) hmem) (by decide)
  cases n with
  | ofNat n => exact toString_ofNat n ▸ hdigits n
  | negSucc n =>
    exact toString_negSucc n ▸ List.not_mem_cons_of_ne_of_not_mem (by decide) (hdigits (n + 1))

theorem lineFeed_not_mem_separated {parts : List (List Char)} (h : ∀ part ∈ parts, '\n' ∉ part) :
    '\n' ∉ separated [','] parts := by
  cases parts with
  | nil => exact List.not_mem_nil
  | cons first others =>
    obtain ⟨hfirst, hothers⟩ := List.forall_mem_cons.1 h
    simpa [separated_cons, hfirst] using hothers

theorem lineFeed_not_mem_compact {depth : Nat} {found : JsonValue} (hfits : Fits depth found) :
    '\n' ∉ found.compact := by
  induction hfits with
  | number depth n => exact lineFeed_not_mem_toString n
  | text depth content => exact lineFeed_not_mem_jsonText content
  | list _ ih =>
    have hitems := lineFeed_not_mem_separated (List.forall_mem_map.2 ih)
    simp [compact, compactItems_eq, hitems]
  | @object depth fields _ ih =>
    have hfields : '\n' ∉ separated [','] (fields.map compactField) := by
      refine lineFeed_not_mem_separated (List.forall_mem_map.2 ?_)
      rintro ⟨key, inner⟩ hentry
      simp [compactField, lineFeed_not_mem_jsonText, ih _ hentry]
    simp [compact, compactFields_eq, hfields]

end PythonLint.JsonValue
