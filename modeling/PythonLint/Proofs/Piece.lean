import PythonLint.Lexeme.Scan
import PythonLint.Proofs.Result
import Mathlib.Data.List.TakeWhile

/-!
# Single pieces of a source

All that one piece of the scanner can be, by kinds: `IsPiece` lists them, and `isPiece_of_scanPiece`
says that the list is complete. From it come the facts about pieces that runs of the scanner are
built on: a piece takes at least one character and no more than there are, a name or a symbol is
spelled as it stands in the text, and only line ends and joined lines end with the character of a
line end.

Main statements: `isPiece_of_scanPiece`, `IsPiece.size_bounds`, `IsPiece.not_isLineEnd_getLast`.
-/

namespace PythonLint

open Text

variable {c : Char} {rest text : List Char} {base before size : Nat}

/-! ### Characters of names -/

namespace Text

theorem isIdentifierPart_of_isIdentifierStart (h : isIdentifierStart c = true) :
    isIdentifierPart c = true := by
  rw [isIdentifierStart, Bool.or_eq_true] at h
  rw [isIdentifierPart, Bool.or_eq_true]
  rcases h with h | h
  · rw [eq_of_beq h]
    exact .inr (by decide)
  · exact .inl h

end Text

/-! ### Numbers -/

/-- The character can stand in a number. -/
def isNumberChar (c : Char) : Bool :=
  isDigitIn 16 c || c = '_' || c = '.' || isSign c || c = 'x' || c = 'X' || c = 'o' || c =
    'O' || c = 'j' ||
    c = 'J'

theorem isNumberChar_of_isDigitIn (hbase : base ≤ 16) (h : isDigitIn base c = true) :
    isNumberChar c = true := by
  have hdigit : isDigitIn 16 c = true := by
    simp only [isDigitIn, decide_eq_true_eq] at h ⊢
    omega
  simp [isNumberChar, hdigit]

theorem isNumberChar_of_isExponentMark (h : isExponentMark c = true) : isNumberChar c = true := by
  have hcases : c = 'e' ∨ c = 'E' := by simpa [isExponentMark] using h
  rcases hcases with rfl | rfl <;> decide

theorem isNumberChar_of_isSign (h : isSign c = true) : isNumberChar c = true := by
  simp [isNumberChar, h]

theorem digitRun_isPrefix (base : Nat) (text : List Char) : digitRun base text <+: text := by
  induction text with
  | nil => exact List.prefix_refl _
  | cons c rest ih =>
    unfold digitRun
    split
    · exact List.cons_prefix_cons.2 ⟨rfl, ih⟩
    · split
      · exact List.cons_prefix_cons.2 ⟨rfl, ih⟩
      · exact List.nil_prefix

theorem isNumberChar_of_mem_digitRun (hbase : base ≤ 16) (h : c ∈ digitRun base text) :
    isNumberChar c = true := by
  induction text with
  | nil => cases h
  | cons d rest ih =>
    unfold digitRun at h
    split at h
    · next hd =>
      rcases List.mem_cons.1 h with rfl | h
      · exact isNumberChar_of_isDigitIn hbase hd
      · exact ih h
    · split at h
      · next hd =>
        rcases List.mem_cons.1 h with rfl | h
        · simp only [Bool.and_eq_true, decide_eq_true_eq] at hd
          rw [hd.1]
          decide
        · exact ih h
      · cases h

/-- The characters are a number's and stand at the start of the text. -/
def IsNumberPart (part text : List Char) : Prop :=
  part <+: text ∧ ∀ c ∈ part, isNumberChar c = true

theorem isNumberPart_nil (text : List Char) : IsNumberPart [] text :=
  ⟨List.nil_prefix, fun _ h => by cases h⟩

theorem isNumberPart_digitRun (hbase : base ≤ 16) (text : List Char) :
    IsNumberPart (digitRun base text) text :=
  ⟨digitRun_isPrefix base text, fun _ h => isNumberChar_of_mem_digitRun hbase h⟩

theorem IsNumberPart.cons {part : List Char} (hc : isNumberChar c = true)
    (h : IsNumberPart part text) : IsNumberPart (c :: part) (c :: text) := by
  refine ⟨List.cons_prefix_cons.2 ⟨rfl, h.1⟩, fun d hd => ?_⟩
  rcases List.mem_cons.1 hd with rfl | hd
  · exact hc
  · exact h.2 d hd

theorem IsNumberPart.append {a b : List Char} (ha : IsNumberPart a text)
    (hb : IsNumberPart b (text.drop a.length)) : IsNumberPart (a ++ b) text := by
  obtain ⟨rest, rfl⟩ := ha.1
  rw [List.drop_left] at hb
  refine ⟨(List.prefix_append_right_inj a).2 hb.1, fun c hc => ?_⟩
  rcases List.mem_append.1 hc with hc | hc
  · exact ha.2 c hc
  · exact hb.2 c hc

theorem scanFraction_isNumberPart {fraction : List Char}
    (h : scanFraction before text = .ok fraction) : IsNumberPart fraction text := by
  unfold scanFraction at h
  split at h
  · split at h
    · cases h
    · cases h
      exact (isNumberPart_digitRun (by decide) _).cons (by decide)
  · cases h
    exact isNumberPart_nil _

theorem scanExponentDigits_isNumberPart {digits : List Char}
    (h : scanExponentDigits before text = .ok digits) : IsNumberPart digits text := by
  unfold scanExponentDigits at h
  split at h
  · cases h
  · simp only at h
    split at h
    · cases h
    · cases h
      exact isNumberPart_digitRun (by decide) _

theorem scanExponent_isNumberPart {exponent : List Char}
    (h : scanExponent before text = .ok exponent) : IsNumberPart exponent text := by
  unfold scanExponent at h
  split at h
  · cases h
    exact isNumberPart_nil _
  · next e rest =>
    split at h
    · next hmark =>
      have hmark := isNumberChar_of_isExponentMark hmark
      split at h
      · next sign digits =>
        split at h
        · next hsign =>
          obtain ⟨run, hrun, rfl⟩ := exists_of_map_eq_ok h
          exact ((scanExponentDigits_isNumberPart hrun).cons (isNumberChar_of_isSign hsign)).cons
            hmark
        · obtain ⟨run, hrun, rfl⟩ := exists_of_map_eq_ok h
          exact (scanExponentDigits_isNumberPart hrun).cons hmark
      · cases h
    · cases h
      exact isNumberPart_nil _

/-- A number takes its digits, and one more character when it is imaginary. -/
theorem numberTok_isNumberPart (real : Decimal → Tok) (value : Decimal) {part : List Char}
    (hpart : IsNumberPart part text) :
    ∃ whole, IsNumberPart whole text ∧ part.length ≤ whole.length ∧
      (numberTok real value part.length (text.drop part.length)).2 = whole.length := by
  unfold numberTok
  split
  · next c tail hdrop =>
    split
    · next hj =>
      refine ⟨part ++ [c], hpart.append ?_, ?_, ?_⟩
      · rw [hdrop]
        refine (isNumberPart_nil tail).cons ?_
        rcases hj with rfl | rfl <;> decide
      · rw [List.length_append]
        omega
      · rw [List.length_append, List.length_singleton]
    · exact ⟨part, hpart, Nat.le_refl _, rfl⟩
  · exact ⟨part, hpart, Nat.le_refl _, rfl⟩

theorem scanFloat_isNumberPart {whole : List Char} {result : Tok × Nat}
    (hwhole : IsNumberPart whole text) (h : scanFloat whole (text.drop whole.length) = .ok result)
    (hdot : whole ≠ [] ∨ (text.drop whole.length).head? = some '.') :
    ∃ part, IsNumberPart part text ∧ result.2 = part.length ∧ part ≠ [] := by
  obtain ⟨fraction, hfraction, h⟩ := exists_of_bind_eq_ok h
  obtain ⟨exponent, hexponent, h⟩ := exists_of_bind_eq_ok h
  cases h
  have hfirst := hwhole.append (scanFraction_isNumberPart hfraction)
  have hsecond := scanExponent_isNumberPart hexponent
  rw [List.drop_drop, ← List.length_append] at hsecond
  have hall := hfirst.append hsecond
  have hlength : whole.length + fraction.length + exponent.length =
      (whole ++ fraction ++ exponent).length := by
    simp only [List.length_append]
  rw [List.drop_drop, ← Nat.add_assoc, hlength]
  obtain ⟨part, hpart, hle, hsize⟩ := numberTok_isNumberPart .float
    (decimalOf whole fraction exponent) hall
  refine ⟨part, hpart, hsize, ?_⟩
  rintro rfl
  rw [List.length_nil, Nat.le_zero, List.length_eq_zero_iff] at hle
  simp only [List.append_eq_nil_iff] at hle
  rcases hdot with hdot | hdot
  · exact hdot hle.1.1
  · cases hrest : text.drop whole.length with
    | nil =>
      rw [hrest] at hdot
      cases hdot
    | cons c rest =>
      rw [hrest, List.head?_cons, Option.some.injEq] at hdot
      rw [hrest, hdot, scanFraction] at hfraction
      split at hfraction
      · cases hfraction
      · cases hfraction
        exact absurd hle.1.2 (List.cons_ne_nil _ _)

theorem announcedBase_eq_some (h : announcedBase text = some base) :
    base ≤ 16 ∧ ∃ c rest, text = '0' :: c :: rest ∧ isNumberChar c = true := by
  unfold announcedBase at h
  split at h
  · next c rest =>
    split at h
    · next hc =>
      cases h
      exact ⟨by decide, c, rest, rfl, by rcases hc with rfl | rfl <;> decide⟩
    split at h
    · next hc =>
      cases h
      exact ⟨by decide, c, rest, rfl, by rcases hc with rfl | rfl <;> decide⟩
    split at h
    · next hc =>
      cases h
      exact ⟨by decide, c, rest, rfl, by rcases hc with rfl | rfl <;> decide⟩
    · cases h
  · cases h

/-- A number starts with a digit, or with a point. -/
theorem digitRun_ne_nil_or_dot
    (hstart : text.head?.any (isDigitIn 10) = true ∨ text.head? = some '.') :
    digitRun 10 text ≠ [] ∨ (text.drop (digitRun 10 text).length).head? = some '.' := by
  cases text with
  | nil => rcases hstart with h | h <;> cases h
  | cons c rest =>
    simp only [List.head?_cons, Option.any_some, Option.some.injEq] at hstart
    rcases hstart with hdigit | rfl
    · left
      rw [digitRun, if_pos hdigit]
      exact List.cons_ne_nil _ _
    · right
      rfl

/-- A number takes characters of numbers, at least one. -/
theorem scanNumber_isNumberPart {result : Tok × Nat} (h : scanNumber text = .ok result)
    (hstart : text.head?.any (isDigitIn 10) = true ∨ text.head? = some '.') :
    ∃ part, IsNumberPart part text ∧ result.2 = part.length ∧ part ≠ [] := by
  unfold scanNumber at h
  split at h
  · next base hbase =>
    obtain ⟨hbound, c, rest, rfl, hc⟩ := announcedBase_eq_some hbase
    simp only at h
    split at h
    · cases h
    · cases h
      refine ⟨'0' :: c :: digitRun base rest, ?_, ?_, List.cons_ne_nil _ _⟩
      · exact ((isNumberPart_digitRun hbound rest).cons hc).cons (by decide)
      · simp only [List.drop_succ_cons, List.drop_zero, List.length_cons]
        omega
  · have hwhole := isNumberPart_digitRun (show 10 ≤ 16 by decide) text
    have hdot := digitRun_ne_nil_or_dot hstart
    simp only at h
    split at h
    · exact scanFloat_isNumberPart hwhole h hdot
    · next hplain =>
      split at h
      · cases h
      · cases h
        obtain ⟨part, hpart, hle, hsize⟩ := numberTok_isNumberPart
          (fun _ => .int (digitsValue 10 (digitRun 10 text)))
            ⟨digitsValue 10 (digitRun 10 text), 0⟩ hwhole
        refine ⟨part, hpart, hsize, ?_⟩
        rintro rfl
        rw [List.length_nil, Nat.le_zero, List.length_eq_zero_iff] at hle
        rcases hdot with hdot | hdot
        · exact hdot hle
        · simp [hdot] at hplain

/-- A number is whole, has a fraction or an exponent, or is imaginary. -/
theorem tok_of_scanNumber {result : Tok × Nat} (h : scanNumber text = .ok result) :
    (∃ value, result.1 = .int value) ∨ (∃ value, result.1 = .float value) ∨
      ∃ value, result.1 = .complex value := by
  have hnumberTok : ∀ (real : Decimal → Tok) (value : Decimal) (size : Nat) (rest : List Char),
      (numberTok real value size rest).1 = real value ∨
        (numberTok real value size rest).1 = .complex value := by
    intro real value size rest
    unfold numberTok
    split
    · split
      · exact .inr rfl
      · exact .inl rfl
    · exact .inl rfl
  unfold scanNumber at h
  split at h
  · simp only at h
    split at h
    · cases h
    · cases h
      exact .inl ⟨_, rfl⟩
  · simp only at h
    split at h
    · unfold scanFloat at h
      obtain ⟨fraction, -, htail⟩ := exists_of_bind_eq_ok h
      obtain ⟨exponent, -, hreal⟩ := exists_of_bind_eq_ok htail
      cases hreal
      rcases hnumberTok .float _ _ _ with hreal | hreal
      · exact .inr (.inl ⟨_, hreal⟩)
      · exact .inr (.inr ⟨_, hreal⟩)
    · split at h
      · cases h
      · cases h
        rcases hnumberTok (fun _ => .int _) _ _ _ with hreal | hreal
        · exact .inl ⟨_, hreal⟩
        · exact .inr (.inr ⟨_, hreal⟩)

/-! ### String literals -/

theorem withContent_eq_ok {chars content : List Char}
    {scanned : Except (Fault × Nat) (List Char × Nat)}
    (h : withContent chars scanned = .ok (content, size)) : ∃ rest, scanned = .ok (rest, size) := by
  unfold withContent at h
  split at h
  · cases h
    exact ⟨_, rfl⟩
  · cases h

/-- The closing quote of a body is the last of the characters up to `size`, `before` of which
precede the text. -/
def ClosesAt (quote : Char) (text : List Char) (before size : Nat) : Prop :=
  ∃ body rest, text = body ++ quote :: rest ∧ size = before + body.length + 1

theorem ClosesAt.append {quote : Char} (taken : List Char)
    (h : ClosesAt quote text (before + taken.length) size) :
    ClosesAt quote (taken ++ text) before size := by
  obtain ⟨body, rest, rfl, rfl⟩ := h
  refine ⟨taken ++ body, rest, by rw [List.append_assoc], ?_⟩
  rw [List.length_append]
  omega

theorem scanBody_closesAt {quote : Char} {triple : Bool} {content : List Char}
    (h : scanBody quote triple text before = .ok (content, size)) :
    ClosesAt quote text before size := by
  fun_induction scanBody quote triple text before generalizing content size with
  | case1 => cases h
  | case2 rest before ih =>
    obtain ⟨_, h⟩ := withContent_eq_ok h
    exact (ih h).append ['\\', '\r', '\n']
  | case3 c rest before _ ih =>
    obtain ⟨_, h⟩ := withContent_eq_ok h
    exact (ih h).append ['\\', c]
  | case4 rest before _ ih =>
    obtain ⟨_, h⟩ := withContent_eq_ok h
    exact (ih h).append ['\r', '\n']
  | case5 => cases h
  | case6 c rest before _ _ _ _ _ ih =>
    obtain ⟨_, h⟩ := withContent_eq_ok h
    exact (ih h).append [c]
  | case7 => cases h
  | case8 rest before =>
    cases h
    exact ⟨[], rest, rfl, rfl⟩
  | case9 rest before _ hclose =>
    cases h
    obtain ⟨tail, rfl⟩ : ∃ tail, rest = [quote, quote] ++ tail :=
      ⟨rest.drop 2, by rw [← hclose, List.take_append_drop]⟩
    exact ⟨[quote, quote], tail, rfl, rfl⟩
  | case10 rest before _ _ _ _ _ _ ih =>
    obtain ⟨_, h⟩ := withContent_eq_ok h
    exact (ih h).append [quote]
  | case11 c rest before _ _ _ _ _ ih =>
    obtain ⟨_, h⟩ := withContent_eq_ok h
    exact (ih h).append [c]

/-- A literal starts with at most two letters and a quote. -/
theorem literalStart?_eq_some {form : LiteralForm} {raw : Bool} {letters : Nat}
    (h : literalStart? text = some (form, raw, letters)) :
    letters ≤ 2 ∧ ∃ quote rest, text.drop letters = quote :: rest ∧ isQuote quote = true := by
  unfold literalStart? at h
  split at h
  · next c d e rest =>
    split at h
    · next hquote =>
      cases h
      exact ⟨by omega, c, d :: e :: rest, rfl, hquote⟩
    split at h
    · next hquote =>
      obtain ⟨_, -, hmap⟩ := Option.map_eq_some_iff.1 h
      cases hmap
      exact ⟨by omega, d, e :: rest, rfl, hquote⟩
    split at h
    · next hquote =>
      obtain ⟨_, -, hmap⟩ := Option.map_eq_some_iff.1 h
      cases hmap
      exact ⟨by omega, e, rest, rfl, hquote⟩
    · cases h
  · next c d =>
    split at h
    · next hquote =>
      cases h
      exact ⟨by omega, c, [d], rfl, hquote⟩
    split at h
    · next hquote =>
      obtain ⟨_, -, hmap⟩ := Option.map_eq_some_iff.1 h
      cases hmap
      exact ⟨by omega, d, [], rfl, hquote⟩
    · cases h
  · next c =>
    split at h
    · next hquote =>
      cases h
      exact ⟨by omega, c, [], rfl, hquote⟩
    · cases h
  · cases h

/-- No literal starts with a character that is neither a quote nor one of the letters before
quotes. -/
theorem literalStart?_eq_none (hquote : isQuote c = false) (hone : letterKind? c = none)
    (htwo : ∀ d, lettersKind? c d = none) (rest : List Char) :
    literalStart? (c :: rest) = none := by
  unfold literalStart?
  split
  · next heq =>
    obtain ⟨rfl, -⟩ := List.cons.inj heq
    simp [hquote, hone, htwo]
  · next heq =>
    obtain ⟨rfl, -⟩ := List.cons.inj heq
    simp [hquote, hone]
  · next heq =>
    obtain ⟨rfl, -⟩ := List.cons.inj heq
    simp [hquote]
  · next heq => cases heq

/-- A literal is a string and ends with the quote that it starts with. -/
theorem scanLiteral_eq_ok {form : LiteralForm} {raw : Bool} {letters : Nat} {tok : Tok}
    (h : scanLiteral form raw letters text = .ok (tok, size)) :
    (∃ literal, tok = .string literal) ∧
      ∃ opening quote, letters < opening ∧ (text.drop letters).headD '"' = quote ∧
        ClosesAt quote (text.drop opening) opening size := by
  obtain ⟨⟨content, size⟩, hbody, heq⟩ := exists_of_map_eq_ok h
  cases heq
  refine ⟨⟨_, rfl⟩, _, _, ?_, rfl, scanBody_closesAt hbody⟩
  split <;> omega

/-! ### Kinds of pieces -/

/-- What can stand at the start of the text `c :: rest`, inside `depth` brackets: the token that it
yields, if any, and its length. -/
inductive IsPiece (depth : Nat) (c : Char) (rest : List Char) : Option Tok → Nat → Prop
  | literal {form : LiteralForm} {raw : Bool} {letters : Nat} {tok : Tok} {size : Nat}
      (hletters : literalStart? (c :: rest) = some (form, raw, letters))
      (hscan : scanLiteral form raw letters (c :: rest) = .ok (tok, size)) :
      IsPiece depth c rest (some tok) size
  | word (hletters : literalStart? (c :: rest) = none) (hc : isIdentifierStart c = true) :
      IsPiece depth c rest (some (wordTok (String.ofList ((c :: rest).takeWhile isIdentifierPart))))
        ((c :: rest).takeWhile isIdentifierPart).length
  | emoji (hletters : literalStart? (c :: rest) = none) (hword : isIdentifierStart c = false)
      (hc : isEmoji c = true) : IsPiece depth c rest (some (.name (String.ofList [c]))) 1
  | number (hletters : literalStart? (c :: rest) = none) (hword : isIdentifierStart c = false)
      (hemoji : isEmoji c = false)
      (hc : (isDigitIn 10 c || c = '.' && rest.head?.any (isDigitIn 10)) = true) {tok : Tok}
      {size : Nat} (hscan : scanNumber (c :: rest) = .ok (tok, size)) :
      IsPiece depth c rest (some tok) size
  | comment (hletters : literalStart? (c :: rest) = none) (hc : c = '#') :
      IsPiece depth c rest none ((c :: rest).takeWhile (!isLineEnd ·)).length
  | newline (hletters : literalStart? (c :: rest) = none) (hc : isLineEnd c = true)
      (hdepth : depth = 0) : IsPiece depth c rest (some .newline) (lineEndSize (c :: rest))
  | lineBreak (hletters : literalStart? (c :: rest) = none) (hc : isLineEnd c = true)
      (hdepth : depth ≠ 0) : IsPiece depth c rest none (lineEndSize (c :: rest))
  | spacing (hletters : literalStart? (c :: rest) = none) (hc : isSpacing c = true) :
      IsPiece depth c rest none ((c :: rest).takeWhile isSpacing).length
  /-- A backslash before a line end. -/
  | joined (hletters : literalStart? (c :: rest) = none) (hc : c = '\\') {size : Nat}
      (hscan : scanContinuation rest = .ok size) : IsPiece depth c rest none size
  | symbol (hletters : literalStart? (c :: rest) = none) {text : String}
      (hc : (isDigitIn 10 c || c = '.' && rest.head?.any (isDigitIn 10)) = false)
      (hscan : scanSymbol? (c :: rest) = some text) (hdepth : isClosing text = true → depth ≠ 0) :
      IsPiece depth c rest (some (.symbol text)) text.length

theorem isPiece_of_scanPiece {depth : Nat} {tok : Option Tok}
    (h : scanPiece depth c rest = .ok (tok, size)) : IsPiece depth c rest tok size := by
  unfold scanPiece at h
  simp only at h
  split at h
  · next form raw letters hletters =>
    obtain ⟨⟨tok, size⟩, hscan, heq⟩ := exists_of_map_eq_ok h
    cases heq
    exact .literal hletters hscan
  · next hletters =>
    split at h
    · next hc =>
      cases h
      exact .word hletters hc
    next hword =>
    split at h
    · next hc =>
      cases h
      exact .emoji hletters (by simpa using hword) hc
    next hemoji =>
    split at h
    · next hc =>
      obtain ⟨⟨tok, size⟩, hscan, heq⟩ := exists_of_map_eq_ok h
      cases heq
      exact .number hletters (by simpa using hword) (by simpa using hemoji) hc hscan
    next hnumber =>
    split at h
    · next hc =>
      cases h
      exact .comment hletters hc
    split at h
    · next hc =>
      split at h
      · next hdepth =>
        cases h
        exact .newline hletters hc hdepth
      · next hdepth =>
        cases h
        exact .lineBreak hletters hc hdepth
    split at h
    · next hc =>
      cases h
      exact .spacing hletters hc
    split at h
    · next hc =>
      obtain ⟨size, hscan, heq⟩ := exists_of_map_eq_ok h
      cases heq
      exact .joined hletters hc hscan
    split at h
    · next symbol hscan =>
      split at h
      · cases h
      · next hopen =>
        cases h
        refine .symbol hletters (by simpa using hnumber) hscan fun hclosing hdepth => ?_
        simp [hclosing, hdepth] at hopen
    · cases h

/-! ### Lengths -/

theorem isLineEnd_iff : isLineEnd c = true ↔ c = '\n' ∨ c = '\r' := by
  simp [isLineEnd]

theorem not_isLineEnd_of {p : Char → Bool} (hfeed : p '\n' = false) (hreturn : p '\r' = false)
    (hc : p c = true) : isLineEnd c = false := by
  by_contra h
  rcases isLineEnd_iff.1 (by simpa using h) with rfl | rfl
  · rw [hfeed] at hc
    cases hc
  · rw [hreturn] at hc
    cases hc

theorem lineEndSize_cases (hc : isLineEnd c = true) (rest : List Char) :
    lineEndSize (c :: rest) = 1 ∨
      lineEndSize (c :: rest) = 2 ∧ c = '\r' ∧ ∃ tail, rest = '\n' :: tail := by
  unfold lineEndSize
  split
  · next tail heq =>
    obtain ⟨rfl, rfl⟩ := List.cons.inj heq
    exact .inr ⟨rfl, rfl, tail, rfl⟩
  · next d _ _ heq =>
    obtain ⟨rfl, rfl⟩ := List.cons.inj heq
    rw [if_pos hc]
    exact .inl rfl
  · next heq => cases heq

theorem lineEndSize_pos_iff :
    lineEndSize text ≠ 0 ↔ ∃ c rest, text = c :: rest ∧ isLineEnd c = true := by
  cases text with
  | nil => simp [lineEndSize]
  | cons c rest =>
    constructor
    · intro h
      refine ⟨c, rest, rfl, ?_⟩
      by_contra hc
      unfold lineEndSize at h
      split at h
      · next heq =>
        obtain ⟨rfl, -⟩ := List.cons.inj heq
        exact hc rfl
      · next heq =>
        obtain ⟨rfl, -⟩ := List.cons.inj heq
        rw [if_neg hc] at h
        exact h rfl
      · next heq => cases heq
    · rintro ⟨d, tail, heq, hd⟩
      obtain ⟨rfl, rfl⟩ := List.cons.inj heq
      rcases lineEndSize_cases hd rest with h | ⟨h, -⟩ <;> omega

theorem lineEndSize_le (text : List Char) : lineEndSize text ≤ text.length := by
  by_cases hzero : lineEndSize text = 0
  · omega
  · obtain ⟨c, rest, rfl, hc⟩ := lineEndSize_pos_iff.1 hzero
    rcases lineEndSize_cases hc rest with h | ⟨h, -, tail, rfl⟩
    · rw [h, List.length_cons]
      omega
    · rw [h, List.length_cons, List.length_cons]
      omega

theorem scanContinuation_eq_ok (h : scanContinuation rest = .ok size) :
    size = 1 + lineEndSize rest ∧ lineEndSize rest ≠ 0 ∧ rest.drop (lineEndSize rest) ≠ [] := by
  unfold scanContinuation at h
  simp only at h
  split at h
  · cases h
  · next hpos =>
    split at h
    · cases h
    · next hmore =>
      cases h
      exact ⟨rfl, hpos, by simpa using hmore⟩

theorem mem_symbols_of_scanSymbol? {symbol : String} (h : scanSymbol? text = some symbol) :
    symbol ∈ symbols ∧ symbol.toList <+: text := by
  refine ⟨List.mem_of_find?_eq_some h, ?_⟩
  have hspelled := List.find?_some h
  simpa using hspelled

theorem symbol_length_pos : ∀ symbol ∈ symbols, 1 ≤ symbol.length := by decide

theorem not_isLineEnd_of_mem_symbol :
    ∀ symbol ∈ symbols, ∀ d ∈ symbol.toList, isLineEnd d = false := by
  have hall : (symbols.all fun symbol => symbol.toList.all fun d => !isLineEnd d) =
    true := by decide
  intro symbol hsymbol d hd
  simpa using List.all_eq_true.1 (List.all_eq_true.1 hall symbol hsymbol) d hd

theorem head_mem_symbol {symbol : String} (hmem : symbol ∈ symbols)
    (hspelled : symbol.toList <+: c :: rest) : c ∈ symbol.toList := by
  have hpos := symbol_length_pos symbol hmem
  rw [← String.length_toList] at hpos
  cases hsymbol : symbol.toList with
  | nil =>
    rw [hsymbol] at hpos
    cases hpos
  | cons d tail =>
    rw [hsymbol] at hspelled
    rw [(List.cons_prefix_cons.1 hspelled).1]
    exact List.mem_cons_self

theorem takeWhile_length_pos {p : Char → Bool} (hc : p c = true) (rest : List Char) :
    0 < ((c :: rest).takeWhile p).length := by
  rw [List.takeWhile_cons_of_pos hc, List.length_cons]
  omega

namespace IsPiece

variable {depth : Nat} {c : Char} {rest : List Char} {tok : Option Tok} {size : Nat}

theorem number_start (hc : (isDigitIn 10 c || c = '.' && rest.head?.any (isDigitIn 10)) = true) :
    (c :: rest).head?.any (isDigitIn 10) = true ∨ (c :: rest).head? = some '.' := by
  rw [Bool.or_eq_true, Bool.and_eq_true, decide_eq_true_eq] at hc
  rcases hc with hc | ⟨rfl, -⟩
  · exact .inl hc
  · exact .inr rfl

/-- A piece takes at least one character, and no more than there are. -/
theorem size_bounds (h : IsPiece depth c rest tok size) : 1 ≤ size ∧ size ≤ (c :: rest).length := by
  cases h with
  | literal _ hscan =>
    obtain ⟨-, opening, quote, hopening, -, body, tail, hdrop, hsize⟩ := scanLiteral_eq_ok hscan
    have hlength := congrArg List.length hdrop
    simp only [List.length_drop, List.length_append, List.length_cons] at hlength ⊢
    omega
  | word _ hc =>
    exact ⟨takeWhile_length_pos (isIdentifierPart_of_isIdentifierStart hc) rest,
      (List.takeWhile_prefix _).length_le⟩
  | emoji => exact ⟨Nat.le_refl 1, by simp⟩
  | number _ _ _ hc hscan =>
    obtain ⟨part, hpart, hsize, hne⟩ := scanNumber_isNumberPart hscan (number_start hc)
    have hpos := List.length_pos_iff.2 hne
    have hle := hpart.1.length_le
    simp only at hsize
    omega
  | comment _ hc =>
    refine ⟨takeWhile_length_pos ?_ rest, (List.takeWhile_prefix _).length_le⟩
    rw [hc]
    decide
  | newline _ hc =>
    refine ⟨?_, lineEndSize_le _⟩
    rcases lineEndSize_cases hc rest with h | ⟨h, -⟩ <;> omega
  | lineBreak _ hc =>
    refine ⟨?_, lineEndSize_le _⟩
    rcases lineEndSize_cases hc rest with h | ⟨h, -⟩ <;> omega
  | spacing _ hc => exact ⟨takeWhile_length_pos hc rest, (List.takeWhile_prefix _).length_le⟩
  | joined _ _ hscan =>
    obtain ⟨hsize, -, -⟩ := scanContinuation_eq_ok hscan
    have hle := lineEndSize_le rest
    rw [List.length_cons]
    omega
  | symbol _ _ hscan =>
    obtain ⟨hmem, hspelled⟩ := mem_symbols_of_scanSymbol? hscan
    exact ⟨symbol_length_pos _ hmem, hspelled.length_le⟩

theorem text_cases {tok : Tok} (h : IsPiece depth c rest (some tok) size) {text : String}
    (htok : tok = .name text ∨ tok = .keyword text ∨ tok = .symbol text) :
    (tok = wordTok text ∧ text.toList = (c :: rest).takeWhile isIdentifierPart ∧
      size = text.toList.length) ∨ (text.toList = [c] ∧ isEmoji c = true ∧ size = 1) ∨
      (scanSymbol? (c :: rest) = some text ∧ tok = .symbol text ∧ size = text.length) := by
  cases h with
  | literal _ hscan =>
    obtain ⟨⟨literal, rfl⟩, -⟩ := scanLiteral_eq_ok hscan
    rcases htok with h | h | h <;> cases h
  | word =>
    have hword : text = String.ofList ((c :: rest).takeWhile isIdentifierPart) := by
      unfold wordTok at htok
      split at htok <;> rcases htok with h | h | h <;> cases h <;> rfl
    rw [hword, String.toList_ofList]
    exact .inl ⟨rfl, rfl, rfl⟩
  | emoji _ _ hc =>
    have hword : text = String.ofList [c] := by
      rcases htok with h | h | h <;> cases h
      rfl
    exact .inr (.inl ⟨by rw [hword, String.toList_ofList], hc, rfl⟩)
  | number _ _ _ _ hscan =>
    rcases tok_of_scanNumber hscan with ⟨value, h⟩ | ⟨value, h⟩ | ⟨value, h⟩ <;>
      simp only at h <;> rw [h] at htok <;> rcases htok with h | h | h <;> cases h
  | newline => rcases htok with h | h | h <;> cases h
  | symbol _ _ hscan =>
    rcases htok with h | h | h <;> cases h
    exact .inr (.inr ⟨hscan, rfl, rfl⟩)

theorem spelling {tok : Tok} (h : IsPiece depth c rest (some tok) size) {text : String}
    (htok : tok = .name text ∨ tok = .keyword text ∨ tok = .symbol text) :
    (c :: rest).take size = text.toList := by
  rcases h.text_cases htok with ⟨-, hword, rfl⟩ | ⟨hword, -, rfl⟩ | ⟨hscan, -, rfl⟩
  · rw [hword]
    exact ((List.prefix_iff_eq_take).1 (List.takeWhile_prefix _)).symm
  · rw [hword]
    rfl
  · exact ((List.prefix_iff_eq_take).1 (mem_symbols_of_scanSymbol? hscan).2).symm

/-- Only a line end ends with the character of a line end, and a joined line, which never ends the
text. -/
theorem not_isLineEnd_getLast (h : IsPiece depth c rest tok size) (hline : isLineEnd c = false)
    (hjoined : c = '\\' → (c :: rest).drop size = []) {d : Char}
    (hd : ((c :: rest).take size).getLast? = some d) : isLineEnd d = false := by
  have hmem := List.mem_of_getLast? hd
  cases h with
  | literal hletters hscan =>
    obtain ⟨-, opening, quote, -, hquote, body, tail, hdrop, hsize⟩ := scanLiteral_eq_ok hscan
    obtain ⟨-, first, others, hfirst, hisQuote⟩ := literalStart?_eq_some hletters
    rw [hfirst, List.headD_cons] at hquote
    have htake : (c :: rest).take size = (c :: rest).take opening ++ body ++ [quote] := by
      rw [hsize, Nat.add_assoc, List.take_add, hdrop, List.append_assoc,
        List.take_length_add_append]
      rfl
    rw [htake, List.getLast?_concat, Option.some.injEq] at hd
    rw [← hd, ← hquote]
    exact not_isLineEnd_of rfl rfl hisQuote
  | word _ hc =>
    rw [← (List.prefix_iff_eq_take).1 (List.takeWhile_prefix _)] at hmem
    exact not_isLineEnd_of (by decide) (by decide) (List.mem_takeWhile_imp hmem)
  | emoji _ _ hc =>
    rw [List.take_succ_cons, List.take_zero, List.mem_singleton] at hmem
    rw [hmem]
    exact not_isLineEnd_of (by decide) (by decide) hc
  | number _ _ _ hc hscan =>
    obtain ⟨part, hpart, hsize, -⟩ := scanNumber_isNumberPart hscan (number_start hc)
    simp only at hsize
    rw [hsize, ← (List.prefix_iff_eq_take).1 hpart.1] at hmem
    exact not_isLineEnd_of (by decide) (by decide) (hpart.2 d hmem)
  | comment =>
    rw [← (List.prefix_iff_eq_take).1 (List.takeWhile_prefix _)] at hmem
    simpa using List.mem_takeWhile_imp hmem
  | newline _ hc =>
    rw [hline] at hc
    cases hc
  | lineBreak _ hc =>
    rw [hline] at hc
    cases hc
  | spacing =>
    rw [← (List.prefix_iff_eq_take).1 (List.takeWhile_prefix _)] at hmem
    exact not_isLineEnd_of (by decide) (by decide) (List.mem_takeWhile_imp hmem)
  | joined _ hc hscan =>
    obtain ⟨hsize, -, hmore⟩ := scanContinuation_eq_ok hscan
    refine absurd ?_ hmore
    have hend := hjoined hc
    rw [hsize, Nat.add_comm, List.drop_succ_cons] at hend
    exact hend
  | symbol _ _ hscan =>
    obtain ⟨hsymbol, hspelled⟩ := mem_symbols_of_scanSymbol? hscan
    rw [← String.length_toList, ← (List.prefix_iff_eq_take).1 hspelled] at hmem
    exact not_isLineEnd_of_mem_symbol _ hsymbol d hmem

/-- A line end is read as a whole. It ends the statement outside brackets and yields nothing
inside. -/
theorem of_isLineEnd (h : IsPiece depth c rest tok size) (hline : isLineEnd c = true) :
    size = lineEndSize (c :: rest) ∧
      (depth = 0 ∧ tok = some .newline ∨ depth ≠ 0 ∧ tok = none) := by
  have hcases := isLineEnd_iff.1 hline
  cases h with
  | literal hletters _ =>
    have hnone : literalStart? (c :: rest) = none := by
      rcases hcases with rfl | rfl <;> exact literalStart?_eq_none rfl rfl (fun _ => rfl) rest
    rw [hnone] at hletters
    cases hletters
  | word _ hc => rcases hcases with rfl | rfl <;> exact absurd hc (by decide)
  | emoji _ _ hc => rcases hcases with rfl | rfl <;> exact absurd hc (by decide)
  | number _ _ _ hc _ =>
    rcases hcases with rfl | rfl <;> simp [isDigitIn, digitValue] at hc
  | comment _ hc => rcases hcases with rfl | rfl <;> exact absurd hc (by decide)
  | newline _ _ hdepth => exact ⟨rfl, .inl ⟨hdepth, rfl⟩⟩
  | lineBreak _ _ hdepth => exact ⟨rfl, .inr ⟨hdepth, rfl⟩⟩
  | spacing _ hc => rcases hcases with rfl | rfl <;> exact absurd hc (by decide)
  | joined _ hc _ => rcases hcases with rfl | rfl <;> exact absurd hc (by decide)
  | symbol _ _ hscan =>
    obtain ⟨hsymbol, hspelled⟩ := mem_symbols_of_scanSymbol? hscan
    have hc := not_isLineEnd_of_mem_symbol _ hsymbol c (head_mem_symbol hsymbol hspelled)
    rw [hline] at hc
    cases hc

end IsPiece

/-- Outside brackets a line end always ends the statement. -/
theorem scanPiece_lineEnd {e : Char} (he : isLineEnd e = true) (rest : List Char) :
    scanPiece 0 e rest = .ok (some .newline, lineEndSize (e :: rest)) := by
  have hcases := isLineEnd_iff.1 he
  have hletters : literalStart? (e :: rest) = none := by
    rcases hcases with rfl | rfl <;> exact literalStart?_eq_none rfl rfl (fun _ => rfl) rest
  have hword : isIdentifierStart e = false := by rcases hcases with rfl | rfl <;> decide
  have hemoji : isEmoji e = false := by rcases hcases with rfl | rfl <;> decide
  have hdigit : isDigitIn 10 e = false := by rcases hcases with rfl | rfl <;> decide
  have hother : e ≠ '.' ∧ e ≠ '#' := by rcases hcases with rfl | rfl <;> decide
  simp [scanPiece, hletters, hword, hemoji, hdigit, hother, he]

end PythonLint
