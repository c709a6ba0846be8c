import PythonLint.Proofs.ScanRun
import Mathlib.Data.List.Find

/-!
# What a piece depends on

A piece is read with a look at the characters after it: a number stops where no digit follows, a
symbol where no longer one does. How far a reader looks is bounded by the next character that
belongs to no number, to no symbol and to no letters before a quote. A line end is such a character,
and so are most letters, such as the `p` of `print`. A piece that ends before it is the same
whatever follows it.

Main statements: `isStop_of_isLineEnd`, `scanPiece_stop`, `readMargin_congr`.
-/

namespace PythonLint

open Text

variable {triple : Bool} {c quote stop : Char} {content l u : List Char} {before size : Nat}

/-- The character belongs to no number, to no symbol, and neither to the quotes of a literal nor to
the letters before them. -/
structure IsStop (stop : Char) : Prop where
  not_number : isNumberChar stop = false
  not_mem_symbol : ∀ symbol ∈ symbols, stop ∉ symbol.toList
  not_quote : isQuote stop = false
  not_letter : ∀ c, lettersKind? c stop = none

namespace IsStop

variable {stop : Char}

theorem ne_of_isNumberChar (h : IsStop stop) (hc : isNumberChar c = true) : stop ≠ c := by
  rintro rfl
  rw [h.not_number] at hc
  cases hc

theorem isDigitIn_eq_false (h : IsStop stop) {base : Nat} (hbase : base ≤ 16) :
    isDigitIn base stop = false := by
  by_contra hdigit
  have hnumber := isNumberChar_of_isDigitIn hbase (by simpa using hdigit)
  rw [h.not_number] at hnumber
  cases hnumber

theorem isSign_eq_false (h : IsStop stop) : isSign stop = false := by
  by_contra hsign
  have hnumber := isNumberChar_of_isSign (by simpa using hsign)
  rw [h.not_number] at hnumber
  cases hnumber

theorem isExponentMark_eq_false (h : IsStop stop) : isExponentMark stop = false := by
  by_contra hmark
  have hnumber := isNumberChar_of_isExponentMark (by simpa using hmark)
  rw [h.not_number] at hnumber
  cases hnumber

end IsStop

/-- No reader looks past a line end. -/
theorem isStop_of_isLineEnd (hc : isLineEnd c = true) : IsStop c := by
  refine ⟨?_, fun symbol hmem hsymbol => ?_, ?_, fun d => ?_⟩
  · rcases isLineEnd_iff.1 hc with rfl | rfl <;> rfl
  · rw [not_isLineEnd_of_mem_symbol symbol hmem c hsymbol] at hc
    cases hc
  · rcases isLineEnd_iff.1 hc with rfl | rfl <;> rfl
  · unfold lettersKind?
    rcases isLineEnd_iff.1 hc with rfl | rfl <;> split <;> simp_all

/-- What a reader gives does not depend on what follows the character. -/
def StopsAt {α : Type} (stop : Char) (reader : List Char → α) : Prop :=
  ∀ l u v, reader (l ++ stop :: u) = reader (l ++ stop :: v)

theorem stopsAt_head? (stop : Char) : StopsAt stop (List.head? : List Char → Option Char) := by
  intro l u v
  cases l <;> rfl

/-! ### Numbers -/

theorem scanFraction_of_ne_point (hc : c ≠ '.') (before : Nat) (rest : List Char) :
    scanFraction before (c :: rest) = .ok [] := by
  unfold scanFraction
  split
  · next heq => exact absurd (List.cons.inj heq).1 hc
  · rfl

theorem scanExponent_of_not_mark {e : Char} (he : isExponentMark e = false) (before : Nat)
    (rest : List Char) : scanExponent before (e :: rest) = .ok [] := by
  unfold scanExponent
  simp [he]

theorem stopsAt_numberTok (stop : Char) (real : Decimal → Tok) (value : Decimal) (size : Nat) :
    StopsAt stop (numberTok real value size) := by
  intro l u v
  cases l <;> rfl

section Numbers

variable {stop : Char} (hstop : IsStop stop)

include hstop

theorem digitRun_stop (base : Nat) (hbase : base ≤ 16) (l u v : List Char) :
    digitRun base (l ++ stop :: u) = digitRun base (l ++ stop :: v) ∧
    digitRun base (l ++ stop :: u) <+: l := by
  induction l with
  | nil =>
    have hnil : ∀ u, digitRun base (stop :: u) = [] := by
      intro u
      have hne : stop ≠ '_' := hstop.ne_of_isNumberChar rfl
      rw [digitRun, hstop.isDigitIn_eq_false hbase, if_neg Bool.false_ne_true,
        if_neg (by simp [hne])]
    rw [List.nil_append, List.nil_append, hnil u, hnil v]
    exact ⟨rfl, List.prefix_refl _⟩
  | cons c l ih =>
    rw [List.cons_append, List.cons_append, digitRun, digitRun, stopsAt_head? stop l u v, ih.1]
    refine ⟨rfl, ?_⟩
    rw [← ih.1]
    split
    · exact List.prefix_cons_inj c |>.2 ih.2
    split
    · exact List.prefix_cons_inj c |>.2 ih.2
    · exact List.nil_prefix

theorem drop_digitRun (base : Nat) (hbase : base ≤ 16) (l u : List Char) :
    ∃ l', ∀ v, (l ++ stop :: v).drop (digitRun base (l ++ stop :: u)).length = l' ++ stop :: v := by
  have hle := (digitRun_stop hstop base hbase l u u).2.length_le
  refine ⟨l.drop (digitRun base (l ++ stop :: u)).length, fun v => ?_⟩
  rw [List.drop_append_of_le_length hle]

theorem stopsAt_startsExponent : StopsAt stop startsExponent := by
  intro l u v
  match l with
  | [] =>
    have hnone : ∀ u, startsExponent (stop :: u) = false := by
      intro u
      cases u with
      | nil => rfl
      | cons c u => rw [startsExponent, hstop.isExponentMark_eq_false, Bool.false_and]
    rw [List.nil_append, List.nil_append, hnone, hnone]
  | [e] => simp [startsExponent, hstop.isDigitIn_eq_false, hstop.isSign_eq_false]
  | e :: c :: l =>
    simp only [List.cons_append, startsExponent, stopsAt_head? stop l u v]

theorem scanFraction_stop (before : Nat) (l u v : List Char) :
    scanFraction before (l ++ stop :: u) = scanFraction before (l ++ stop :: v) ∧
      ∀ fraction, scanFraction before (l ++ stop :: u) = .ok fraction →
        fraction.length ≤ l.length := by
  cases l with
  | nil =>
    have hnone := scanFraction_of_ne_point (hstop.ne_of_isNumberChar rfl) before
    rw [List.nil_append, List.nil_append, hnone, hnone]
    refine ⟨rfl, fun fraction h => ?_⟩
    cases h
    exact Nat.le_refl _
  | cons c l =>
    obtain ⟨hsame, hpart⟩ := digitRun_stop hstop 10 (by omega) l u v
    by_cases hc : c = '.'
    · subst hc
      rw [List.cons_append, List.cons_append, scanFraction, scanFraction,
        stopsAt_head? stop l u v, hsame]
      refine ⟨rfl, fun fraction h => ?_⟩
      split at h
      · cases h
      · cases h
        rw [← hsame, List.length_cons, List.length_cons]
        have := hpart.length_le
        omega
    · have hnone := scanFraction_of_ne_point hc before
      rw [List.cons_append, List.cons_append, hnone, hnone]
      refine ⟨rfl, fun fraction h => ?_⟩
      cases h
      exact Nat.zero_le _

theorem scanExponentDigits_stop (before : Nat) (l u v : List Char) :
    scanExponentDigits before (l ++ stop :: u) = scanExponentDigits before (l ++ stop :: v) ∧
      ∀ digits, scanExponentDigits before (l ++ stop :: u) = .ok digits →
        digits.length ≤ l.length := by
  obtain ⟨hsame, hpart⟩ := digitRun_stop hstop 10 (by omega) l u v
  unfold scanExponentDigits
  rw [stopsAt_head? stop l u v, ← hsame]
  refine ⟨rfl, fun digits h => ?_⟩
  split at h
  · cases h
  simp only at h
  split at h
  · cases h
  · cases h
    exact hpart.length_le

theorem scanExponent_stop (before : Nat) (l u v : List Char) :
    scanExponent before (l ++ stop :: u) = scanExponent before (l ++ stop :: v) ∧
      ∀ exponent, scanExponent before (l ++ stop :: u) = .ok exponent →
        exponent.length ≤ l.length := by
  match l with
  | [] =>
    have hnone := scanExponent_of_not_mark hstop.isExponentMark_eq_false before
    rw [List.nil_append, List.nil_append, hnone, hnone]
    refine ⟨rfl, fun exponent h => ?_⟩
    cases h
    exact Nat.le_refl _
  | [e] =>
    -- The character is no sign and no digit, so that none follow the mark.
    have hmissing : ∀ u, scanExponent before (e :: stop :: u) =
        if isExponentMark e = true then .error (.missingExponent, before + 1) else .ok [] := by
      intro u
      have hdigits := (digitRun_stop hstop 10 (by omega) [] u u).2
      rw [List.prefix_nil, List.nil_append] at hdigits
      have hne : stop ≠ '_' := hstop.ne_of_isNumberChar rfl
      rw [scanExponent, hstop.isSign_eq_false, if_neg Bool.false_ne_true]
      simp [scanExponentDigits, hdigits, hne, Except.map]
    rw [List.singleton_append, List.singleton_append, hmissing, hmissing]
    refine ⟨rfl, fun exponent h => ?_⟩
    split at h
    · cases h
    · cases h
      exact Nat.zero_le _
  | e :: sign :: l =>
    rw [List.cons_append, List.cons_append, List.cons_append, List.cons_append, scanExponent,
      scanExponent]
    by_cases he : isExponentMark e = true
    · rw [if_pos he, if_pos he]
      by_cases hsign : isSign sign = true
      · obtain ⟨hsame, hpart⟩ := scanExponentDigits_stop hstop (before + 2) l u v
        rw [if_pos hsign, if_pos hsign, ← hsame]
        refine ⟨rfl, fun exponent h => ?_⟩
        obtain ⟨digits, hdigits, rfl⟩ := exists_of_map_eq_ok h
        have := hpart digits hdigits
        simp only [List.length_cons]
        omega
      · obtain ⟨hsame, hpart⟩ := scanExponentDigits_stop hstop (before + 1) (sign :: l) u v
        rw [if_neg hsign, if_neg hsign, ← List.cons_append, ← List.cons_append, ← hsame]
        refine ⟨rfl, fun exponent h => ?_⟩
        obtain ⟨digits, hdigits, rfl⟩ := exists_of_map_eq_ok h
        have := hpart digits hdigits
        simp only [List.length_cons] at this ⊢
        omega
    · rw [if_neg he, if_neg he]
      refine ⟨rfl, fun exponent h => ?_⟩
      cases h
      exact Nat.zero_le _

theorem stopsAt_scanFloat (whole : List Char) : StopsAt stop (scanFloat whole) := by
  intro l u v
  obtain ⟨hfraction, hle⟩ := scanFraction_stop hstop whole.length l u v
  unfold scanFloat
  rw [← hfraction]
  cases hread : scanFraction whole.length (l ++ stop :: u) with
  | error => rfl
  | ok fraction =>
    have hfit := hle fraction hread
    obtain ⟨hexponent, hle⟩ :=
      scanExponent_stop hstop (whole.length + fraction.length) (l.drop fraction.length) u v
    have hdrop : ∀ v, (l ++ stop :: v).drop fraction.length = l.drop fraction.length ++ stop :: v :=
      fun v => List.drop_append_of_le_length hfit
    simp only [bind, Except.bind]
    rw [hdrop, hdrop, ← hexponent]
    cases hread : scanExponent (whole.length + fraction.length)
      (l.drop fraction.length ++ stop :: u) with
    | error => rfl
    | ok exponent =>
      have hfits := hle exponent hread
      rw [List.length_drop] at hfits
      have hdrop : ∀ v, (l ++ stop :: v).drop (fraction.length + exponent.length) =
          l.drop (fraction.length + exponent.length) ++ stop :: v :=
        fun v => List.drop_append_of_le_length (by omega)
      simp only [hdrop]
      rw [stopsAt_numberTok stop _ _ _ _ u v]

/-- A base is announced by two characters, both of which come before. -/
theorem announcedBase_stop (l u v : List Char) :
    announcedBase (l ++ stop :: u) = announcedBase (l ++ stop :: v) ∧
      (announcedBase (l ++ stop :: u) ≠ none → 2 ≤ l.length) := by
  match l with
  | [] =>
    have hnone : ∀ u, announcedBase (stop :: u) = none := by
      intro u
      unfold announcedBase
      split
      · next heq => exact absurd (List.cons.inj heq).1 (hstop.ne_of_isNumberChar rfl)
      · rfl
    rw [List.nil_append, List.nil_append, hnone, hnone]
    exact ⟨rfl, fun h => absurd rfl h⟩
  | [c] =>
    have hnone : ∀ u, announcedBase (c :: stop :: u) = none := by
      intro u
      have hne : ∀ {d : Char}, isNumberChar d = true → stop ≠ d := hstop.ne_of_isNumberChar
      unfold announcedBase
      split
      · next heq =>
        obtain ⟨-, heq⟩ := List.cons.inj heq
        obtain ⟨rfl, -⟩ := List.cons.inj heq
        simp [hne (d := 'x') rfl, hne (d := 'X') rfl, hne (d := 'o') rfl, hne (d := 'O') rfl,
          hne (d := 'b') rfl, hne (d := 'B') rfl]
      · rfl
    rw [List.singleton_append, List.singleton_append, hnone, hnone]
    exact ⟨rfl, fun h => absurd rfl h⟩
  | c :: d :: l =>
    refine ⟨?_, fun _ => by simp only [List.length_cons]; omega⟩
    simp only [List.cons_append]
    unfold announcedBase
    by_cases hc : c = '0'
    · subst hc
      rfl
    · split
      · next heq => exact absurd (List.cons.inj heq).1 hc
      · split
        · next heq => exact absurd (List.cons.inj heq).1 hc
        · rfl

theorem stopsAt_scanNumber : StopsAt stop scanNumber := by
  intro l u v
  obtain ⟨hbase, htwo⟩ := announcedBase_stop hstop l u v
  unfold scanNumber
  rw [← hbase]
  cases hannounced : announcedBase (l ++ stop :: u) with
  | some base =>
    have hlength := htwo (by simp [hannounced])
    simp only [List.drop_append_of_le_length hlength]
    rw [(digitRun_stop hstop base (announcedBase_eq_some hannounced).1 (l.drop 2) u v).1]
  | none =>
    obtain ⟨l', hdrop⟩ := drop_digitRun hstop 10 (by omega) l u
    simp only
    rw [← (digitRun_stop hstop 10 (by omega) l u v).1, hdrop, hdrop, stopsAt_head? stop l' u v,
      stopsAt_head? stop l u v, stopsAt_startsExponent hstop l' u v,
      stopsAt_scanFloat hstop _ l' u v, stopsAt_numberTok stop _ _ _ l' u v]

end Numbers

/-! ### Symbols and line ends -/

theorem isPrefixOf_stop {symbol : List Char} (h : stop ∉ symbol) (l u v : List Char) :
    symbol.isPrefixOf (l ++ stop :: u) = symbol.isPrefixOf (l ++ stop :: v) := by
  induction l generalizing symbol with
  | nil =>
    cases symbol with
    | nil => rfl
    | cons c symbol =>
      have hc : (c == stop) = false := beq_eq_false_iff_ne.2 fun hc => h (by simp [hc])
      simp [List.isPrefixOf, hc]
  | cons d l ih =>
    cases symbol with
    | nil => rfl
    | cons c symbol =>
      rw [List.cons_append, List.cons_append, List.isPrefixOf, List.isPrefixOf,
        ih fun hmem => h (List.mem_cons_of_mem _ hmem)]

theorem stopsAt_scanSymbol? (hstop : IsStop stop) : StopsAt stop scanSymbol? := by
  intro l u v
  unfold scanSymbol?
  refine List.find?_congr fun symbol hmem => ?_
  exact isPrefixOf_stop (hstop.not_mem_symbol symbol hmem) l u v

theorem lineEndSize_cons (c : Char) (rest : List Char) :
    lineEndSize (c :: rest) =
      if c = '\r' ∧ rest.head? = some '\n' then 2 else if isLineEnd c then 1 else 0 := by
  unfold lineEndSize
  split
  · next tail heq =>
    obtain ⟨hc, htail⟩ := List.cons.inj heq
    rw [if_pos ⟨hc, by rw [htail]; rfl⟩]
  · next hother heq =>
    obtain ⟨rfl, rfl⟩ := List.cons.inj heq
    have hnot : ¬(c = '\r' ∧ rest.head? = some '\n') := by
      rintro ⟨hc, hhead⟩
      obtain ⟨tail, htail⟩ := List.head?_eq_some_iff.1 hhead
      exact hother tail hc htail
    rw [if_neg hnot]
  · next heq => cases heq

/-- How long a line end is depends on the character after it. -/
theorem lineEndSize_stop (stop c : Char) (l u v : List Char) :
    lineEndSize (c :: (l ++ stop :: u)) = lineEndSize (c :: (l ++ stop :: v)) := by
  rw [lineEndSize_cons, lineEndSize_cons, stopsAt_head? stop l u v]

/-- A backslash joins the same line, if the line end after it comes before. -/
theorem scanContinuation_stop (h : scanContinuation (l ++ stop :: u) = .ok size)
    (hsize : size ≤ l.length + 1) (v : List Char) :
    scanContinuation (l ++ stop :: v) = .ok size := by
  obtain ⟨rfl, hpos, -⟩ := scanContinuation_eq_ok h
  cases l with
  | nil =>
    rw [List.length_nil] at hsize
    omega
  | cons c l =>
    have hsame : lineEndSize (c :: l ++ stop :: v) = lineEndSize (c :: l ++ stop :: u) :=
      lineEndSize_stop stop c l v u
    have hmore : ((c :: l ++ stop :: v).drop (lineEndSize (c :: l ++ stop :: u))).isEmpty =
        false := by
      rw [List.drop_append_of_le_length (by omega)]
      simp
    unfold scanContinuation
    rw [hsame]
    simp only [hpos, hmore, if_false, Bool.false_eq_true]

/-- A run of characters that ends before a character does not depend on what follows it. -/
theorem takeWhile_before {p : Char → Bool} (h : ((l ++ stop :: u).takeWhile p).length ≤ l.length)
    (v : List Char) : (l ++ stop :: v).takeWhile p = (l ++ stop :: u).takeWhile p := by
  induction l with
  | nil =>
    have hp : p stop = false := by
      by_contra hp
      rw [Bool.not_eq_false] at hp
      rw [List.nil_append, List.takeWhile_cons_of_pos hp] at h
      cases h
    rw [List.nil_append, List.nil_append, List.takeWhile_cons_of_neg (by simp [hp]),
      List.takeWhile_cons_of_neg (by simp [hp])]
  | cons c l ih =>
    by_cases hc : p c = true
    · rw [List.cons_append, List.takeWhile_cons_of_pos hc, List.length_cons, List.length_cons] at h
      rw [List.cons_append, List.cons_append, List.takeWhile_cons_of_pos hc,
        List.takeWhile_cons_of_pos hc, ih (Nat.le_of_succ_le_succ h)]
    · rw [List.cons_append, List.cons_append, List.takeWhile_cons_of_neg hc,
        List.takeWhile_cons_of_neg hc]

/-! ### String literals -/

theorem withContent_ok {chars : List Char} {scanned : Except (Fault × Nat) (List Char × Nat)}
    (h : withContent chars scanned = .ok (content, size)) :
    ∃ rest, scanned = .ok (rest, size) ∧ content = chars ++ rest := by
  unfold withContent at h
  split at h
  · cases h
    exact ⟨_, rfl, rfl⟩
  · cases h

theorem quote_ne (h : isQuote quote = true) : quote ≠ '\\' ∧ quote ≠ '\r' ∧ quote ≠ '\n' := by
  refine ⟨?_, ?_, ?_⟩ <;> rintro rfl <;> revert h <;> decide

/-- A body starts the text, up to its closing quotes, and is the same whatever follows them. -/
def StartsWithBody (quote : Char) (triple : Bool) (text : List Char) (before size : Nat)
    (content : List Char) : Prop :=
  ∃ taken rest, text = taken ++ rest ∧ size = before + taken.length ∧
    (if triple then 3 else 1) ≤ taken.length ∧
    ∀ rest, scanBody quote triple (taken ++ rest) before = .ok (content, size)

/-- The first characters of a body are read before the rest of it. -/
theorem StartsWithBody.append {text : List Char} (first chars : List Char)
    (h : StartsWithBody quote triple text (before + first.length) size content)
    (hfirst : ∀ c taken, c :: taken <+: text → (triple = true → 2 ≤ taken.length) → ∀ rest,
      scanBody quote triple (first ++ (c :: taken ++ rest)) before =
        withContent chars (scanBody quote triple (c :: taken ++ rest) (before + first.length))) :
    StartsWithBody quote triple (first ++ text) before size (chars ++ content) := by
  obtain ⟨taken, rest, rfl, rfl, hlength, hbody⟩ := h
  refine ⟨first ++ taken, rest, by rw [List.append_assoc], ?_, ?_, fun rest' => ?_⟩
  · rw [List.length_append]
    omega
  · rw [List.length_append]
    omega
  · cases taken with
    | nil =>
      rw [List.length_nil] at hlength
      split at hlength <;> omega
    | cons c taken =>
      have htwo : triple = true → 2 ≤ taken.length := by
        intro htriple
        rw [if_pos htriple, List.length_cons] at hlength
        omega
      rw [List.append_assoc, hfirst c taken (List.prefix_append _ _) htwo, hbody rest', withContent]

/-- A character that escapes nothing and is not the first of two that end a line is read alone. -/
theorem scanBody_cons {rest : List Char} (hback : c ≠ '\\')
    (hreturn : c = '\r' → rest.head? ≠ some '\n') (before : Nat) :
    scanBody quote triple (c :: rest) before =
      if c = '\n' ∨ c = '\r' then
        if triple then withContent ['\n'] (scanBody quote triple rest (before + 1))
        else .error (.lineEndInString, before + 1)
      else if c = quote then
        if !triple then .ok ([], before + 1)
        else if rest.take 2 = [quote, quote] then .ok ([], before + 3)
        else withContent [c] (scanBody quote triple rest (before + 1))
      else withContent [c] (scanBody quote triple rest (before + 1)) := by
  rw [scanBody]
  · intro _ hc _
    exact hback hc
  · intro _ _ hc _
    exact hback hc
  · intro rest' hc heq
    exact hreturn hc (by rw [heq]; rfl)

theorem startsWithBody_of_scanBody (hquote : isQuote quote = true) {text : List Char}
    (h : scanBody quote triple text before = .ok (content, size)) :
    StartsWithBody quote triple text before size content := by
  fun_induction scanBody quote triple text before generalizing content size with
  | case1 => cases h
  | case2 tail before ih =>
    obtain ⟨content, hcontent, rfl⟩ := withContent_ok h
    exact (ih hcontent).append ['\\', '\r', '\n'] ['\\', '\n'] fun _ _ _ _ _ => rfl
  | case3 c tail before hother ih =>
    obtain ⟨content, hcontent, rfl⟩ := withContent_ok h
    refine (ih hcontent).append ['\\', c] _ fun d taken hpart _ rest => ?_
    obtain ⟨more, rfl⟩ := hpart
    rw [List.cons_append, List.singleton_append, scanBody]
    · rfl
    · intro rest' hc heq
      exact hother (taken ++ more) hc (by rw [List.cons_append, (List.cons.inj heq).1])
  | case4 tail before htriple ih =>
    obtain ⟨content, hcontent, rfl⟩ := withContent_ok h
    refine (ih hcontent).append ['\r', '\n'] _ fun d taken hpart _ rest => ?_
    rw [List.cons_append, List.singleton_append, scanBody, if_pos htriple]
    rfl
  | case5 => cases h
  | case6 c tail before _ hback hreturn hc htriple ih =>
    obtain ⟨content, hcontent, rfl⟩ := withContent_ok h
    refine (ih hcontent).append [c] _ fun d taken hpart _ rest => ?_
    obtain ⟨more, rfl⟩ := hpart
    rw [List.singleton_append, scanBody_cons (fun hc => hback d _ hc rfl), if_pos hc,
      if_pos htriple]
    · rfl
    · intro hc heq
      exact hreturn (taken ++ more) hc (by rw [← Option.some.inj heq]; rfl)
  | case7 => cases h
  | case8 tail before hsingle =>
    cases h
    refine ⟨[quote], tail, rfl, rfl, ?_, fun rest => ?_⟩
    · simp at hsingle
      simp [hsingle]
    · obtain ⟨hback, hreturn, hfeed⟩ := quote_ne hquote
      rw [List.singleton_append, scanBody_cons hback (fun hc => absurd hc hreturn),
        if_neg (by rintro (hc | hc) <;> contradiction), if_pos rfl, if_pos hsingle]
  | case9 tail before hsingle hclose =>
    cases h
    obtain ⟨tail, rfl⟩ : ∃ more, tail = [quote, quote] ++ more :=
      ⟨tail.drop 2, by rw [← hclose, List.take_append_drop]⟩
    refine ⟨[quote, quote, quote], tail, rfl, rfl, ?_, fun rest => ?_⟩
    · split <;> simp
    · obtain ⟨hback, hreturn, hfeed⟩ := quote_ne hquote
      rw [List.cons_append, scanBody_cons hback (fun hc => absurd hc hreturn),
        if_neg (by rintro (hc | hc) <;> contradiction), if_pos rfl, if_neg hsingle,
        if_pos (show List.take 2 ([quote, quote] ++ rest) = [quote, quote] from rfl)]
  | case10 tail before hsingle hopen _ _ _ hline ih =>
    obtain ⟨content, hcontent, rfl⟩ := withContent_ok h
    obtain ⟨hback, hreturn, -⟩ := quote_ne hquote
    refine (ih hcontent).append [quote] _ fun d taken hpart htwo rest => ?_
    -- Both characters after the quote belong to the body.
    have htake : (d :: taken ++ rest).take 2 ≠ [quote, quote] := by
      have hlength : 2 ≤ (d :: taken).length := by
        have := htwo (by simpa using hsingle)
        rw [List.length_cons]
        omega
      obtain ⟨more, rfl⟩ := hpart
      rw [List.take_append_of_le_length hlength] at hopen ⊢
      exact hopen
    rw [List.singleton_append, scanBody_cons hback (fun hc => absurd hc hreturn), if_neg hline,
      if_pos rfl, if_neg hsingle, if_neg htake]
    rfl
  | case11 c tail before _ hback hreturn hline hc ih =>
    obtain ⟨content, hcontent, rfl⟩ := withContent_ok h
    refine (ih hcontent).append [c] _ fun d taken hpart _ rest => ?_
    obtain ⟨more, rfl⟩ := hpart
    rw [List.singleton_append, scanBody_cons (fun hc => hback d _ hc rfl), if_neg hline, if_neg hc]
    · rfl
    · intro hc heq
      exact hreturn (taken ++ more) hc (by rw [← Option.some.inj heq]; rfl)

theorem literalStart?_stop (hstop : IsStop stop) (c : Char) (l u v : List Char) :
    literalStart? (c :: (l ++ stop :: u)) = literalStart? (c :: (l ++ stop :: v)) := by
  match l with
  | [] =>
    -- Neither a quote nor letters before one go on here.
    have hnone : ∀ u, literalStart? (c :: stop :: u) = if isQuote c then some (.text, false, 0)
        else none := by
      intro u
      cases u <;> simp [literalStart?, hstop.not_quote, hstop.not_letter]
    rw [List.nil_append, List.nil_append, hnone, hnone]
  | [d] => rfl
  | d :: e :: l => rfl

/-- A literal that ends before a character does not depend on what follows it. -/
theorem scanLiteral_stop {form : LiteralForm} {raw : Bool} {letters : Nat} {tok : Tok}
    (hquote : isQuote (((l ++ stop :: u).drop letters).headD '"') = true)
    (h : scanLiteral form raw letters (l ++ stop :: u) = .ok (tok, size)) (hsize : size ≤ l.length)
    (v : List Char) : scanLiteral form raw letters (l ++ stop :: v) = .ok (tok, size) := by
  unfold scanLiteral at h ⊢
  simp only at h ⊢
  obtain ⟨⟨content, size⟩, hscan, heq⟩ := exists_of_map_eq_ok h
  cases heq
  obtain ⟨taken, rest, htaken, hlength, hmany, hbody⟩ := startsWithBody_of_scanBody hquote hscan
  -- The literal is longer than its letters and quotes, all of which come before.
  have hletters : letters + 2 ≤ l.length := by
    split at hmany <;> split at hlength <;> omega
  have hdrop : ∀ {count : Nat}, count ≤ l.length → ∀ v,
      (l ++ stop :: v).drop count = l.drop count ++ stop :: v :=
    fun hcount v => List.drop_append_of_le_length hcount
  have hhead : ((l ++ stop :: v).drop letters).headD '"' =
      ((l ++ stop :: u).drop letters).headD '"' := by
    rw [hdrop (by omega), hdrop (by omega)]
    cases l.drop letters <;> rfl
  have htriple : ((l ++ stop :: v).drop (letters + 1)).take 2 =
      ((l ++ stop :: u).drop (letters + 1)).take 2 := by
    have hne : l.drop (letters + 1) ≠ [] := by
      rw [Ne, List.drop_eq_nil_iff]
      omega
    rw [hdrop (by omega), hdrop (by omega)]
    match l.drop (letters + 1), hne with
    | [c], _ => rfl
    | c :: d :: l, _ => rfl
  rw [hhead, htriple]
  generalize hopening : (if ((l ++ stop :: u).drop (letters + 1)).take 2 =
    [((l ++ stop :: u).drop letters).headD '"', ((l ++ stop :: u).drop letters).headD '"'] then 3
    else 1) = opening at *
  have hfits : letters + opening ≤ l.length := by omega
  rw [hdrop hfits] at htaken ⊢
  obtain ⟨gap, hgap⟩ : taken <+: l.drop (letters + opening) := by
    refine List.prefix_of_prefix_length_le ⟨rest, htaken.symm⟩ (List.prefix_append _ _) ?_
    rw [List.length_drop]
    omega
  rw [← hgap, List.append_assoc, hbody]
  rfl

/-! ### Pieces -/

/-- A piece that ends before a character that no reader looks past is the same whatever follows
it. -/
theorem scanPiece_stop (hstop : IsStop stop) {depth : Nat} {tok : Option Tok}
    (h : scanPiece depth c (l ++ stop :: u) = .ok (tok, size)) (hsize : size ≤ l.length + 1)
    (v : List Char) : scanPiece depth c (l ++ stop :: v) = .ok (tok, size) := by
  unfold scanPiece at h ⊢
  simp only at h ⊢
  rw [← literalStart?_stop hstop c l u v]
  cases hletters : literalStart? (c :: (l ++ stop :: u)) with
  | some start =>
    obtain ⟨form, raw, letters⟩ := start
    rw [hletters] at h
    obtain ⟨⟨tok, size⟩, hscan, heq⟩ := exists_of_map_eq_ok h
    cases heq
    have hquote : isQuote (((c :: l ++ stop :: u).drop letters).headD '"') = true := by
      obtain ⟨-, quote, rest, hdrop, hquote⟩ := literalStart?_eq_some hletters
      rw [List.cons_append, hdrop]
      exact hquote
    have hliteral := scanLiteral_stop hquote hscan hsize v
    rw [List.cons_append] at hliteral
    simp only [hliteral]
    rfl
  | none =>
    rw [hletters] at h
    simp only at h ⊢
    by_cases hword : isIdentifierStart c = true
    · rw [if_pos hword] at h ⊢
      cases h
      rw [← List.cons_append, takeWhile_before hsize, List.cons_append]
    by_cases hemoji : isEmoji c = true
    · rw [if_neg hword, if_pos hemoji] at h ⊢
      exact h
    rw [if_neg hword, if_neg hemoji, ← stopsAt_head? stop l u v] at ⊢
    rw [if_neg hword, if_neg hemoji] at h
    by_cases hnumber : (isDigitIn 10 c || c = '.' && (l ++ stop :: u).head?.any (isDigitIn 10)) =
      true
    · rw [if_pos hnumber] at h ⊢
      rw [← List.cons_append, stopsAt_scanNumber hstop (c :: l) v u]
      exact h
    rw [if_neg hnumber] at h ⊢
    by_cases hcomment : c = '#'
    · rw [if_pos hcomment] at h ⊢
      cases h
      rw [← List.cons_append, takeWhile_before hsize, List.cons_append]
    rw [if_neg hcomment] at h ⊢
    by_cases hline : isLineEnd c = true
    · rw [if_pos hline] at h ⊢
      rw [lineEndSize_stop stop c l v u]
      exact h
    rw [if_neg hline] at h ⊢
    by_cases hspacing : isSpacing c = true
    · rw [if_pos hspacing] at h ⊢
      cases h
      rw [← List.cons_append, takeWhile_before hsize, List.cons_append]
    rw [if_neg hspacing] at h ⊢
    by_cases hjoined : c = '\\'
    · rw [if_pos hjoined] at h ⊢
      obtain ⟨size, hscan, heq⟩ := exists_of_map_eq_ok h
      cases heq
      rw [scanContinuation_stop hscan hsize v]
      rfl
    rw [if_neg hjoined] at h ⊢
    rw [← List.cons_append, stopsAt_scanSymbol? hstop (c :: l) v u]
    exact h

/-! ### Margins -/

/-- A margin that ends before code is the same whatever follows the first character of that code. -/
theorem readMargin_congr {comment : Bool} {start level : Level} {margin a b : List Char}
    (ha : a ≠ [])
    (h : readMargin comment start before (margin ++ a) = .ok (level, before + margin.length))
    (hab : a.head? = b.head?) :
    readMargin comment start before (margin ++ b) = .ok (level, before + margin.length) := by
  induction margin generalizing comment start before with
  | nil =>
    cases a with
    | nil => exact absurd rfl ha
    | cons c a =>
      obtain ⟨b, rfl⟩ := List.head?_eq_some_iff.1 hab.symm
      rw [List.nil_append] at h ⊢
      rcases readMargin_cons h with ⟨rfl, hline, hspacing, hcomment, hstop⟩ | ⟨comment',
        level', -, hrest⟩
      · rw [readMargin_code hline hspacing hcomment, hstop]
      · have hsize := (readMargin_size hrest).1
        rw [List.length_nil] at hsize
        omega
  | cons c margin ih =>
    rcases readMargin_cons h with ⟨-, -, -, -, hstop⟩ | ⟨comment', level', hstep, hrest⟩
    · have hsize := congrArg Prod.snd hstop
      rw [List.length_cons] at hsize
      simp only at hsize
      omega
    · rw [List.length_cons, Nat.add_comm margin.length, ← Nat.add_assoc] at hrest ⊢
      rw [List.cons_append, hstep.readMargin_eq]
      exact ih hrest

end PythonLint
