import PythonLint.Proofs.Decoding

/-!
# The bytes that declare an encoding

The encoding of a source is found in its first two lines, and in the first one alone if that holds
code. So the bytes after these lines have no influence on it, whatever they are. A byte order mark
makes no difference to where the lines end, because no line feed is part of it.

Main statements: `declaration?_throughLineFeed`, `declaration?_of_code`, `detectEncoding_local`.
-/

namespace PythonLint

open Text

/-! ### Lines of bytes -/

/-- The bytes up to the line feed with the given number, which is included. They are all bytes if
there are fewer line feeds. -/
def throughLineFeed : Nat → List UInt8 → List UInt8
  | 0, _ => []
  | _ + 1, [] => []
  | n + 1, byte :: rest => byte :: throughLineFeed (if byte = 10 then n else n + 1) rest

/-- The bytes before the first line feed. -/
def firstLine (bytes : List UInt8) : List UInt8 :=
  bytes.takeWhile (· ≠ 10)

/-- Bytes are one line, or go on after the line feed that ends the first one. -/
theorem line_cases (bytes : List UInt8) :
    10 ∉ bytes ∨ ∃ line rest, bytes = line ++ 10 :: rest ∧ 10 ∉ line := by
  by_cases hfeed : 10 ∈ bytes
  · exact .inr (List.eq_append_cons_of_mem hfeed)
  · exact .inl hfeed

theorem firstLine_append {line : List UInt8} (h : 10 ∉ line) (rest : List UInt8) :
    firstLine (line ++ 10 :: rest) = line := by
  have hline : ∀ byte ∈ line, decide (byte ≠ 10) = true := fun byte hmem =>
    decide_eq_true fun hbyte => h (hbyte ▸ hmem)
  rw [firstLine, List.takeWhile_append_of_pos hline, List.takeWhile_cons_of_neg (by simp),
    List.append_nil]

/-- Bytes without a line feed stay in front of what is kept. -/
theorem throughLineFeed_append {line : List UInt8} (h : 10 ∉ line) (n : Nat) (rest : List UInt8) :
    throughLineFeed (n + 1) (line ++ rest) = line ++ throughLineFeed (n + 1) rest := by
  induction line with
  | nil => rfl
  | cons byte line ih =>
    have hbyte := List.ne_of_not_mem_cons h
    rw [List.cons_append, throughLineFeed, if_neg hbyte.symm, ih (List.not_mem_of_not_mem_cons h),
      List.cons_append]

theorem throughLineFeed_of_not_mem {line : List UInt8} (h : 10 ∉ line) (n : Nat) :
    throughLineFeed (n + 1) line = line := by
  have happend := throughLineFeed_append h n []
  rwa [List.append_nil, throughLineFeed, List.append_nil] at happend

theorem throughLineFeed_line {line : List UInt8} (h : 10 ∉ line) (n : Nat) (rest : List UInt8) :
    throughLineFeed (n + 1) (line ++ 10 :: rest) = line ++ 10 :: throughLineFeed n rest := by
  rw [throughLineFeed_append h, throughLineFeed, if_pos rfl]

theorem firstLine_throughLineFeed (n : Nat) (bytes : List UInt8) :
    firstLine (throughLineFeed (n + 1) bytes) = firstLine bytes := by
  rcases line_cases bytes with hline | ⟨line, rest, rfl, hline⟩
  · rw [throughLineFeed_of_not_mem hline]
  · rw [throughLineFeed_line hline, firstLine_append hline, firstLine_append hline]

/-! ### Byte order marks -/

theorem isPrefix_throughLineFeed_iff {start : List UInt8} (h : 10 ∉ start) (n : Nat)
    (bytes : List UInt8) : start <+: throughLineFeed (n + 1) bytes ↔ start <+: bytes := by
  induction start generalizing bytes with
  | nil => simp
  | cons first start ih =>
    have hfirst := List.ne_of_not_mem_cons h
    cases bytes with
    | nil => simp [throughLineFeed]
    | cons byte bytes =>
      rw [throughLineFeed, List.cons_prefix_cons, List.cons_prefix_cons]
      refine and_congr_right fun hbyte => ?_
      rw [← hbyte, if_neg hfirst.symm, ih (List.not_mem_of_not_mem_cons h)]

theorem lineFeed_not_mem_mark : (10 : UInt8) ∉ byteOrderMarkBytes := by decide

theorem hasMark_throughLineFeed (n : Nat) (bytes : List UInt8) :
    hasMark (throughLineFeed (n + 1) bytes) = hasMark bytes := by
  rw [Bool.eq_iff_iff, hasMark_iff, hasMark_iff, isPrefix_throughLineFeed_iff lineFeed_not_mem_mark]

theorem bodyOf_throughLineFeed (n : Nat) (bytes : List UInt8) :
    bodyOf (throughLineFeed (n + 1) bytes) = throughLineFeed (n + 1) (bodyOf bytes) := by
  rw [bodyOf, bodyOf, hasMark_throughLineFeed]
  by_cases hmark : hasMark bytes = true
  · obtain ⟨rest, rfl⟩ := hasMark_iff.1 hmark
    rw [if_pos hmark, if_pos hmark, throughLineFeed_append lineFeed_not_mem_mark]
    rfl
  · rw [if_neg hmark, if_neg hmark]

/-! ### Declarations -/

theorem dropWhile_dropWhile {p q : Char → Bool} (h : ∀ c, p c = true → q c = true)
    (text : List Char) : (text.dropWhile p).dropWhile q = text.dropWhile q := by
  induction text with
  | nil => rfl
  | cons c text ih =>
    by_cases hc : p c = true
    · rw [List.dropWhile_cons_of_pos hc, List.dropWhile_cons_of_pos (h c hc), ih]
    · rw [List.dropWhile_cons_of_neg hc]

theorem isBlankOrComment_of_cookie? {line : List UInt8} {name : String}
    (h : cookie? line = some name) : isBlankOrComment line = true := by
  have hblank : ∀ c, (isCookieBlank c || c == '\x0c') = true → isBlank c = true := by
    intro c hc
    simp only [isCookieBlank, Bool.or_eq_true, beq_iff_eq] at hc
    obtain (rfl | rfl) | rfl := hc <;> decide
  unfold cookie? at h
  split at h
  · next comment hcomment =>
    rw [isBlankOrComment, trimStart, ← dropWhile_dropWhile hblank, hcomment,
      List.dropWhile_cons_of_neg (by decide)]
    rfl
  · cases h

theorem declaration?_line {line : List UInt8} (h : 10 ∉ line) (rest : List UInt8) :
    declaration? (line ++ 10 :: rest) =
      (cookie? line).or (if isBlankOrComment line then cookie? (firstLine rest) else none) := by
  have hfirst := firstLine_append h rest
  have hdrop : (line ++ 10 :: rest).dropWhile (· ≠ 10) = 10 :: rest := by
    have hsplit := List.takeWhile_append_dropWhile (p := (· ≠ 10)) (l := line ++ 10 :: rest)
    rw [← firstLine, hfirst] at hsplit
    exact List.append_cancel_left hsplit
  rw [firstLine] at hfirst
  rw [declaration?, hfirst, hdrop]
  cases cookie? line <;> rfl

/-- What is after the second line declares nothing. -/
theorem declaration?_throughLineFeed (body : List UInt8) :
    declaration? (throughLineFeed 2 body) = declaration? body := by
  rcases line_cases body with hline | ⟨line, rest, rfl, hline⟩
  · rw [throughLineFeed_of_not_mem hline]
  · rw [throughLineFeed_line hline, declaration?_line hline, declaration?_line hline,
      firstLine_throughLineFeed]

/-- After a line of code nothing is declared. -/
theorem declaration?_of_code {body : List UInt8} (h : isBlankOrComment (firstLine body) = false) :
    declaration? body = none := by
  cases hcookie : cookie? (firstLine body) with
  | some name =>
    rw [isBlankOrComment_of_cookie? hcookie] at h
    cases h
  | none =>
    rw [firstLine] at hcookie h
    rw [declaration?, hcookie, h]
    rfl

theorem detectEncoding_congr {a b : List UInt8} (hmark : hasMark a = hasMark b)
    (hdeclared : declaration? (bodyOf a) = declaration? (bodyOf b)) :
    detectEncoding a = detectEncoding b := by
  rw [detectEncoding, detectEncoding, hmark, hdeclared]

/-- Byte strings that are the same up to and including their second line feed have the same encoding
or the same error, and both have a byte order mark or neither has. If the first line, after a byte
order mark, is neither blank nor a comment, it is enough that they are the same up to and including
their first line feed. -/
theorem detectEncoding_local (a b : List UInt8) :
    (throughLineFeed 2 a = throughLineFeed 2 b →
      detectEncoding a = detectEncoding b ∧ hasMark a = hasMark b) ∧
    (throughLineFeed 1 a = throughLineFeed 1 b → isBlankOrComment (firstLine (bodyOf a)) = false →
      detectEncoding a = detectEncoding b ∧ hasMark a = hasMark b) := by
  constructor
  · intro h
    have hmark : hasMark a = hasMark b := by
      rw [← hasMark_throughLineFeed 1 a, h, hasMark_throughLineFeed]
    refine ⟨detectEncoding_congr hmark ?_, hmark⟩
    rw [← declaration?_throughLineFeed (bodyOf a), ← bodyOf_throughLineFeed, h,
      bodyOf_throughLineFeed, declaration?_throughLineFeed]
  · intro h hcode
    have hmark : hasMark a = hasMark b := by
      rw [← hasMark_throughLineFeed 0 a, h, hasMark_throughLineFeed]
    have hline : firstLine (bodyOf b) = firstLine (bodyOf a) := by
      rw [← firstLine_throughLineFeed 0 (bodyOf a), ← bodyOf_throughLineFeed, h,
        bodyOf_throughLineFeed, firstLine_throughLineFeed]
    refine ⟨detectEncoding_congr hmark ?_, hmark⟩
    rw [declaration?_of_code hcode, declaration?_of_code (by rw [hline]; exact hcode)]

/-- A declaration on the second line, after a comment and a byte order mark, before bytes that are
no text. And a declaration after code, which does not count. -/
theorem detectEncoding_local_mark :
    let header : List UInt8 := [0xEF, 0xBB, 0xBF] ++ "#!\n# coding: ascii\n".toUTF8.toList
    let code : List UInt8 := "import os\n".toUTF8.toList
    let declared : List UInt8 := "# coding: ascii\n".toUTF8.toList
    throughLineFeed 2 (header ++ [0xFF, 0xFE]) = throughLineFeed 2 (header ++ declared) ∧
      detectEncoding (header ++ [0xFF, 0xFE]) = detectEncoding (header ++ declared) ∧
      detectEncoding (header ++ declared) = .error (.markConflict "ascii") ∧
      throughLineFeed 1 (code ++ declared) = throughLineFeed 1 (code ++ [0xFF]) ∧
      isBlankOrComment (firstLine (bodyOf (code ++ declared))) = false ∧
      detectEncoding (code ++ declared) = detectEncoding (code ++ [0xFF]) := by
  intro header code declared
  have htwo : throughLineFeed 2 (header ++ [0xFF, 0xFE]) =
    throughLineFeed 2 (header ++ declared) := by decide +kernel
  have hone : throughLineFeed 1 (code ++ declared) = throughLineFeed 1 (code ++ [0xFF]) := by
    decide +kernel
  have hcode : isBlankOrComment (firstLine (bodyOf (code ++ declared))) = false := by decide +kernel
  exact ⟨htwo, ((detectEncoding_local _ _).1 htwo).1, by decide +kernel, hone, hcode,
    ((detectEncoding_local _ _).2 hone hcode).1⟩

end PythonLint
