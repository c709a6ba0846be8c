import PythonLint.PrintMask
import PythonLint.Proofs.ScanRun

/-!
# What a blanked statement reads as

A print statement is replaced by `pass` and blanks, and the line ends in it are escaped. The scanner
passes over blanks and escaped line ends, so that it finds nothing but the word `pass`. A line end
can only be escaped when a character of the statement stands before it on its line and when a line
feed belongs to it. Any other line end stays as it is, and ends the statement too early.

Main statements: `scanFrom_blankStatement`, `scanFrom_interrupted`.
-/

namespace PythonLint

open Text

variable {c : Char} {a b body rest text : List Char}

/-! ### Masks as text -/

/-- A character as blanks of the same length in bytes; line ends stay. -/
def blankChar (c : Char) : List Char :=
  if c = '\n' ∨ c = '\r' then [c] else List.replicate c.utf8Size ' '

/-- Blanks with a backslash before every line end that a blank precedes. -/
def escapeLineEnds : List Char → List Char
  | ' ' :: '\n' :: rest => '\\' :: '\n' :: escapeLineEnds rest
  | ' ' :: '\r' :: '\n' :: rest => '\\' :: '\r' :: '\n' :: escapeLineEnds rest
  | c :: rest => c :: escapeLineEnds rest
  | [] => []

def blankStatement (statement : List Char) : List Char :=
  "pass".toList ++ escapeLineEnds ((statement.flatMap blankChar).drop 4)

/-- The text from position `here` with the statements at the given positions replaced. -/
def maskFrom (here : Nat) (text : List Char) : List (Nat × Nat) → List Char
  | [] => text
  | (start, stop) :: rest =>
    takeBytes (start - here) text ++ blankStatement
      (sliceBytes text (start - here) (stop - here)) ++
      maskFrom stop (dropBytes (stop - here) text) rest

/-- The source with the statements at the given positions replaced. -/
def maskPrints (text : List Char) (spans : List (Nat × Nat)) : List Char :=
  maskFrom 0 text spans

/-! ### Line ends -/

/-- All line ends of a text can be escaped; `blank` says that a character stands before it on its
line. -/
def escapable (blank : Bool) : List Char → Bool
  | [] => true
  | '\n' :: rest => blank && escapable false rest
  | '\r' :: '\n' :: rest => blank && escapable false rest
  | '\r' :: _ => false
  | _ :: rest => escapable true rest

/-! ### Blanks -/

/-- Blanks and escaped line ends. -/
inductive Passable : List Char → Prop
  | nil : Passable []
  | space {text : List Char} (h : Passable text) : Passable (' ' :: text)
  | lineFeed {text : List Char} (h : Passable text) : Passable ('\\' :: '\n' :: text)
  | carriageReturn {text : List Char} (h : Passable text) : Passable ('\\' :: '\r' :: '\n' :: text)

/-- Blanks and escaped line ends, and then a line end that is not escaped. -/
def Interrupted (text : List Char) : Prop :=
  ∃ a e b, text = a ++ e :: b ∧ Passable a ∧ isLineEnd e = true

theorem Passable.append (ha : Passable a) (hb : Passable b) : Passable (a ++ b) := by
  induction ha with
  | nil => exact hb
  | space _ ih => exact ih.space
  | lineFeed _ ih => exact ih.lineFeed
  | carriageReturn _ ih => exact ih.carriageReturn

theorem Interrupted.append (ha : Passable a) (hb : Interrupted b) : Interrupted (a ++ b) := by
  obtain ⟨c, e, d, rfl, hc, he⟩ := hb
  exact ⟨a ++ c, e, d, by rw [List.append_assoc], ha.append hc, he⟩

theorem passable_replicate (n : Nat) : Passable (List.replicate n ' ') := by
  induction n with
  | zero => exact .nil
  | succ n ih => exact ih.space

/-- A statement with blanks for its characters, its line ends escaped, after a blank or not. -/
def blanked (blank : Bool) (text : List Char) : List Char :=
  escapeLineEnds ((if blank then [' '] else []) ++ text.flatMap blankChar)

theorem escapeLineEnds_replicate (n : Nat) (text : List Char) :
    escapeLineEnds (List.replicate n ' ' ++ ' ' :: text) =
      List.replicate n ' ' ++ escapeLineEnds (' ' :: text) := by
  induction n with
  | zero => rfl
  | succ n ih =>
    rw [List.replicate_succ, List.cons_append, List.cons_append, ← ih]
    cases n <;> rfl

theorem blankChar_of_not_lineEnd (h : ¬(c = '\n' ∨ c = '\r')) :
    blankChar c = List.replicate (c.utf8Size - 1) ' ' ++ [' '] := by
  have hsize := c.utf8Size_pos
  rw [blankChar, if_neg h, ← List.replicate_succ', Nat.sub_add_cancel hsize]

theorem blanked_cons (h : ¬(c = '\n' ∨ c = '\r')) (blank : Bool) (text : List Char) :
    blanked blank (c :: text) =
      (if blank then [' '] else []) ++ List.replicate (c.utf8Size - 1) ' ' ++
        blanked true text := by
  rw [blanked, List.flatMap_cons, blankChar_of_not_lineEnd h, List.append_assoc,
    List.singleton_append]
  cases blank with
  | false =>
    rw [if_neg Bool.false_ne_true, List.nil_append, List.nil_append, escapeLineEnds_replicate]
    rfl
  | true =>
    rw [if_pos rfl, ← List.append_assoc, List.singleton_append, ← List.replicate_succ,
      escapeLineEnds_replicate]
    rfl

theorem head?_flatMap_blankChar (h : text.head? ≠ some '\n') :
    (text.flatMap blankChar).head? ≠ some '\n' := by
  cases text with
  | nil => exact nofun
  | cons c text =>
    rw [List.flatMap_cons]
    by_cases hc : c = '\n' ∨ c = '\r'
    · rw [blankChar, if_pos hc]
      exact h
    · rw [blankChar_of_not_lineEnd hc]
      cases c.utf8Size - 1 with
      | zero => exact fun hhead => by cases hhead
      | succ n => exact fun hhead => by cases hhead

/-- A carriage return that no line feed follows is not escaped. -/
theorem escapeLineEnds_return (h : text.head? ≠ some '\n') :
    escapeLineEnds (' ' :: '\r' :: text) = ' ' :: '\r' :: escapeLineEnds text := by
  cases text with
  | nil => rfl
  | cons c text =>
    rw [escapeLineEnds]
    · rw [escapeLineEnds]
      · intro _ hc
        cases hc
      · intro _ hc
        cases hc
    · intro _ _ heq
      cases heq
    · intro rest _ heq
      obtain ⟨hc, -⟩ := List.cons.inj (List.cons.inj heq).2
      exact h (by rw [hc]; rfl)

/-- Either the line ends of a text are escaped when it is blanked, or one that is not interrupts the
blanks. -/
theorem blanked_cases (blank : Bool) (text : List Char) :
    (escapable blank text = true → Passable (blanked blank text)) ∧
      (escapable blank text = false → Interrupted (blanked blank text)) := by
  fun_induction escapable blank text with
  | case1 blank =>
    refine ⟨fun _ => ?_, nofun⟩
    cases blank with
    | false => exact .nil
    | true => exact Passable.nil.space
  | case2 blank rest ih =>
    cases blank with
    | false => exact ⟨nofun, fun _ => ⟨[], '\n', _, rfl, .nil, rfl⟩⟩
    | true =>
      rw [Bool.true_and]
      refine ⟨fun h => (ih.1 h).lineFeed, fun h => ?_⟩
      exact Interrupted.append Passable.nil.lineFeed (ih.2 h)
  | case3 blank rest ih =>
    cases blank with
    | false => exact ⟨nofun, fun _ => ⟨[], '\r', _, rfl, .nil, rfl⟩⟩
    | true =>
      rw [Bool.true_and]
      refine ⟨fun h => (ih.1 h).carriageReturn, fun h => ?_⟩
      exact Interrupted.append Passable.nil.carriageReturn (ih.2 h)
  | case4 blank rest hother =>
    refine ⟨nofun, fun _ => ?_⟩
    cases blank with
    | false => exact ⟨[], '\r', _, rfl, .nil, rfl⟩
    | true =>
      have hhead : (rest.flatMap blankChar).head? ≠ some '\n' := by
        refine head?_flatMap_blankChar fun hhead => ?_
        obtain ⟨rest', hrest⟩ := List.head?_eq_some_iff.1 hhead
        exact hother rest' hrest
      exact ⟨[' '], '\r', _, escapeLineEnds_return hhead, Passable.nil.space, rfl⟩
  | case5 blank c rest hfeed _ hreturn ih =>
    have hc : ¬(c = '\n' ∨ c = '\r') := fun h => h.elim hfeed hreturn
    have hblanks : Passable ((if blank then [' '] else []) ++
        List.replicate (c.utf8Size - 1) ' ') := by
      refine Passable.append ?_ (passable_replicate _)
      cases blank with
      | false => exact .nil
      | true => exact Passable.nil.space
    rw [blanked_cons hc]
    exact ⟨fun h => hblanks.append (ih.1 h), fun h => Interrupted.append hblanks (ih.2 h)⟩

/-! ### Reading blanks -/

theorem scanPiece_spacing (hc : isSpacing c = true) (depth : Nat) (rest : List Char) :
    scanPiece depth c rest = .ok (none, ((c :: rest).takeWhile isSpacing).length) := by
  have hcases : c = ' ' ∨ c = '\t' ∨ c = '\x0c' := by simpa [isSpacing, or_assoc] using hc
  have hletters : literalStart? (c :: rest) = none := by
    rcases hcases with rfl | rfl | rfl <;> exact literalStart?_eq_none rfl rfl (fun _ => rfl) rest
  have hword : isIdentifierStart c = false := by rcases hcases with rfl | rfl | rfl <;> decide
  have hemoji : isEmoji c = false := by rcases hcases with rfl | rfl | rfl <;> decide
  have hdigit : isDigitIn 10 c = false := by rcases hcases with rfl | rfl | rfl <;> decide
  have hother : c ≠ '.' ∧ c ≠ '#' ∧ isLineEnd c = false := by
    rcases hcases with rfl | rfl | rfl <;> decide
  simp [scanPiece, hletters, hword, hemoji, hdigit, hother, hc]

theorem scanPiece_backslash (depth : Nat) (rest : List Char) :
    scanPiece depth '\\' rest = (scanContinuation rest).map fun size => (none, size) := by
  have hletters : literalStart? ('\\' :: rest) = none :=
    literalStart?_eq_none rfl rfl (fun _ => rfl) rest
  have hword : isIdentifierStart '\\' = false := by decide
  have hemoji : isEmoji '\\' = false := by decide
  have hdigit : isDigitIn 10 '\\' = false := by decide
  have hother : isLineEnd '\\' = false ∧ isSpacing '\\' = false := by decide
  simp [scanPiece, hletters, hword, hemoji, hdigit, hother]

theorem getLast?_of_append (first : List Char) (h : (first ++ text).getLast? ≠ some '\n') :
    text.getLast? ≠ some '\n' ∧ (text = [] → first.getLast? ≠ some '\n') := by
  rw [List.getLast?_append] at h
  refine ⟨fun hlast => h (by rw [hlast]; rfl), fun hnil => ?_⟩
  subst hnil
  exact h

section

variable {scanner : Scanner} (hstart : scanner.lineStart = false)

include hstart

theorem scanFrom_spacing (hc : isSpacing c = true) (offset : Nat) (rest : List Char) :
    scanFrom offset scanner 0 (c :: rest) =
      scanFrom (offset + byteLength ((c :: rest).takeWhile isSpacing)) scanner 0
        ((c :: rest).dropWhile isSpacing) := by
  have htake : (c :: rest).take ((c :: rest).takeWhile isSpacing).length =
      (c :: rest).takeWhile isSpacing :=
    (List.prefix_iff_eq_take.1 (List.takeWhile_prefix _)).symm
  have hdrop : (c :: rest).drop ((c :: rest).takeWhile isSpacing).length =
      (c :: rest).dropWhile isSpacing :=
    calc (c :: rest).drop ((c :: rest).takeWhile isSpacing).length
        = ((c :: rest).takeWhile isSpacing ++ (c :: rest).dropWhile isSpacing).drop
            ((c :: rest).takeWhile isSpacing).length := by rw [List.takeWhile_append_dropWhile]
      _ = (c :: rest).dropWhile isSpacing := List.drop_left
  rw [scanFrom_piece hstart (scanPiece_spacing hc _ _), htake, hdrop]
  rfl

theorem scanFrom_space (offset : Nat) (rest : List Char) :
    scanFrom offset scanner 0 (' ' :: rest) = scanFrom (offset + 1) scanner 0 rest := by
  rw [scanFrom_spacing hstart rfl, List.takeWhile_cons_of_pos rfl, List.dropWhile_cons_of_pos rfl,
    byteLength_cons]
  cases rest with
  | nil => rfl
  | cons c rest =>
    by_cases hc : isSpacing c = true
    · rw [scanFrom_spacing hstart hc (offset + 1), Nat.add_assoc]
      rfl
    · rw [List.takeWhile_cons_of_neg hc, List.dropWhile_cons_of_neg hc]
      rfl

/-- A line end after a backslash is passed over, when something follows it. -/
theorem scanFrom_joined {ending : List Char} (hending : ending = ['\n'] ∨ ending = ['\r', '\n'])
    (hrest : rest ≠ []) (offset : Nat) :
    scanFrom offset scanner 0 ('\\' :: (ending ++ rest)) =
      scanFrom (offset + byteLength ('\\' :: ending)) scanner 0 rest := by
  have hmore : rest.isEmpty = false := by simpa using hrest
  have hpiece : scanPiece scanner.depth '\\' (ending ++ rest) = .ok (none, ending.length + 1) := by
    rw [scanPiece_backslash, scanContinuation]
    rcases hending with rfl | rfl
    · simp [lineEndSize, isLineEnd, hmore, Except.map]
    · simp [lineEndSize, hmore, Except.map]
  rw [scanFrom_piece hstart hpiece, List.take_succ_cons, List.drop_succ_cons, List.take_left,
    List.drop_left]
  rfl

/-- Blanks and escaped line ends are passed over. -/
theorem scanFrom_passable (h : Passable text) (hend : rest = [] → text.getLast? ≠ some '\n')
    (offset : Nat) :
    scanFrom offset scanner 0 (text ++ rest) =
      scanFrom (offset + byteLength text) scanner 0 rest := by
  induction h generalizing offset with
  | nil => rfl
  | @space text _ ih =>
    have hlater : rest = [] → text.getLast? ≠ some '\n' :=
      fun hnil => (getLast?_of_append [' '] (hend hnil)).1
    rw [List.cons_append, scanFrom_space hstart, ih hlater, byteLength_cons, Nat.add_assoc]
    rfl
  | @lineFeed text _ ih =>
    have hlater : rest = [] → text.getLast? ≠ some '\n' :=
      fun hnil => (getLast?_of_append ['\\', '\n'] (hend hnil)).1
    have hmore : text ++ rest ≠ [] := by
      intro hnil
      obtain ⟨htext, hrest⟩ := List.append_eq_nil_iff.1 hnil
      exact (getLast?_of_append ['\\', '\n'] (hend hrest)).2 htext rfl
    have hjoined := scanFrom_joined hstart (.inl rfl) hmore offset
    rw [List.singleton_append] at hjoined
    rw [List.cons_append, List.cons_append, hjoined, ih hlater, Nat.add_assoc, ← byteLength_append]
    rfl
  | @carriageReturn text _ ih =>
    have hlater : rest = [] → text.getLast? ≠ some '\n' :=
      fun hnil => (getLast?_of_append ['\\', '\r', '\n'] (hend hnil)).1
    have hmore : text ++ rest ≠ [] := by
      intro hnil
      obtain ⟨htext, hrest⟩ := List.append_eq_nil_iff.1 hnil
      exact (getLast?_of_append ['\\', '\r', '\n'] (hend hrest)).2 htext rfl
    have hjoined := scanFrom_joined hstart (.inr rfl) hmore offset
    rw [List.cons_append, List.singleton_append] at hjoined
    rw [List.cons_append, List.cons_append, List.cons_append, hjoined, ih hlater, Nat.add_assoc,
      ← byteLength_append]
    rfl

end

/-! ### Blanked statements -/

/-- Escaping puts backslashes in the place of blanks. -/
def SameOrEscaped (c d : Char) : Prop :=
  d = c ∨ c = ' ' ∧ d = '\\'

theorem escapeLineEnds_sameOrEscaped (text : List Char) :
    List.Forall₂ SameOrEscaped text (escapeLineEnds text) := by
  fun_induction escapeLineEnds text with
  | case1 rest ih => exact .cons (.inr ⟨rfl, rfl⟩) (.cons (.inl rfl) ih)
  | case2 rest ih => exact .cons (.inr ⟨rfl, rfl⟩) (.cons (.inl rfl) (.cons (.inl rfl) ih))
  | case3 c rest _ _ ih => exact .cons (.inl rfl) ih
  | case4 => exact .nil

theorem byteLength_of_sameOrEscaped (h : List.Forall₂ SameOrEscaped a b) :
    byteLength b = byteLength a := by
  induction h with
  | nil => rfl
  | cons hc _ ih =>
    rw [byteLength_cons, byteLength_cons, ih]
    rcases hc with rfl | ⟨rfl, rfl⟩ <;> rfl

theorem byteLength_replicate_space (n : Nat) : byteLength (List.replicate n ' ') = n := by
  induction n with
  | zero => rfl
  | succ n ih =>
    rw [List.replicate_succ, byteLength_cons, ih, Nat.add_comm]
    rfl

theorem byteLength_flatMap_blankChar (text : List Char) :
    byteLength (text.flatMap blankChar) = byteLength text := by
  induction text with
  | nil => rfl
  | cons c text ih =>
    rw [List.flatMap_cons, byteLength_append, byteLength_cons, ih, blankChar]
    split
    · rfl
    · rw [byteLength_replicate_space]

theorem blankStatement_print (body : List Char) :
    blankStatement ("print".toList ++ body) = "pass".toList ++ blanked true body := by
  rw [blankStatement, blanked, List.flatMap_append]
  rfl

theorem byteLength_blankStatement (body : List Char) :
    byteLength (blankStatement ("print".toList ++ body)) = byteLength ("print".toList ++ body) := by
  rw [blankStatement_print, byteLength_append, byteLength_append, blanked,
    byteLength_of_sameOrEscaped (escapeLineEnds_sameOrEscaped _), if_pos rfl, byteLength_append,
    byteLength_flatMap_blankChar, ← Nat.add_assoc]
  rfl

theorem getLast?_blankChar (c : Char) :
    (blankChar c).getLast? = some (if c = '\n' ∨ c = '\r' then c else ' ') := by
  by_cases hc : c = '\n' ∨ c = '\r'
  · rw [blankChar, if_pos hc, if_pos hc]
    rfl
  · rw [blankChar_of_not_lineEnd hc, if_neg hc, List.getLast?_concat]

/-- Only a line feed is blanked to a line feed. -/
theorem getLast?_blanked (h : body.getLast? ≠ some '\n') :
    (blanked true body).getLast? ≠ some '\n' := by
  intro hlast
  obtain ⟨init, hinit⟩ := List.getLast?_eq_some_iff.1 hlast
  have hescaped := escapeLineEnds_sameOrEscaped ([' '] ++ body.flatMap blankChar)
  rw [show escapeLineEnds ([' '] ++ body.flatMap blankChar) = init ++ ['\n'] from hinit] at hescaped
  obtain ⟨blanks, ending, hblanks, -, hending⟩ := exists_append_of_forall₂ hescaped
  obtain ⟨c, rfl, hc⟩ : ∃ c, ending = [c] ∧ SameOrEscaped c '\n' := by
    cases hending with
    | cons hc hnil =>
      cases hnil
      exact ⟨_, rfl, hc⟩
  obtain rfl : c = '\n' := by
    rcases hc with hc | ⟨-, hc⟩
    · exact hc.symm
    · cases hc
  rcases List.eq_nil_or_concat body with rfl | ⟨init, c, rfl⟩
  · have := congrArg List.getLast? hblanks
    simp at this
  · have hfeed := congrArg List.getLast? hblanks
    rw [List.concat_eq_append, List.flatMap_append, List.flatMap_singleton, ← List.append_assoc,
      List.getLast?_append, getLast?_blankChar, List.getLast?_concat, Option.some_or,
      Option.some.injEq] at hfeed
    rw [List.concat_eq_append, List.getLast?_concat] at h
    split at hfeed
    · exact h (by rw [hfeed])
    · cases hfeed

theorem scanPiece_pass (h : ∀ c ∈ rest.head?, isIdentifierPart c = false) (depth : Nat) :
    scanPiece depth 'p' ('a' :: 's' :: 's' :: rest) = .ok (some (.keyword "pass"), 4) := by
  have htake : ('p' :: 'a' :: 's' :: 's' :: rest).takeWhile isIdentifierPart =
      ['p', 'a', 's', 's'] := by
    have hletters : isIdentifierPart 'p' = true ∧ isIdentifierPart 'a' = true ∧
      isIdentifierPart 's' = true := by decide
    have hrest : rest.takeWhile isIdentifierPart = [] := by
      cases rest with
      | nil => rfl
      | cons c rest => exact List.takeWhile_cons_of_neg (by simp [h c rfl])
    simp [hletters, hrest]
  have hword : isIdentifierStart 'p' = true := by decide
  have hletters : literalStart? ('p' :: 'a' :: 's' :: 's' :: rest) = none := rfl
  simp only [scanPiece, hletters, hword, htake, if_true]
  rfl

/-- The word `pass` ends where the blanks start. -/
theorem exists_blanked_cons (body : List Char) :
    ∃ c rest, blanked true body = c :: rest ∧ isIdentifierPart c = false := by
  have hescaped := escapeLineEnds_sameOrEscaped ([' '] ++ body.flatMap blankChar)
  cases hcase : escapeLineEnds ([' '] ++ body.flatMap blankChar) with
  | nil =>
    rw [hcase] at hescaped
    cases hescaped
  | cons c rest =>
    rw [hcase] at hescaped
    cases hescaped with
    | cons hc _ =>
      refine ⟨c, rest, hcase, ?_⟩
      rcases hc with rfl | ⟨-, rfl⟩ <;> decide

section

variable {scanner : Scanner} (hstart : scanner.lineStart = false)

include hstart

theorem scanFrom_pass (body rest : List Char) (offset : Nat) :
    scanFrom offset scanner 0 (blankStatement ("print".toList ++ body) ++ rest) =
      (scanFrom (offset + 4) scanner 0 (blanked true body ++ rest)).prepend
        [⟨.keyword "pass", offset, offset + 4⟩] := by
  obtain ⟨c, blanks, hblanks, hc⟩ := exists_blanked_cons body
  have hpiece : scanPiece scanner.depth 'p' ('a' :: 's' :: 's' :: (blanked true body ++ rest)) =
      .ok (some (.keyword "pass"), 4) := by
    refine scanPiece_pass ?_ _
    rw [hblanks]
    rintro d hd
    cases hd
    exact hc
  rw [blankStatement_print]
  exact scanFrom_piece hstart hpiece offset

/-- A blanked statement whose line ends are escaped reads as `pass`. -/
theorem scanFrom_blankStatement (hescapable : escapable true body = true)
    (hend : rest = [] → body.getLast? ≠ some '\n') (offset : Nat) :
    scanFrom offset scanner 0 (blankStatement ("print".toList ++ body) ++ rest) =
      (scanFrom (offset + byteLength ("print".toList ++ body)) scanner 0 rest).prepend
        [⟨.keyword "pass", offset, offset + 4⟩] := by
  have hpassable := (blanked_cases true body).1 hescapable
  rw [scanFrom_pass hstart, scanFrom_passable hstart hpassable fun hnil =>
    getLast?_blanked (hend hnil), Nat.add_assoc, ← byteLength_blankStatement, blankStatement_print,
    byteLength_append]
  rfl

/-- A blanked statement with a line end that is not escaped ends there. -/
theorem scanFrom_interrupted (hdepth : scanner.depth = 0) (hescapable : escapable true body = false)
    (rest : List Char) (offset : Nat) :
    ∃ place stop, ∃ scan :
      Scan, offset < place ∧ place < offset + byteLength ("print".toList ++ body) ∧
      scanFrom offset scanner 0 (blankStatement ("print".toList ++ body) ++ rest) =
        scan.prepend [⟨.keyword "pass", offset, offset + 4⟩, ⟨.newline, place, stop⟩] := by
  obtain ⟨a, e, b, hblanks, ha, he⟩ := (blanked_cases true body).2 hescapable
  have hpiece : scanPiece scanner.depth e (b ++ rest) =
      .ok (some .newline, lineEndSize (e :: (b ++ rest))) := by
    rw [hdepth]
    exact scanPiece_lineEnd he _
  have hsize : byteLength ("print".toList ++ body) = 4 + byteLength a + byteLength (e :: b) := by
    rw [← byteLength_blankStatement, blankStatement_print, hblanks, byteLength_append,
      byteLength_append, ← Nat.add_assoc]
    rfl
  obtain ⟨stop, scan, hscan⟩ : ∃ stop, ∃ scan : Scan,
    scanFrom (offset + 4 + byteLength a) scanner 0 (e :: (b ++ rest)) =
      scan.prepend [⟨.newline, offset + 4 + byteLength a, stop⟩] :=
    ⟨_, _, scanFrom_piece hstart hpiece _⟩
  refine ⟨offset + 4 + byteLength a, stop, scan, by omega, ?_, ?_⟩
  · have := e.utf8Size_pos
    rw [hsize, byteLength_cons]
    omega
  · rw [scanFrom_pass hstart, hblanks, List.append_assoc, List.cons_append,
      scanFrom_passable hstart ha (fun hnil => by cases hnil), hscan]
    rfl

end

end PythonLint
