import PythonLint.Proofs.Decoding
import PythonLint.Proofs.PrintMask.MaskedTokens

/-!
# The bytes of a mask

Print statements are replaced in place: the bytes of each are overwritten where they stand, with no
regard to the characters they belong to. Overwriting fails where a statement does not lie inside the
bytes or is shorter than `pass`, and the bytes that result have to be decoded again. For the print
statements of a source none of this fails, and the text that results is the mask of the source.

Main statements: `blankInPlace?_encodeUtf8`, `MaskedAs.foldlM_overwrite?`, `maskInPlace?_tokenize`,
`byteExact_maskPrints`.
-/

namespace PythonLint

open Text

/-! ### Bytes of characters -/

namespace Text

theorem length_encodeUtf8 (text : List Char) : (encodeUtf8 text).length = byteLength text := by
  induction text with
  | nil => rfl
  | cons c text ih =>
    rw [encodeUtf8_cons, List.length_append, String.length_utf8EncodeChar, ih, byteLength_cons]

end Text

theorem encodeUtf8_replicate_space (n : Nat) :
    encodeUtf8 (List.replicate n ' ') = List.replicate n 0x20 := by
  induction n with
  | zero => rfl
  | succ n ih => rw [List.replicate_succ, encodeUtf8_cons, ih]; rfl

theorem encodeUtf8_flatMap_blankChar (text : List Char) :
    encodeUtf8 (text.flatMap blankChar) = (encodeUtf8 text).map blankByte := by
  induction text with
  | nil => rfl
  | cons c text ih =>
    rw [List.flatMap_cons, encodeUtf8_append, ih, encodeUtf8_cons, List.map_append]
    congr 1
    by_cases hline : c = '\n' ∨ c = '\r'
    · rcases hline with rfl | rfl <;> rfl
    · have hblank : ∀ byte ∈ String.utf8EncodeChar c, blankByte byte = 0x20 := by
        intro byte hmem
        refine if_neg fun hbyte => hline ?_
        have hnat := eq_of_mem_utf8EncodeChar hmem (by rcases hbyte with rfl | rfl <;> decide)
        exact hbyte.imp (fun h => Char.toNat_inj.1 (by rw [hnat, h]; rfl)) fun h =>
          Char.toNat_inj.1 (by rw [hnat, h]; rfl)
      rw [blankChar, if_neg hline, encodeUtf8_replicate_space, List.map_eq_replicate_iff.2 hblank,
        String.length_utf8EncodeChar]

/-! ### Escaping in place -/

/-- The byte at a position is a blank after the first word, and a line end follows of which the line
feed is at `feed`. -/
def PrecedesFeed (bytes : List UInt8) (feed i : Nat) : Prop :=
  4 ≤ i ∧ bytes[i]? = some 0x20 ∧ bytes[feed]? = some 0x0A ∧
    (feed = i + 1 ∨ bytes[i + 1]? = some 0x0D ∧ feed = i + 2)

instance (bytes : List UInt8) (feed i : Nat) : Decidable (PrecedesFeed bytes feed i) :=
  inferInstanceAs (Decidable (_ ∧ _ ∧ _ ∧ _))

theorem getElem?_escapeAt (bytes : List UInt8) (feed i : Nat) :
    (escapeAt bytes feed)[i]? = if PrecedesFeed bytes feed i then some 0x5C else bytes[i]? := by
  by_cases hfeed : bytes[feed]? = some 0x0A
  · by_cases hreturn : 0 < feed ∧ bytes[feed - 1]? = some 0x0D
    · simp only [escapeAt, if_pos hfeed, if_pos hreturn]
      split
      · rw [List.getElem?_set]
        grind [PrecedesFeed]
      · grind [PrecedesFeed]
    · simp only [escapeAt, if_pos hfeed, if_neg hreturn]
      split
      · rw [List.getElem?_set]
        grind [PrecedesFeed]
      · grind [PrecedesFeed]
  · rw [escapeAt, if_neg hfeed, if_neg fun h : PrecedesFeed bytes feed i => hfeed h.2.2.1]

/-- A blank is escaped when the line feed after it is looked at. What is escaped before does not
change which bytes are line ends, so that the bytes can be compared with those before the first
step. -/
theorem getElem?_foldl_escapeAt (bytes : List UInt8) (limit i : Nat) :
    ((List.range limit).foldl escapeAt bytes)[i]? =
      if ∃ feed < limit, PrecedesFeed bytes feed i then some 0x5C else bytes[i]? := by
  induction limit generalizing i with
  | zero =>
    rw [if_neg fun h => Nat.not_lt_zero _ h.choose_spec.1]
    rfl
  | succ limit ih =>
    have hkept : ∀ (j : Nat) (byte : UInt8), byte ≠ 0x5C → byte ≠ 0x20 →
        (((List.range limit).foldl escapeAt bytes)[j]? = some byte ↔ bytes[j]? = some byte) := by
      intro j byte hescape hblank
      rw [ih]
      split
      · next h =>
        obtain ⟨feed, -, -, hj, -⟩ := h
        rw [hj, Option.some.injEq, Option.some.injEq]
        exact ⟨fun h => absurd h.symm hescape, fun h => absurd h.symm hblank⟩
      · rfl
    rw [List.range_succ, List.foldl_append, List.foldl_cons, List.foldl_nil, getElem?_escapeAt]
    -- An escaped blank is no blank any more, and is not escaped again.
    by_cases hbefore : ∃ feed < limit, PrecedesFeed bytes feed i
    · rw [ih, if_pos hbefore, ite_self,
        if_pos (hbefore.imp fun feed h => ⟨Nat.lt_succ_of_lt h.1, h.2⟩)]
    · have hstep : PrecedesFeed ((List.range limit).foldl escapeAt bytes) limit i ↔
          PrecedesFeed bytes limit i := by
        rw [PrecedesFeed, PrecedesFeed, hkept _ 0x0A (by decide) (by decide),
          hkept _ 0x0D (by decide) (by decide), ih, if_neg hbefore]
      have hsucc : (∃ feed < limit + 1, PrecedesFeed bytes feed i) ↔
          PrecedesFeed bytes limit i := by
        rw [Nat.exists_lt_succ_right, or_iff_right hbefore]
      simp only [hstep, hsucc, ih, if_neg hbefore]

theorem getElem?_escapeLineEnds (text : List Char) (i : Nat) :
    (escapeLineEnds text)[i]? =
      if text[i]? = some ' ' ∧ (text[i + 1]? = some '\n' ∨ text[i + 1]? = some '\r' ∧
        text[i + 2]? = some '\n') then some '\\'
      else text[i]? := by
  fun_induction escapeLineEnds text generalizing i with
  | case1 rest ih => rcases i with _ | _ | i <;> simp [ih]
  | case2 rest ih => rcases i with _ | _ | _ | i <;> simp [ih]
  | case3 c rest hfeed hreturn ih =>
    cases i with
    | zero =>
      refine (if_neg ?_).symm
      rintro ⟨hc, hline | ⟨hline, hlater⟩⟩
      · obtain ⟨tail, rfl⟩ := List.head?_eq_some_iff.1 (List.head?_eq_getElem?.trans hline)
        exact hfeed tail (Option.some.inj hc) rfl
      · obtain ⟨tail, rfl⟩ := List.head?_eq_some_iff.1 (List.head?_eq_getElem?.trans hline)
        obtain ⟨tail, rfl⟩ := List.head?_eq_some_iff.1 (List.head?_eq_getElem?.trans hlater)
        exact hreturn tail (Option.some.inj hc) rfl
    | succ i => simp [ih]
  | case4 => simp

def byteOf (c : Char) : UInt8 :=
  UInt8.ofNat c.toNat

theorem encodeUtf8_eq_map {text : List Char} (h : ∀ c ∈ text, c.toNat < 128) :
    encodeUtf8 text = text.map byteOf := by
  induction text with
  | nil => rfl
  | cons c text ih =>
    obtain ⟨hc, htext⟩ := List.forall_mem_cons.1 h
    have hone : String.utf8EncodeChar c = [byteOf c] := if_pos (Nat.le_of_lt_succ hc)
    rw [encodeUtf8_cons, ih htext, hone, List.map_cons, List.singleton_append]

theorem byteOf_inj {c d : Char} (hc : c.toNat < 128) (hd : d.toNat < 128) :
    byteOf c = byteOf d ↔ c = d := by
  refine ⟨fun h => Char.toNat_inj.1 ?_, congrArg byteOf⟩
  have h := congrArg UInt8.toNat h
  rwa [byteOf, byteOf, UInt8.toNat_ofNat_of_lt' (Nat.lt_trans hc (by decide)),
    UInt8.toNat_ofNat_of_lt' (Nat.lt_trans hd (by decide))] at h

theorem exists_precedesFeed_iff (bytes : List UInt8) (i : Nat) :
    (∃ feed < bytes.length, PrecedesFeed bytes feed i) ↔
      4 ≤ i ∧ bytes[i]? = some 0x20 ∧
        (bytes[i + 1]? = some 0x0A ∨ bytes[i + 1]? = some 0x0D ∧ bytes[i + 2]? = some 0x0A) := by
  constructor
  · rintro ⟨feed, -, hword, hblank, hfeed, rfl | ⟨hreturn, rfl⟩⟩
    · exact ⟨hword, hblank, .inl hfeed⟩
    · exact ⟨hword, hblank, .inr ⟨hreturn, hfeed⟩⟩
  · rintro ⟨hword, hblank, hfeed | ⟨hreturn, hfeed⟩⟩
    · exact ⟨i + 1, (List.getElem?_eq_some_iff.1 hfeed).1, hword, hblank, hfeed, .inl rfl⟩
    · exact ⟨i + 2, (List.getElem?_eq_some_iff.1 hfeed).1, hword, hblank, hfeed,
        .inr ⟨hreturn, rfl⟩⟩

theorem escapeLineEnds_ascii {blanks : List Char} (h : ∀ c ∈ blanks, c.toNat < 128) :
    ∀ c ∈ escapeLineEnds blanks, c.toNat < 128 := by
  intro c hc
  obtain ⟨i, hi⟩ := List.mem_iff_getElem?.1 hc
  rw [getElem?_escapeLineEnds] at hi
  split at hi
  · obtain rfl := Option.some.inj hi
    decide
  · exact h c (List.mem_iff_getElem?.2 ⟨i, hi⟩)

/-- Line ends are escaped in place as they are in a text. -/
theorem foldl_escapeAt_pass {blanks : List Char} (h : ∀ c ∈ blanks, c.toNat < 128) :
    let word := encodeUtf8 "pass".toList ++ encodeUtf8 blanks
    (List.range word.length).foldl escapeAt word =
      encodeUtf8 "pass".toList ++ encodeUtf8 (escapeLineEnds blanks) := by
  intro word
  have hlater : ∀ i, word[i + 4]? = blanks[i]?.map byteOf := by
    intro i
    rw [← List.getElem?_map, ← encodeUtf8_eq_map h]
    exact List.getElem?_append_right (Nat.le_add_left 4 i)
  have hchar : ∀ i c, c.toNat < 128 → (word[i + 4]? = some (byteOf c) ↔ blanks[i]? = some c) := by
    intro i c hc
    rw [hlater, Option.map_eq_some_iff]
    refine ⟨?_, fun h => ⟨c, h, rfl⟩⟩
    rintro ⟨d, hd, hbyte⟩
    rwa [← (byteOf_inj (h d (List.mem_of_getElem? hd)) hc).1 hbyte]
  -- The word is not touched, and each byte after it is that of one character, so that positions
  -- differ by four.
  refine List.ext_getElem? fun i => ?_
  rw [getElem?_foldl_escapeAt]
  simp only [exists_precedesFeed_iff]
  by_cases hi : 4 ≤ i
  · obtain ⟨i, rfl⟩ := Nat.exists_eq_add_of_le' hi
    have hcond : (4 ≤ i + 4 ∧ word[i + 4]? = some 0x20 ∧
          (word[i + 4 + 1]? = some 0x0A ∨ word[i + 4 + 1]? = some 0x0D ∧
            word[i + 4 + 2]? = some 0x0A)) ↔
        blanks[i]? = some ' ' ∧ (blanks[i + 1]? = some '\n' ∨ blanks[i + 1]? = some '\r' ∧
          blanks[i + 2]? = some '\n') := by
      rw [and_iff_right hi, ← hchar i ' ' (by decide), ← hchar (i + 1) '\n' (by decide),
        ← hchar (i + 1) '\r' (by decide), ← hchar (i + 2) '\n' (by decide)]
      rfl
    have hright : (encodeUtf8 "pass".toList ++ encodeUtf8 (escapeLineEnds blanks))[i + 4]? =
        (escapeLineEnds blanks)[i]?.map byteOf := by
      rw [← List.getElem?_map, ← encodeUtf8_eq_map (escapeLineEnds_ascii h)]
      exact List.getElem?_append_right (Nat.le_add_left 4 i)
    rw [if_congr hcond rfl rfl, hright, getElem?_escapeLineEnds, hlater]
    split <;> rfl
  · have hi : i < (encodeUtf8 "pass".toList).length := Nat.lt_of_not_le hi
    rw [if_neg fun h => absurd h.1 (Nat.not_le_of_lt hi), List.getElem?_append_left hi,
      List.getElem?_append_left hi]

theorem flatMap_blankChar_ascii (text : List Char) :
    ∀ c ∈ text.flatMap blankChar, c.toNat < 128 := by
  intro c hc
  obtain ⟨d, -, hc⟩ := List.mem_flatMap.1 hc
  rw [blankChar] at hc
  split at hc
  · next hd =>
    rw [List.mem_singleton.1 hc]
    rcases hd with rfl | rfl <;> decide
  · rw [List.eq_of_mem_replicate hc]
    decide

/-- Overwriting the bytes of a print statement blanks its characters. -/
theorem blankInPlace?_encodeUtf8 (body : List Char) :
    blankInPlace? (encodeUtf8 ("print".toList ++ body)) =
      some (encodeUtf8 (blankStatement ("print".toList ++ body))) := by
  have hblanks : (encodeUtf8 ("print".toList ++ body)).map blankByte =
      encodeUtf8 [' ', ' ', ' ', ' '] ++ encodeUtf8 (' ' :: body.flatMap blankChar) := by
    rw [← encodeUtf8_flatMap_blankChar, ← encodeUtf8_append, List.flatMap_append]
    rfl
  have hascii : ∀ c ∈ ' ' :: body.flatMap blankChar, c.toNat < 128 :=
    List.forall_mem_cons.2 ⟨by decide, flatMap_blankChar_ascii body⟩
  have hlength : 4 ≤
      (encodeUtf8 [' ', ' ', ' ', ' '] ++ encodeUtf8 (' ' :: body.flatMap blankChar)).length := by
    rw [List.length_append]
    exact Nat.le_add_right 4 _
  have hdrop : (encodeUtf8 [' ', ' ', ' ', ' '] ++ encodeUtf8 (' ' :: body.flatMap blankChar)).drop
    4 =
      encodeUtf8 (' ' :: body.flatMap blankChar) := List.drop_left' rfl
  rw [blankInPlace?, hblanks, if_pos hlength, hdrop, blankStatement_print, encodeUtf8_append]
  exact congrArg some (foldl_escapeAt_pass hascii)

/-! ### Overwriting one statement after the other -/

theorem overwrite?_append {statement blanked : List UInt8}
    (h : blankInPlace? statement = some blanked) (first rest : List UInt8) :
    overwrite? (first ++ statement ++ rest) (first.length, (first ++ statement).length) =
      some (first ++ blanked ++ rest) := by
  have hbounds : first.length ≤ (first ++ statement).length ∧
      (first ++ statement).length ≤ (first ++ statement ++ rest).length := by
    simp only [List.length_append]
    omega
  rw [overwrite?, if_pos hbounds, List.take_left, List.drop_left, List.drop_left, h,
    List.append_assoc first statement, List.take_left]
  rfl

namespace MaskedAs

variable {here : Nat} {text masked : List Char} {spans : List (Nat × Nat)}

/-- Statements that have been overwritten come before the next one, so that the bytes up to `here`
do not matter. -/
theorem foldlM_overwrite? (h : MaskedAs here text spans masked) {first : List UInt8}
    (hfirst : first.length = here) :
    spans.foldlM overwrite? (first ++ encodeUtf8 text) = some (first ++ encodeUtf8 masked) := by
  induction h generalizing first with
  | done => rfl
  | @statement here gap body rest masked spans hatEnd hrest ih =>
    have hstep :=
      overwrite?_append (blankInPlace?_encodeUtf8 body) (first ++ encodeUtf8 gap) (encodeUtf8 rest)
    have hlater : (first ++ encodeUtf8 gap ++
      encodeUtf8 (blankStatement ("print".toList ++ body))).length =
        here + byteLength (gap ++ ("print".toList ++ body)) := by
      simp only [List.length_append, length_encodeUtf8, byteLength_blankStatement,
        byteLength_append, hfirst]
      omega
    have hspan : ((first ++ encodeUtf8 gap).length,
      (first ++ encodeUtf8 gap ++ encodeUtf8 ("print".toList ++ body)).length) =
        (here + byteLength gap, here + byteLength (gap ++ ("print".toList ++ body))) := by
      simp only [List.length_append, length_encodeUtf8, byteLength_append, hfirst, Nat.add_assoc]
    rw [hspan] at hstep
    rw [encodeUtf8_append, encodeUtf8_append gap, ← List.append_assoc, ← List.append_assoc,
      List.foldlM_cons, hstep]
    refine (ih hlater).trans ?_
    rw [encodeUtf8_append, encodeUtf8_append gap, ← List.append_assoc, ← List.append_assoc]

theorem maskInPlace?_eq (h : MaskedAs 0 text spans masked) :
    maskInPlace? (encodeUtf8 text) spans = some (masked, spans.map Prod.fst) := by
  have hbytes : spans.foldlM overwrite? (encodeUtf8 text) = some (encodeUtf8 masked) :=
    h.foldlM_overwrite? List.length_nil
  rw [maskInPlace?, hbytes, Option.bind_eq_bind, Option.bind_some, decodeUtf8_encodeUtf8]
  rfl

end MaskedAs

/-! ### Line ends -/

theorem blankByte_eq_iff {byte lineEnd : UInt8} (h : lineEnd = 0x0A ∨ lineEnd = 0x0D) :
    blankByte byte = lineEnd ↔ byte = lineEnd := by
  rw [blankByte]
  split
  · rfl
  · next hbyte =>
    refine ⟨fun heq => ?_, fun heq => absurd (heq ▸ h) hbyte⟩
    exact absurd (heq ▸ h) (by decide)

/-- Bytes with the same blanks have the same line ends. -/
theorem getElem?_lineEnd_iff {a b : List UInt8} (h : a.map blankByte = b.map blankByte)
    {lineEnd : UInt8} (hline : lineEnd = 0x0A ∨ lineEnd = 0x0D) (i : Nat) :
    a[i]? = some lineEnd ↔ b[i]? = some lineEnd := by
  have hiff : ∀ bytes : List UInt8, bytes[i]? = some lineEnd ↔
      (bytes.map blankByte)[i]? = some lineEnd := by
    intro bytes
    rw [List.getElem?_map, Option.map_eq_some_iff]
    simp only [blankByte_eq_iff hline, exists_eq_right]
  rw [hiff a, hiff b, h]

theorem count_lineFeed_map_blankByte (bytes : List UInt8) :
    (bytes.map blankByte).count 0x0A = bytes.count 0x0A := by
  rw [List.count_eq_countP, List.countP_map, List.count_eq_countP]
  refine List.countP_congr fun byte _ => ?_
  simp only [Function.comp_apply, beq_iff_eq, blankByte_eq_iff (.inl rfl)]

/-- The line of a position counts the line feeds before it, also inside a character. -/
theorem line_locationFrom (text : List Char) (offset : Nat) (here : Location) (bytes : Nat) :
    (locationFrom text offset here bytes).line =
      here.line + ((encodeUtf8 text).take offset).count 0x0A := by
  fun_induction locationFrom text offset here bytes with
  | case1 => simp
  | case2 => rfl
  | case3 c rest n here bytes hinside =>
    -- A line feed has no position inside.
    have hc : c ≠ '\n' := by
      rintro rfl
      exact absurd hinside (Nat.not_lt.2 (Nat.le_add_left 1 n))
    rw [encodeUtf8_cons,
      List.take_append_of_le_length (by rw [String.length_utf8EncodeChar]; omega),
      List.count_eq_zero.2 fun hmem => lineFeed_not_mem_utf8EncodeChar hc
      (List.mem_of_mem_take hmem)]
    rfl
  | case4 rest n here bytes hinside ih =>
    have htake : (encodeUtf8 ('\n' :: rest)).take (n + 1) = 0x0A :: (encodeUtf8 rest).take n := rfl
    rw [ih, htake, List.count_cons_self]
    exact Nat.add_right_comm _ _ _
  | case5 c rest n here bytes hinside hc ih =>
    have hsize : (String.utf8EncodeChar c).length ≤ n + 1 := by
      rw [String.length_utf8EncodeChar]
      omega
    rw [ih, encodeUtf8_cons, List.take_append, List.take_of_length_le hsize, List.count_append,
      List.count_eq_zero.2 (lineFeed_not_mem_utf8EncodeChar hc), Nat.zero_add,
      String.length_utf8EncodeChar]

/-- Bytes with the same blanks have their lines at the same positions. -/
theorem line_locationAt_congr {a b : List Char}
    (h : (encodeUtf8 a).map blankByte = (encodeUtf8 b).map blankByte) (offset : Nat) :
    (locationAt a offset).line = (locationAt b offset).line := by
  have htake : ((encodeUtf8 a).take offset).map blankByte =
      ((encodeUtf8 b).take offset).map blankByte := by
    rw [List.map_take, List.map_take, h]
  rw [locationAt, locationAt, line_locationFrom, line_locationFrom,
    ← count_lineFeed_map_blankByte, htake, count_lineFeed_map_blankByte]

theorem flatMap_blankChar_of_sameOrEscaped {a b : List Char} (h : List.Forall₂ SameOrEscaped a b) :
    b.flatMap blankChar = a.flatMap blankChar := by
  induction h with
  | nil => rfl
  | cons hc _ ih =>
    rw [List.flatMap_cons, List.flatMap_cons, ih]
    rcases hc with rfl | ⟨rfl, rfl⟩ <;> rfl

theorem map_blankByte_blankByte (bytes : List UInt8) :
    (bytes.map blankByte).map blankByte = bytes.map blankByte := by
  rw [List.map_map]
  refine List.map_congr_left fun byte _ => ?_
  by_cases hbyte : byte = 0x0A ∨ byte = 0x0D
  · have hkept : blankByte byte = byte := if_pos hbyte
    rw [Function.comp_apply, hkept, hkept]
  · have hblank : blankByte byte = 0x20 := if_neg hbyte
    rw [Function.comp_apply, hblank]
    rfl

theorem map_blankByte_blankStatement (body : List Char) :
    (encodeUtf8 (blankStatement ("print".toList ++ body))).map blankByte =
      (encodeUtf8 ("print".toList ++ body)).map blankByte := by
  have hblanks : (encodeUtf8 (blanked true body)).map blankByte =
      encodeUtf8 [' '] ++ (encodeUtf8 body).map blankByte := by
    rw [← encodeUtf8_flatMap_blankChar, blanked,
      flatMap_blankChar_of_sameOrEscaped (escapeLineEnds_sameOrEscaped _), List.flatMap_append,
      encodeUtf8_append, encodeUtf8_flatMap_blankChar, encodeUtf8_flatMap_blankChar,
      encodeUtf8_flatMap_blankChar, map_blankByte_blankByte]
    rfl
  rw [blankStatement_print, encodeUtf8_append, encodeUtf8_append, List.map_append,
    List.map_append, hblanks]
  rfl

namespace MaskedAs

variable {here : Nat} {text masked : List Char} {spans : List (Nat × Nat)}

theorem map_blankByte_eq (h : MaskedAs here text spans masked) :
    (encodeUtf8 masked).map blankByte = (encodeUtf8 text).map blankByte := by
  induction h with
  | done => rfl
  | @statement _ gap body rest masked _ _ _ ih =>
    simp only [encodeUtf8_append _ rest, encodeUtf8_append _ masked, encodeUtf8_append gap,
      List.map_append, map_blankByte_blankStatement, ih]

/-! ### Places of statements -/

theorem getElem?_encodeUtf8_of_outside (h : MaskedAs here text spans masked) {i : Nat}
    (houtside : ∀ span ∈ spans, here + i < span.1 ∨ span.2 ≤ here + i) :
    (encodeUtf8 masked)[i]? = (encodeUtf8 text)[i]? := by
  induction h generalizing i with
  | done => rfl
  | @statement here gap body rest masked spans hatEnd _ ih =>
    obtain ⟨hfirst, hothers⟩ := List.forall_mem_cons.1 houtside
    rcases hfirst with hlt | hle
    · -- The byte comes before the statement.
      have hgap : i < (encodeUtf8 gap).length := by
        rw [length_encodeUtf8]
        exact Nat.lt_of_add_lt_add_left hlt
      simp only [encodeUtf8_append, List.append_assoc, List.getElem?_append_left hgap]
    · -- The byte comes after it, and the statement has kept its length.
      obtain ⟨j, rfl⟩ := Nat.exists_eq_add_of_le (Nat.le_of_add_le_add_left hle)
      have hlength : (encodeUtf8 (gap ++ blankStatement ("print".toList ++ body))).length =
          byteLength (gap ++ ("print".toList ++ body)) := by
        rw [length_encodeUtf8, byteLength_append, byteLength_append, byteLength_blankStatement]
      rw [encodeUtf8_append, encodeUtf8_append _ rest, ← hlength]
      rw [List.getElem?_append_right (Nat.le_add_right _ _), Nat.add_sub_cancel_left, hlength,
        ← length_encodeUtf8]
      rw [List.getElem?_append_right (Nat.le_add_right _ _), Nat.add_sub_cancel_left]
      refine ih fun span hspan => ?_
      rw [Nat.add_assoc]
      exact hothers span hspan

theorem pairwise_le (h : MaskedAs here text spans masked) :
    spans.Pairwise fun a b => a.2 ≤ b.1 := by
  induction h with
  | done => exact .nil
  | statement gap body hatEnd hrest ih => exact .cons (fun _ hspan => hrest.le_of_mem hspan) ih

theorem print_of_mem (h : MaskedAs here text spans masked) {span : Nat × Nat}
    (hspan : span ∈ spans) :
    ∃ a body b, text = a ++ ("print".toList ++ body) ++ b ∧ here + byteLength a = span.1 ∧
      here + byteLength (a ++ ("print".toList ++ body)) = span.2 := by
  induction h with
  | done => cases hspan
  | @statement here gap body rest masked spans hatEnd _ ih =>
    rcases List.mem_cons.1 hspan with rfl | hspan
    · exact ⟨gap, body, rest, rfl, rfl, rfl⟩
    · obtain ⟨a, body', b, rfl, hstart, hstop⟩ := ih hspan
      refine ⟨gap ++ ("print".toList ++ body) ++ a, body', b, ?_, ?_, ?_⟩
      · simp only [List.append_assoc]
      · rw [← hstart, byteLength_append, Nat.add_assoc]
      · rw [← hstop, List.append_assoc _ a, byteLength_append, Nat.add_assoc]

end MaskedAs

/-! ### The mask of a source -/

/-- How the bytes of a mask compare with those of the source, when print statements are at the given
positions. -/
structure ByteExact (text : List Char) (spans : List (Nat × Nat)) (masked : List Char) : Prop where
  /-- The statements can be overwritten in place, and the bytes that result are those of the
  mask. -/
  inPlace : maskInPlace? (encodeUtf8 text) spans = some (masked, spans.map Prod.fst)
  length_eq : (encodeUtf8 masked).length = (encodeUtf8 text).length
  /-- Line feeds and carriage returns are where they were. -/
  lineEnds : ∀ lineEnd, lineEnd = 0x0A ∨ lineEnd = 0x0D →
    ∀ i : Nat, (encodeUtf8 masked)[i]? = some lineEnd ↔ (encodeUtf8 text)[i]? = some lineEnd
  line_eq : ∀ offset, (locationAt masked offset).line = (locationAt text offset).line
  outside : ∀ i : Nat, (∀ span ∈ spans, i < span.1 ∨ span.2 ≤ i) →
    (encodeUtf8 masked)[i]? = (encodeUtf8 text)[i]?
  /-- A statement ends before the next one starts. -/
  apart : spans.Pairwise fun a b => a.2 ≤ b.1
  /-- A statement lies inside the source and has room for the word that it starts with. -/
  inside : ∀ span ∈ spans, span.1 + 5 ≤ span.2 ∧ span.2 ≤ (encodeUtf8 text).length
  /-- The word that a statement starts with, and the one that its mask starts with. -/
  words : ∀ span ∈ spans, encodeUtf8 "print".toList <+: (encodeUtf8 text).drop span.1 ∧
    encodeUtf8 "pass".toList <+: (encodeUtf8 masked).drop span.1

theorem isPrefix_drop_encodeUtf8 (a word b : List Char) :
    encodeUtf8 word <+: (encodeUtf8 (a ++ word ++ b)).drop (byteLength a) := by
  rw [List.append_assoc, encodeUtf8_append, ← length_encodeUtf8, List.drop_left, encodeUtf8_append]
  exact List.prefix_append _ _

theorem MaskedAs.byteExact {text masked : List Char} {spans : List (Nat × Nat)}
    (h : MaskedAs 0 text spans masked) :
    ByteExact text spans masked where
  inPlace := h.maskInPlace?_eq
  length_eq := by rw [length_encodeUtf8, length_encodeUtf8, h.byteLength_eq]
  lineEnds _ hline := getElem?_lineEnd_iff h.map_blankByte_eq hline
  line_eq := line_locationAt_congr h.map_blankByte_eq
  outside i houtside :=
    h.getElem?_encodeUtf8_of_outside (by simpa only [Nat.zero_add] using houtside)
  apart := h.pairwise_le
  inside span hspan := by
    obtain ⟨a, body, b, rfl, hstart, hstop⟩ := h.print_of_mem hspan
    have hword : byteLength "print".toList = 5 := rfl
    simp only [length_encodeUtf8, byteLength_append] at hstop ⊢
    omega
  words span hspan := by
    obtain ⟨a, body, b, htext, hstart, -⟩ := h.print_of_mem hspan
    obtain ⟨a', b', hmasked, hstart'⟩ := h.pass_of_mem hspan
    rw [Nat.zero_add] at hstart hstart'
    refine ⟨?_, ?_⟩
    · rw [htext, ← hstart, ← List.append_assoc, List.append_assoc _ body]
      exact isPrefix_drop_encodeUtf8 a "print".toList (body ++ b)
    · rw [hmasked, ← hstart']
      exact isPrefix_drop_encodeUtf8 a' "pass".toList b'

theorem maskedAs_maskPrints {text : List Char} (h : (tokenize text).error = none) :
    MaskedAs 0 text (printSpans text (tokenize text).tokens)
      (maskPrints text (printSpans text (tokenize text).tokens)) := by
  obtain ⟨mask, hmasking⟩ := exists_masking ((error_eq_none_iff text).1 h)
  have hmasked := hmasking.maskedAs
  rw [← (withPass_tokenize h hmasking).2] at hmasked
  rwa [maskPrints, hmasked.mask_eq]

/-- Masking the print statements of a source does not fail. -/
theorem maskInPlace?_tokenize {text : List Char} (h : (tokenize text).error = none) :
    maskInPlace? (encodeUtf8 text) (printSpans text (tokenize text).tokens) =
      some (maskPrints text (printSpans text (tokenize text).tokens),
        (printSpans text (tokenize text).tokens).map Prod.fst) :=
  (maskedAs_maskPrints h).maskInPlace?_eq

/-- Print statements of a source that can be read as tokens can be overwritten in place. This does
not fail, gives the mask of the source, and changes no byte but those of the statements and no line
end. -/
theorem byteExact_maskPrints {text : List Char} (h : (tokenize text).error = none) :
    let spans := printSpans text (tokenize text).tokens
    ByteExact text spans (maskPrints text spans) := by
  exact (maskedAs_maskPrints h).byteExact

/-- Statements with longer characters, with line ends inside, next to each other and at the end of
the source. -/
theorem byteExact_maskPrints_multibyte :
    let text :=
      ("é = 1; print 'é\\\r\nλ', (2,\n\n 3); print\n" ++
        "if é: print >>é, '''\r\n'''\nelse:\r\n\tprint").toList
    let spans := printSpans text (tokenize text).tokens
    (tokenize text).error = none ∧ spans = [(8, 33), (35, 40), (48, 68), (77, 82)] ∧
      ByteExact text spans (maskPrints text spans) := by
  intro text spans
  have herror : (tokenize text).error = none := by decide +kernel
  exact ⟨herror, by decide +kernel, byteExact_maskPrints herror⟩

end PythonLint
