import PythonLint.Encoding
import Mathlib.Data.List.Basic

/-!
# Decoding and encoding

Decoding a source loses nothing: the text, written again in the encoding that was found and with the
byte order mark that was dropped, is the source byte for byte. Bytes that cannot be decoded are
reported at the first byte that does not belong to a text: the bytes before it are the longest valid
start of the source.

Validity is not defined through the decoder. Bytes are valid in an encoding when some text is
written so. For UTF-8 the bridge is `firstChar?_eq_some_iff`: a character is read exactly where its
bytes stand, so that no two texts have bytes of which one starts with the other without the texts
doing so too.

Main statements: `decodeBody_eq_ok_iff`, `decodeBody_error`, `decode_lossless_exact`.
-/

namespace PythonLint

open Text

variable {c : Char} {encoding : Encoding} {text : List Char} {body bytes : List UInt8} {n : Nat}

/-! ### Writing a text -/

/-- The numbers of the characters as bytes. All of them have to lie below `limit`. -/
def encodeBelow? (limit : Nat) (text : List Char) : Option (List UInt8) :=
  text.mapM fun c => if c.toNat < limit then some (UInt8.ofNat c.toNat) else none

namespace Encoding

def encode? : Encoding → List Char → Option (List UInt8)
  | utf8, text => some (encodeUtf8 text)
  | ascii, text => encodeBelow? 128 text
  | latin1, text => encodeBelow? 256 text

def Valid (encoding : Encoding) (bytes : List UInt8) : Prop :=
  ∃ text, encoding.encode? text = some bytes

end Encoding

/-- Of the starts of `bytes` with a property, the longest has `n` bytes. -/
def IsLongestStart (property : List UInt8 → Prop) (bytes : List UInt8) (n : Nat) : Prop :=
  ∃ start, start <+: bytes ∧ property start ∧ start.length = n ∧
    ∀ other, other <+: bytes → property other → other.length ≤ n

theorem IsLongestStart.unique {property : List UInt8 → Prop} {m : Nat}
    (hm : IsLongestStart property bytes m) (hn : IsLongestStart property bytes n) : m = n := by
  obtain ⟨a, ha, hpa, rfl, hmaxa⟩ := hm
  obtain ⟨b, hb, hpb, rfl, hmaxb⟩ := hn
  exact Nat.le_antisymm (hmaxb a ha hpa) (hmaxa b hb hpb)

/-! ### One byte for each character -/

theorem toNat_ofNat_toNat (byte : UInt8) : (Char.ofNat byte.toNat).toNat = byte.toNat := by
  have hvalid : byte.toNat.isValidChar := .inl (Nat.lt_trans byte.toNat_lt (by decide))
  rw [Char.ofNat, dif_pos hvalid]
  rfl

theorem encodeBelow?_charsOfBytes {limit : Nat} (h : ∀ byte ∈ bytes, byte.toNat < limit) :
    encodeBelow? limit (charsOfBytes bytes) = some bytes := by
  induction bytes with
  | nil => rfl
  | cons byte bytes ih =>
    have hbyte : (Char.ofNat byte.toNat).toNat < limit := by
      rw [toNat_ofNat_toNat]
      exact h byte List.mem_cons_self
    have hrest := ih fun other hother => h other (List.mem_cons_of_mem _ hother)
    rw [encodeBelow?] at hrest ⊢
    rw [charsOfBytes, List.map_cons, List.mapM_cons, if_pos hbyte, toNat_ofNat_toNat,
      UInt8.ofNat_toNat]
    rw [charsOfBytes] at hrest
    rw [hrest]
    rfl

theorem eq_charsOfBytes_of_encodeBelow? {limit : Nat} (hlimit : limit ≤ 256)
    (h : encodeBelow? limit text = some bytes) :
    text = charsOfBytes bytes ∧ ∀ byte ∈ bytes, byte.toNat < limit := by
  induction text generalizing bytes with
  | nil =>
    cases h
    exact ⟨rfl, by simp⟩
  | cons c text ih =>
    rw [encodeBelow?, List.mapM_cons] at h
    by_cases hc : c.toNat < limit
    · rw [if_pos hc] at h
      cases hrest : encodeBelow? limit text with
      | none =>
        rw [encodeBelow?] at hrest
        simp [hrest] at h
      | some rest =>
        obtain ⟨rfl, hbelow⟩ := ih hrest
        rw [encodeBelow?] at hrest
        simp only [hrest, Option.pure_def, Option.bind_eq_bind, Option.bind_some,
          Option.some.injEq] at h
        subst h
        have hbyte : (UInt8.ofNat c.toNat).toNat = c.toNat :=
          UInt8.toNat_ofNat_of_lt' (Nat.lt_of_lt_of_le hc hlimit)
        refine ⟨?_, ?_⟩
        · rw [charsOfBytes, charsOfBytes, List.map_cons, hbyte, Char.ofNat_toNat]
        · intro byte hmem
          rcases List.mem_cons.1 hmem with rfl | hmem
          · rwa [hbyte]
          · exact hbelow byte hmem
    · simp [if_neg hc] at h

/-! ### UTF-8 -/

namespace Text

/-- A character is read exactly where its bytes stand. -/
theorem firstChar?_eq_some_iff : firstChar? bytes = some c ↔ String.utf8EncodeChar c <+: bytes := by
  rw [firstChar?]
  constructor
  · intro h
    obtain ⟨rest, hrest⟩ := ByteArray.exists_of_utf8DecodeChar?_eq_some h
    have hbytes := congrArg (fun array => array.data.toList) hrest
    refine List.IsPrefix.trans ⟨rest.data.toList, ?_⟩ (List.take_prefix 4 bytes)
    simpa using hbytes.symm
  · rintro ⟨rest, rfl⟩
    -- Four bytes are enough for any character.
    have hsize : (String.utf8EncodeChar c).length ≤ 4 := by
      rw [String.length_utf8EncodeChar]
      exact c.utf8Size_le_four
    rw [List.take_append, List.take_of_length_le hsize, List.toByteArray_append]
    exact ByteArray.utf8DecodeChar?_utf8EncodeChar_append

theorem utf8EncodeChar_ne_nil (c : Char) : String.utf8EncodeChar c ≠ [] := by
  intro h
  have hlength := congrArg List.length h
  rw [String.length_utf8EncodeChar] at hlength
  exact absurd hlength (Nat.pos_iff_ne_zero.1 c.utf8Size_pos)

theorem encodeUtf8_cons (c : Char) (text : List Char) :
    encodeUtf8 (c :: text) = String.utf8EncodeChar c ++ encodeUtf8 text := by
  rw [encodeUtf8, List.flatMap_cons, ← encodeUtf8]

theorem encodeUtf8_append (a b : List Char) : encodeUtf8 (a ++ b) = encodeUtf8 a ++ encodeUtf8 b :=
  List.flatMap_append

/-- A byte below 128 stands for a character of its own. -/
theorem eq_of_mem_utf8EncodeChar {byte : UInt8} (hmem : byte ∈ String.utf8EncodeChar c)
    (hbyte : byte.toNat < 128) : c.toNat = byte.toNat := by
  have hval : c.val.toNat = c.toNat := rfl
  have hlarge : ∀ n, 128 ≤ n → n < 256 → byte ≠ UInt8.ofNat n := by
    rintro n hlow hhigh rfl
    rw [UInt8.toNat_ofNat_of_lt' hhigh] at hbyte
    omega
  rw [String.utf8EncodeChar, hval] at hmem
  split_ifs at hmem with hone htwo hthree
  · obtain rfl := List.mem_singleton.1 hmem
    rw [UInt8.toNat_ofNat_of_lt' (Nat.lt_of_le_of_lt hone (by decide))]
  -- A longer character has no byte below 128.
  all_goals
    simp only [List.mem_cons, List.not_mem_nil, or_false] at hmem
    exfalso
  · rcases hmem with h | h <;> exact hlarge _ (by omega) (by omega) h
  · rcases hmem with h | h | h <;> exact hlarge _ (by omega) (by omega) h
  · rcases hmem with h | h | h | h <;> exact hlarge _ (by omega) (by omega) h

theorem lineFeed_not_mem_utf8EncodeChar (h : c ≠ '\n') : (0x0A : UInt8) ∉ String.utf8EncodeChar c :=
  fun hmem => h (Char.toNat_inj.1 (eq_of_mem_utf8EncodeChar hmem (by decide)))

/-- After its first character, what is left to read are the bytes after those of the character. -/
theorem exists_of_firstChar? {byte : UInt8} {rest : List UInt8}
    (h : firstChar? (byte :: rest) = some c) :
    byte :: rest = String.utf8EncodeChar c ++ rest.drop (c.utf8Size - 1) := by
  obtain ⟨more, hmore⟩ := firstChar?_eq_some_iff.1 h
  have hdrop := congrArg (List.drop c.utf8Size) hmore
  rw [List.drop_append_of_le_length (Nat.le_of_eq (String.length_utf8EncodeChar c).symm),
    List.drop_of_length_le (Nat.le_of_eq (String.length_utf8EncodeChar c)),
    List.nil_append] at hdrop
  obtain ⟨n, hn⟩ := Nat.exists_eq_succ_of_ne_zero (Nat.pos_iff_ne_zero.1 c.utf8Size_pos)
  rw [hn, List.drop_succ_cons] at hdrop
  rw [hn, Nat.succ_sub_one, ← hdrop, hmore]

theorem decodeUtf8_encodeUtf8 (text : List Char) : decodeUtf8 (encodeUtf8 text) = .ok text := by
  induction text with
  | nil =>
    rw [encodeUtf8, List.flatMap_nil, decodeUtf8]
  | cons c text ih =>
    obtain ⟨byte, bytes, hbytes⟩ := List.exists_cons_of_ne_nil (utf8EncodeChar_ne_nil c)
    have hfirst : firstChar? (encodeUtf8 (c :: text)) = some c := by
      rw [firstChar?_eq_some_iff, encodeUtf8_cons]
      exact List.prefix_append _ _
    rw [encodeUtf8_cons, hbytes, List.cons_append] at hfirst
    have hrest := exists_of_firstChar? hfirst
    rw [hbytes, List.cons_append, List.cons.injEq] at hrest
    rw [encodeUtf8_cons, hbytes, List.cons_append, decodeUtf8, hfirst]
    simp only [← List.append_cancel_left hrest.2, ih]

theorem encodeUtf8_of_decodeUtf8 (h : decodeUtf8 bytes = .ok text) : encodeUtf8 text = bytes := by
  fun_induction decodeUtf8 bytes generalizing text with
  | case1 =>
    cases h
    rfl
  | case2 => cases h
  | case3 byte rest c hfirst chars hrest ih =>
    cases h
    rw [encodeUtf8_cons, ih hrest, ← exists_of_firstChar? hfirst]
  | case4 => cases h

/-- Where decoding stops, a text has been read and no character follows. -/
theorem exists_of_decodeUtf8_error (h : decodeUtf8 bytes = .error n) :
    ∃ text rest, bytes = encodeUtf8 text ++ rest ∧ (encodeUtf8 text).length = n ∧
      firstChar? rest = none := by
  fun_induction decodeUtf8 bytes generalizing n with
  | case1 => cases h
  | case2 byte rest hfirst =>
    cases h
    exact ⟨[], byte :: rest, rfl, rfl, hfirst⟩
  | case3 => cases h
  | case4 byte rest c hfirst valid hrest ih =>
    cases h
    obtain ⟨text, more, hmore, hlength, hnone⟩ := ih hrest
    refine ⟨c :: text, more, ?_, ?_, hnone⟩
    · rw [exists_of_firstChar? hfirst, hmore, encodeUtf8_cons, List.append_assoc]
    · rw [encodeUtf8_cons, List.length_append, String.length_utf8EncodeChar, hlength]

/-- The bytes of a text start with those of another only if the text starts with the other. -/
theorem exists_of_encodeUtf8_append {start : List Char} {more : List UInt8}
    (h : encodeUtf8 text = encodeUtf8 start ++ more) : ∃ rest, more = encodeUtf8 rest := by
  induction start generalizing text with
  | nil => exact ⟨text, h.symm⟩
  | cons c start ih =>
    rw [encodeUtf8_cons, List.append_assoc] at h
    have hc : firstChar? (encodeUtf8 text) = some c := by
      rw [firstChar?_eq_some_iff, h]
      exact List.prefix_append _ _
    cases text with
    | nil =>
      rw [encodeUtf8, List.flatMap_nil] at h
      exact absurd (List.append_eq_nil_iff.1 h.symm).1 (utf8EncodeChar_ne_nil c)
    | cons d text =>
      have hd : firstChar? (encodeUtf8 (d :: text)) = some d := by
        rw [firstChar?_eq_some_iff, encodeUtf8_cons]
        exact List.prefix_append _ _
      obtain rfl : d = c := Option.some.inj (hd.symm.trans hc)
      rw [encodeUtf8_cons] at h
      exact ih (List.append_cancel_left h)

/-- No text has bytes that go on where decoding stops. -/
theorem length_le_of_firstChar?_eq_none {start : List Char} {rest : List UInt8}
    (hnone : firstChar? rest = none) (h : encodeUtf8 text <+: encodeUtf8 start ++ rest) :
    (encodeUtf8 text).length ≤ (encodeUtf8 start).length := by
  rcases List.prefix_or_prefix_of_prefix h
    (List.prefix_append (encodeUtf8 start) rest) with hle | ⟨more, hmore⟩
  · exact hle.length_le
  · -- What the text has beyond the start would begin with a character of `rest`.
    obtain ⟨others, rfl⟩ := exists_of_encodeUtf8_append hmore.symm
    rw [← hmore, List.prefix_append_right_inj] at h
    cases others with
    | nil =>
      rw [← hmore, List.length_append]
      exact Nat.le_refl _
    | cons c others =>
      rw [encodeUtf8_cons] at h
      have hfirst := firstChar?_eq_some_iff.2 ((List.prefix_append _ _).trans h)
      rw [hnone] at hfirst
      cases hfirst

end Text

/-! ### Bodies of sources -/

theorem decodeBody_eq_ok_iff :
    decodeBody encoding body = .ok text ↔ encoding.encode? text = some body := by
  cases encoding with
  | utf8 =>
    rw [decodeBody, Encoding.encode?, Option.some.injEq]
    constructor
    · exact encodeUtf8_of_decodeUtf8
    · rintro rfl
      exact decodeUtf8_encodeUtf8 text
  | ascii =>
    rw [decodeBody, Encoding.encode?]
    constructor
    · intro h
      split at h
      · cases h
      · next hnone =>
        cases h
        apply encodeBelow?_charsOfBytes
        intro byte hmem
        have hsmall := List.findIdx?_eq_none_iff.1 hnone byte hmem
        simpa [UInt8.lt_iff_toNat_lt, UInt8.le_iff_toNat_le] using hsmall
    · intro h
      obtain ⟨rfl, hbelow⟩ := eq_charsOfBytes_of_encodeBelow? (by decide) h
      have hnone : body.findIdx? (· ≥ 128) = none := by
        rw [List.findIdx?_eq_none_iff]
        intro byte hmem
        simpa [UInt8.lt_iff_toNat_lt, UInt8.le_iff_toNat_le] using hbelow byte hmem
      rw [hnone]
  | latin1 =>
    rw [decodeBody, Encoding.encode?]
    constructor
    · intro h
      cases h
      exact encodeBelow?_charsOfBytes fun byte _ => byte.toNat_lt
    · intro h
      rw [(eq_charsOfBytes_of_encodeBelow? (Nat.le_refl _) h).1]

/-- Decoding stops after the longest valid start. -/
theorem decodeBody_error (h : decodeBody encoding body = .error n) :
    IsLongestStart encoding.Valid body n := by
  cases encoding with
  | utf8 =>
    rw [decodeBody] at h
    obtain ⟨text, rest, rfl, hlength, hnone⟩ := exists_of_decodeUtf8_error h
    refine ⟨encodeUtf8 text, List.prefix_append _ _, ⟨text, rfl⟩, hlength, ?_⟩
    rintro other hother ⟨read, hread⟩
    obtain rfl : encodeUtf8 read = other := Option.some.inj hread
    rw [← hlength]
    exact length_le_of_firstChar?_eq_none hnone hother
  | ascii =>
    rw [decodeBody] at h
    split at h
    · next offset hfound =>
      cases h
      obtain ⟨hlt, hlarge, hsmall⟩ := List.findIdx?_eq_some_iff_getElem.1 hfound
      refine ⟨body.take n, List.take_prefix _ _, ?_, ?_, ?_⟩
      · refine ⟨charsOfBytes (body.take n), encodeBelow?_charsOfBytes ?_⟩
        intro byte hmem
        obtain ⟨i, hi, rfl⟩ := List.mem_take_iff_getElem.1 hmem
        have hbyte := hsmall i (by omega)
        simpa [UInt8.lt_iff_toNat_lt, UInt8.le_iff_toNat_le] using hbyte
      · rw [List.length_take]
        omega
      · -- A longer start holds the byte that was found.
        rintro other ⟨more, rfl⟩ ⟨read, hread⟩
        obtain ⟨-, hbelow⟩ := eq_charsOfBytes_of_encodeBelow? (by decide) hread
        by_contra hlonger
        have hget : n < other.length := by omega
        have hbyte := hbelow _ (List.getElem_mem hget)
        rw [List.getElem_append_left hget] at hlarge
        simp only [ge_iff_le, decide_eq_true_eq, UInt8.le_iff_toNat_le] at hlarge
        exact absurd hbyte (Nat.not_lt.2 hlarge)
    · cases h
  | latin1 =>
    rw [decodeBody] at h
    cases h

theorem not_valid_of_decodeBody_error (h : decodeBody encoding body = .error n) :
    ¬encoding.Valid body := by
  rintro ⟨text, htext⟩
  rw [decodeBody_eq_ok_iff.2 htext] at h
  cases h

/-! ### Byte order marks -/

/-- The bytes that a source has before its body. -/
def markOf (bytes : List UInt8) : List UInt8 :=
  if hasMark bytes then byteOrderMarkBytes else []

theorem hasMark_iff : hasMark bytes = true ↔ byteOrderMarkBytes <+: bytes :=
  List.isPrefixOf_iff_prefix

theorem markOf_append_bodyOf (bytes : List UInt8) : markOf bytes ++ bodyOf bytes = bytes := by
  rw [markOf, bodyOf]
  split
  · next hmark =>
    obtain ⟨rest, rfl⟩ := hasMark_iff.1 hmark
    rfl
  · rfl

theorem length_markOf (bytes : List UInt8) :
    (markOf bytes).length = if hasMark bytes then 3 else 0 := by
  rw [markOf]
  split <;> rfl

/-- The body of a start of a source that holds the mark is a start of its body. -/
theorem bodyOf_markOf_append {start : List UInt8} (h : start <+: bodyOf bytes) :
    bodyOf (markOf bytes ++ start) = start := by
  by_cases hmark : hasMark bytes = true
  · rw [markOf, if_pos hmark, bodyOf, if_pos (hasMark_iff.2 (List.prefix_append _ _))]
    rfl
  · have hstart : ¬hasMark start = true := by
      rw [bodyOf, if_neg hmark] at h
      exact fun hsome => hmark (hasMark_iff.2 ((hasMark_iff.1 hsome).trans h))
    rw [markOf, if_neg hmark, List.nil_append, bodyOf, if_neg hstart]

/-- The longest valid start of a source is its mark with the longest valid start of its body. -/
theorem isLongestStart_bodyOf {property : List UInt8 → Prop}
    (h : IsLongestStart property (bodyOf bytes) n) :
    IsLongestStart (fun start => property (bodyOf start)) bytes
      (n + if hasMark bytes then 3 else 0) := by
  obtain ⟨start, hstart, hproperty, rfl, hmax⟩ := h
  have hbytes := markOf_append_bodyOf bytes
  have hmark := length_markOf bytes
  refine ⟨markOf bytes ++ start, ?_, ?_, ?_, ?_⟩
  · nth_rewrite 2 [← hbytes]
    rwa [List.prefix_append_right_inj]
  · show property (bodyOf (markOf bytes ++ start))
    rwa [bodyOf_markOf_append hstart]
  · rw [List.length_append, hmark]
    omega
  · intro other hother hvalid
    have hmarked : markOf bytes <+: bytes := ⟨bodyOf bytes, hbytes⟩
    rcases List.prefix_or_prefix_of_prefix hother hmarked with hshort | ⟨rest, rfl⟩
    · -- A start that ends inside the mark is no longer than the mark.
      have hle := hshort.length_le
      omega
    · have hrest : rest <+: bodyOf bytes := by
        nth_rewrite 2 [← hbytes] at hother
        rwa [List.prefix_append_right_inj] at hother
      have hvalid : property (bodyOf (markOf bytes ++ rest)) := hvalid
      rw [bodyOf_markOf_append hrest] at hvalid
      have hle := hmax rest hrest hvalid
      rw [List.length_append, hmark]
      omega

/-! ### Sources -/

theorem detectEncoding_ne_invalidData (bytes : List UInt8) (encoding : Encoding) (offset : Nat) :
    detectEncoding bytes ≠ .error (.invalidData encoding offset) := by
  intro h
  rw [detectEncoding] at h
  split at h
  · cases h
  · split at h
    · cases h
    · split at h <;> cases h

/-- All that decoding can do: a declaration is refused, or the body is decoded in the encoding that
was found. -/
theorem decode_cases (bytes : List UInt8) :
    (∃ error, detectEncoding bytes = .error error ∧ decode bytes = .error error) ∨
    ∃ encoding, detectEncoding bytes = .ok encoding ∧
      ((∃ text, decodeBody encoding (bodyOf bytes) = .ok text ∧
        decode bytes = .ok (text, encoding)) ∨ ∃ n, decodeBody encoding (bodyOf bytes) = .error n ∧
          decode bytes = .error (.invalidData encoding (n + if hasMark bytes then 3 else 0))) := by
  cases hdetect : detectEncoding bytes with
  | error error => exact .inl ⟨error, rfl, by simp only [decode, hdetect]⟩
  | ok encoding =>
    refine .inr ⟨encoding, rfl, ?_⟩
    cases hbody : decodeBody encoding (bodyOf bytes) with
    | ok text => exact .inl ⟨text, rfl, by simp only [decode, hdetect, hbody]⟩
    | error n => exact .inr ⟨n, rfl, by simp only [decode, hdetect, hbody]⟩

theorem decodeBody_of_decode (h : decode bytes = .ok (text, encoding)) :
    decodeBody encoding (bodyOf bytes) = .ok text := by
  obtain ⟨_, -, hdecode⟩ | ⟨_, -, ⟨_, hbody, hdecode⟩ | ⟨_, -, hdecode⟩⟩ := decode_cases bytes
  all_goals rw [hdecode] at h
  all_goals cases h
  exact hbody

/-- Invalid data is found in the body only: no declaration of an encoding is refused in that way. -/
theorem decode_eq_invalidData_iff {offset : Nat} :
    decode bytes = .error (.invalidData encoding offset) ↔
      detectEncoding bytes = .ok encoding ∧ ∃ n, decodeBody encoding (bodyOf bytes) = .error n ∧
        offset = n + if hasMark bytes then 3 else 0 := by
  obtain ⟨error, hdetect, hdecode⟩ | ⟨found, hdetect,
      ⟨text, hbody, hdecode⟩ | ⟨n, hbody, hdecode⟩⟩ :=
    decode_cases bytes
  · rw [hdecode, hdetect]
    constructor
    · rintro ⟨⟩
      exact absurd hdetect (detectEncoding_ne_invalidData bytes encoding offset)
    · rintro ⟨⟨⟩, -⟩
  · rw [hdecode, hdetect]
    constructor
    · rintro ⟨⟩
    · rintro ⟨⟨⟩, n, hn, -⟩
      rw [hbody] at hn
      cases hn
  · rw [hdecode, hdetect]
    constructor
    · rintro ⟨⟩
      exact ⟨rfl, n, hbody, rfl⟩
    · rintro ⟨⟨⟩, m, hm, rfl⟩
      rw [hbody, Except.error.injEq] at hm
      rw [hm]

/-- A decoded text gives back all bytes of its source, and bytes are refused as invalid exactly
where the longest start ends that is valid in the encoding of the source. -/
theorem decode_lossless_exact (bytes : List UInt8) :
    (∀ text encoding, decode bytes = .ok (text, encoding) →
      ∃ body, encoding.encode? text = some body ∧
        (if byteOrderMarkBytes <+: bytes then byteOrderMarkBytes else []) ++ body = bytes) ∧
    ∀ encoding offset, decode bytes = .error (.invalidData encoding offset) ↔
      detectEncoding bytes = .ok encoding ∧ ¬encoding.Valid (bodyOf bytes) ∧
        IsLongestStart (fun start => encoding.Valid (bodyOf start)) bytes offset := by
  constructor
  · intro text encoding h
    have hmark : (if byteOrderMarkBytes <+: bytes then byteOrderMarkBytes else []) =
        markOf bytes := by
      rw [markOf]
      simp only [hasMark_iff]
    refine ⟨bodyOf bytes, decodeBody_eq_ok_iff.1 (decodeBody_of_decode h), ?_⟩
    rw [hmark, markOf_append_bodyOf]
  · intro encoding offset
    rw [decode_eq_invalidData_iff]
    constructor
    · rintro ⟨hdetect, n, hbody, rfl⟩
      exact ⟨hdetect, not_valid_of_decodeBody_error hbody,
        isLongestStart_bodyOf (decodeBody_error hbody)⟩
    · rintro ⟨hdetect, hinvalid, hlongest⟩
      refine ⟨hdetect, ?_⟩
      cases hbody : decodeBody encoding (bodyOf bytes) with
      | ok text => exact absurd ⟨text, decodeBody_eq_ok_iff.1 hbody⟩ hinvalid
      | error n => exact ⟨n, rfl, hlongest.unique (isLongestStart_bodyOf (decodeBody_error hbody))⟩

/-- A byte order mark, a letter and two bytes of a character that has three. -/
theorem decode_lossless_exact_truncated :
    decode [0xEF, 0xBB, 0xBF, 0x61, 0xE2, 0x82] = .error (.invalidData .utf8 4) ∧
      ¬Encoding.utf8.Valid (bodyOf [0xEF, 0xBB, 0xBF, 0x61, 0xE2, 0x82]) ∧
      IsLongestStart (fun start => Encoding.utf8.Valid (bodyOf start))
        [0xEF, 0xBB, 0xBF, 0x61, 0xE2, 0x82] 4 := by
  have hdecode : decode [0xEF, 0xBB, 0xBF, 0x61, 0xE2, 0x82] = .error (.invalidData .utf8 4) := by
    decide +kernel
  obtain ⟨-, hinvalid⟩ := ((decode_lossless_exact _).2 _ _).1 hdecode
  exact ⟨hdecode, hinvalid⟩

end PythonLint
