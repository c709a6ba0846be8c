import PythonLint.Token.Stream
import Mathlib.Data.List.Basic

/-!
# Reading tokens one at a time

A token stream can be read as it is asked for: a reader keeps the lexemes that are left, turns those
of one logical line into tokens when it has none to give, and gives them out one by one. A fault of
the scan is given out once, in place of the tokens of its logical line, and after that, as after the
end of the source, every call gives nothing. The calls give the tokens of `tokenize` in order, then
its error.

Main statements: `logicalLines_lineOf`, `call_ofText`.
-/

namespace PythonLint

open Text

variable {text : List Char} {lexemes rest : List Lexeme}

/-! ### Logical lines of lexemes -/

/-- The pieces of lexemes up to and including the first newline, and the lexemes after it; `none`
when there is no newline. -/
def lineOf (text : List Char) (lines : List (List Char)) :
    List Lexeme → List Piece × Option (List Lexeme)
  | [] => ([], none)
  | lexeme :: rest =>
    let piece := pieceOf text lines lexeme ((rest.head?.map Lexeme.start).getD lexeme.stop)
    if piece.kind = .newline then ([piece], some rest)
    else (piece :: (lineOf text lines rest).1, (lineOf text lines rest).2)

section LineOf

variable {text : List Char} {lines : List (List Char)}

theorem length_of_lineOf (h : (lineOf text lines lexemes).2 = some rest) :
    rest.length < lexemes.length := by
  induction lexemes with
  | nil => cases h
  | cons lexeme lexemes ih =>
    rw [lineOf] at h
    rw [List.length_cons]
    split at h
    · cases h
      exact Nat.lt_succ_self _
    · exact Nat.lt_succ_of_lt (ih h)

/-- The pieces up to a newline are the first logical line, and the others are those of the lexemes
after it. -/
theorem logicalLines_lineOf (h : (lineOf text lines lexemes).2 = some rest) :
    logicalLines (piecesOf text lines lexemes) =
      ((lineOf text lines lexemes).1 :: (logicalLines (piecesOf text lines rest)).1,
        (logicalLines (piecesOf text lines rest)).2) := by
  induction lexemes with
  | nil => cases h
  | cons lexeme lexemes ih =>
    rw [lineOf] at h ⊢
    rw [piecesOf, logicalLines]
    simp only at h ⊢
    split at h
    · next hkind =>
      cases h
      simp only [hkind, if_true]
    · next hkind =>
      rw [ih h]
      simp only [if_neg hkind]

/-- Without a newline all pieces belong to a logical line that is not complete. -/
theorem logicalLines_lineOf_none (h : (lineOf text lines lexemes).2 = none) :
    logicalLines (piecesOf text lines lexemes) = ([], (lineOf text lines lexemes).1) := by
  induction lexemes with
  | nil => rfl
  | cons lexeme lexemes ih =>
    rw [lineOf] at h ⊢
    rw [piecesOf, logicalLines]
    simp only at h ⊢
    split at h
    · cases h
    · next hkind =>
      rw [ih h]
      simp only [if_neg hkind]

end LineOf

/-! ### Readers -/

/-- What is left of a source that is being read. -/
structure TokenReader where
  text : List Char
  lexemes : List Lexeme
  fault : Option Misplaced
  ready : List Token
  /-- The end of the source or a fault has been reached. -/
  finished : Bool

/-- All that the calls of a reader give: tokens, and the error after them, if any. -/
def TokenStream.results (stream : TokenStream) : List (Except TokenError Token) :=
  stream.tokens.map .ok ++ stream.error.toList.map .error

namespace TokenReader

/-- The reader at the start of a source. -/
def ofText (text : List Char) : TokenReader :=
  let scan := scanModule (untabify text)
  ⟨text, scan.lexemes, scan.fault, [], false⟩

/-- The reader with the tokens of the next logical line, which may be the last one. A fault takes
the pieces of its logical line with it. -/
def fill (reader : TokenReader) : Except TokenError TokenReader :=
  let lines := lines reader.text
  let (pieces, left) := lineOf reader.text lines reader.lexemes
  match left with
  | some rest => .ok { reader with lexemes := rest, ready := tokensOfLine lines pieces }
  | none =>
    match reader.fault with
    | some fault => .error (tokenError reader.text fault)
    | none =>
      .ok { reader with
        lexemes := []
        ready := tokensOfLine lines (pieces ++ [endPiece reader.text])
        finished := true }

/-- Gives out the first token that is ready. -/
def pop (reader : TokenReader) : Option (Except TokenError Token) × TokenReader :=
  match reader.ready with
  | [] => (none, reader)
  | token :: rest => (some (.ok token), { reader with ready := rest })

/-- One call: the next token, the error, or nothing, and the reader after it. -/
def next (reader : TokenReader) : Option (Except TokenError Token) × TokenReader :=
  if reader.ready.isEmpty && !reader.finished then
    match reader.fill with
    | .ok filled => filled.pop
    | .error error => (some (.error error), { reader with finished := true })
  else reader.pop

/-- What a call gives when `n` calls have been made before it. -/
def call (reader : TokenReader) : (n : Nat) → Option (Except TokenError Token)
  | 0 => reader.next.1
  | n + 1 => reader.next.2.call n

/-! ### Single calls -/

/-- The calls of the reader give the results in order and then nothing. -/
def Gives (reader : TokenReader) (results : List (Except TokenError Token)) : Prop :=
  ∀ n, reader.call n = results[n]?

variable {reader after : TokenReader} {results : List (Except TokenError Token)}

theorem Gives.cons {result : Except TokenError Token} (hnext : reader.next = (some result, after))
    (h : after.Gives results) : reader.Gives (result :: results) := by
  intro n
  cases n with
  | zero => rw [call, hnext, List.getElem?_cons_zero]
  | succ n => rw [call, hnext, List.getElem?_cons_succ, h n]

theorem gives_nil (hready : reader.ready = []) (hfinished : reader.finished = true) :
    reader.Gives [] := by
  have hnext : reader.next = (none, reader) := by simp [next, pop, hready, hfinished]
  intro n
  induction n with
  | zero => rw [call, hnext, List.getElem?_nil]
  | succ n ih => rw [call, hnext, ih, List.getElem?_nil, List.getElem?_nil]

/-- Tokens that are ready are given out before anything else is read. -/
theorem Gives.ready {fault : Option Misplaced} {finished : Bool} (tokens : List Token)
    (h : (mk text lexemes fault [] finished).Gives results) :
    (mk text lexemes fault tokens finished).Gives (tokens.map Except.ok ++ results) := by
  induction tokens with
  | nil => exact h
  | cons token tokens ih => exact Gives.cons rfl ih

/-- When none is ready, a call gives the first token of the next logical line. -/
theorem Gives.fill {filled : TokenReader} (hready : reader.ready = [])
    (hfinished : reader.finished = false) (hfill : reader.fill = .ok filled)
    (hne : filled.ready ≠ []) (h : filled.Gives results) : reader.Gives results := by
  obtain ⟨token, rest, htokens⟩ := List.exists_cons_of_ne_nil hne
  have hsame : reader.next = filled.next := by
    simp [next, hready, hfinished, hfill, htokens]
  intro n
  rw [← h n]
  cases n with
  | zero => rw [call, call, hsame]
  | succ n => rw [call, call, hsame]

/-! ### All calls -/

theorem tokensOfLine_ne_nil {lines : List (List Char)} {pieces : List Piece} (h : pieces ≠ []) :
    tokensOfLine lines pieces ≠ [] := by
  simpa [tokensOfLine] using h

theorem lineOf_ne_nil {lines : List (List Char)} (h : (lineOf text lines lexemes).2 = some rest) :
    (lineOf text lines lexemes).1 ≠ [] := by
  cases lexemes with
  | nil => cases h
  | cons lexeme lexemes =>
    rw [lineOf]
    split <;> exact List.cons_ne_nil _ _

/-- The token stream of lexemes and the fault that ends them. -/
def streamOf (text : List Char) (lexemes : List Lexeme) (fault : Option Misplaced) : TokenStream :=
  let (groups, tail) := logicalLines (piecesOf text (lines text) lexemes)
  match fault with
  | some fault => ⟨groups.flatMap (tokensOfLine (lines text)), some (tokenError text fault)⟩
  | none => ⟨(groups ++ [tail ++ [endPiece text]]).flatMap (tokensOfLine (lines text)), none⟩

/-- The tokens of the first logical line come first, and the fault comes after all others as
well. -/
theorem results_streamOf (fault : Option Misplaced)
    (h : (lineOf text (lines text) lexemes).2 = some rest) :
    (streamOf text lexemes fault).results =
      (tokensOfLine (lines text) (lineOf text (lines text) lexemes).1).map .ok ++
        (streamOf text rest fault).results := by
  rw [streamOf, streamOf, logicalLines_lineOf h]
  cases fault with
  | none => simp [TokenStream.results]
  | some fault => simp [TokenStream.results]

theorem gives_streamOf (text : List Char) (lexemes : List Lexeme) (fault : Option Misplaced) :
    (TokenReader.mk text lexemes fault [] false).Gives (streamOf text lexemes fault).results := by
  induction hlength : lexemes.length using Nat.strongRecOn generalizing lexemes with
  | _ n ih =>
    cases hleft : (lineOf text (lines text) lexemes).2 with
    | some rest =>
      have hrest := ih rest.length (by rw [← hlength]; exact length_of_lineOf hleft) rest rfl
      have hfill : (mk text lexemes fault [] false).fill =
          .ok ⟨text, rest, fault, tokensOfLine (lines text) (lineOf text (lines text) lexemes).1,
            false⟩ := by
        simp only [TokenReader.fill, hleft]
      rw [results_streamOf fault hleft]
      exact Gives.fill rfl rfl hfill (tokensOfLine_ne_nil (lineOf_ne_nil hleft)) (hrest.ready _)
    | none =>
      have hlines := logicalLines_lineOf_none hleft
      cases fault with
      | some fault =>
        have hresults : (streamOf text lexemes (some fault)).results =
            [.error (tokenError text fault)] := by
          rw [streamOf, hlines]
          rfl
        have hnext : (mk text lexemes (some fault) [] false).next =
            (some (.error (tokenError text fault)), ⟨text, lexemes, some fault, [], true⟩) := by
          simp [next, TokenReader.fill, hleft]
        rw [hresults]
        exact Gives.cons hnext (gives_nil rfl rfl)
      | none =>
        have hresults : (streamOf text lexemes none).results =
            (tokensOfLine (lines text) ((lineOf text (lines text) lexemes).1 ++
              [endPiece text])).map .ok ++ [] := by
          rw [streamOf, hlines]
          simp [TokenStream.results]
        have hfill : (mk text lexemes none [] false).fill = .ok ⟨text, [], none,
            tokensOfLine (lines text) ((lineOf text (lines text) lexemes).1 ++ [endPiece text]),
            true⟩ := by
          simp only [TokenReader.fill, hleft]
        rw [hresults]
        exact Gives.fill rfl rfl hfill (tokensOfLine_ne_nil (by simp))
          (Gives.ready _ (gives_nil rfl rfl))

/-- The calls of a reader give the tokens of the source, then its error if it has one, and then
nothing. -/
theorem call_ofText (text : List Char) (n : Nat) :
    (ofText text).call n = (tokenize text).results[n]? :=
  gives_streamOf text _ _ n

end TokenReader

end PythonLint
