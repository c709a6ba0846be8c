import PythonLint.Proofs.Lookahead

/-!
# What a piece before a masked word depends on

A text and its masked copy are the same up to the first letter of a word, which is a `p`. No reader
looks past that letter, so that the pieces before it are the same.

Main statements: `scanPiece_congr`.
-/

namespace PythonLint

/-- No reader looks past the first letter of `print`. -/
theorem isStop_p : IsStop 'p' := by
  have hsymbols : ∀ symbol ∈ symbols, 'p' ∉ symbol.toList := by decide
  refine ⟨rfl, hsymbols, rfl, fun c => ?_⟩
  unfold lettersKind?
  split <;> simp_all

/-- No quote comes first. -/
def Unquoted (text : List Char) : Prop :=
  ∀ c ∈ text.head?, isQuote c = false

/-- Two texts that are the same up to the first letter of a word, which is a `p` that no quote
follows. -/
def SameUpToWord (a b : List Char) : Prop :=
  a = b ∨ ∃ gap u v, a = gap ++ 'p' :: u ∧ b = gap ++ 'p' :: v ∧ Unquoted u ∧ Unquoted v

theorem SameUpToWord.head?_eq {a b : List Char} (h : SameUpToWord a b) : a.head? = b.head? := by
  rcases h with rfl | ⟨gap, u, v, rfl, rfl, -, -⟩
  · rfl
  · exact stopsAt_head? 'p' gap u v

/-- A piece is read in the same way before two texts that are the same up to a word. -/
theorem scanPiece_congr {depth : Nat} {c : Char} {word a b : List Char} {tok : Option Tok}
    (h : scanPiece depth c (word ++ a) = .ok (tok, word.length + 1)) (hab : SameUpToWord a b) :
    scanPiece depth c (word ++ b) = .ok (tok, word.length + 1) := by
  rcases hab with rfl | ⟨gap, u, v, rfl, rfl, -, -⟩
  · exact h
  · rw [← List.append_assoc] at h ⊢
    refine scanPiece_stop isStop_p h ?_ v
    rw [List.length_append]
    omega

end PythonLint
