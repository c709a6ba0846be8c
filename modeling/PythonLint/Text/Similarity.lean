/-!
# Similar texts

How similar two texts are, by the share of characters that both have at nearly the same place and in
the same order.
-/

namespace PythonLint.Text

/-- The first place from `low` to `high` that is still free and holds a character. -/
def freePlace? (c : Char) (low high : Nat) (taken : List Nat) (text : List Char) : Option Nat :=
  (text.zipIdx.find? fun (other, place) =>
    other == c && low ≤ place && place ≤ high && !taken.contains place).map Prod.snd

/-- The characters of a text for which the other one has the same character at most `reach` places
away, and these places, each used once. -/
def matchChars (reach : Nat) (other : List Char) :
    List (Char × Nat) → List Nat → List Char × List Nat
  | [], taken => ([], taken)
  | (c, place) :: rest, taken =>
    match freePlace? c (place - reach) (place + reach) taken other with
    | none => matchChars reach other rest taken
    | some found =>
      let (chars, all) := matchChars reach other rest (found :: taken)
      (c :: chars, all)

/-- The characters of two texts that go together, in the order of each text. -/
def commonChars (a b : List Char) : List Char × List Char :=
  let (first, places) := matchChars (max a.length b.length / 2 - 1) b a.zipIdx []
  (first, (b.zipIdx.filter fun (_, place) => places.contains place).map Prod.fst)

/-- A similarity from 0 to 1, as a fraction. -/
structure Similarity where
  num : Nat
  den : Nat
deriving DecidableEq, Repr

def Similarity.le (a b : Similarity) : Bool :=
  decide (a.num * b.den ≤ b.num * a.den)

/-- The similarity of two texts: the mean of the shares of common characters in both of them and of
the share of those that stand in the same order. -/
def similarity (a b : List Char) : Similarity :=
  let (first, second) := commonChars a b
  let common := first.length
  let swapped := ((first.zip second).countP fun (c, d) => c != d) / 2
  if a.isEmpty ∧ b.isEmpty then ⟨1, 1⟩
  else if common = 0 then ⟨0, 1⟩
  else
    ⟨common * b.length * common + common * a.length * common + (common - swapped) *
      a.length * b.length, 3 * a.length * b.length * common⟩

/-- The most similar of some texts, if its similarity is more than seven tenths; of equals, the last
one. -/
def mostSimilar? (text : List Char) (choices : List (List Char)) : Option (List Char) :=
  let close := choices.filter fun choice => !(similarity text choice).le ⟨7, 10⟩
  close.foldl (fun best choice =>
    match best with
    | none => some choice
    | some other =>
      if (similarity text other).le (similarity text choice) then some choice else best) none

end PythonLint.Text
