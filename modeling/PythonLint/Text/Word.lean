import PythonLint.Text.Identifier

/-!
# Word characters

Letters, marks, decimal digits, connector punctuation and the two joiners, in every script. They are
the characters of identifiers but for a few, and more: enclosing marks, letters in circles and
squares, joiners, and the characters of scripts that are too new for identifiers.
-/

namespace PythonLint.Text

/-- The word characters that no identifier has. -/
def wordMore : CharSet where
  runs := [
    890, 1, 269, 2, 214, 1, 39, 1, 102, 1, 525, 1, 114, 24, 1, 6, 9, 8, 21, 1, 8, 22, 298, 1, 342,
    1, 174, 1, 55, 1, 32, 1, 127, 1, 21, 1, 16, 1, 124, 1, 260, 1, 2, 1, 2, 1, 1, 6, 4, 1, 7, 1, 7,
    2, 2, 1, 13, 1, 19, 1, 2110, 1, 7, 1, 9, 1, 239, 1, 104, 1, 581, 17, 125, 1, 323, 43, 2, 3, 58,
    1, 255, 1, 529, 2, 207, 4, 1, 3, 977, 52, 1861, 1, 47, 1, 463, 1, 767, 1, 139, 5, 7158, 10,
    21035, 21, 1648, 3, 316, 1, 8, 19, 5, 2, 1, 1, 1, 5, 24, 5, 53, 1, 209, 2, 614, 4, 20724, 6,
    406, 2, 116, 1, 1, 1, 1, 1, 1, 1, 1, 1, 1, 1, 1, 1, 1, 1, 1777, 11, 1, 15, 1, 7, 1, 2, 1, 11, 1,
    15, 1, 7, 1, 2, 451, 6, 1, 42, 1, 9, 633, 2, 714, 40, 8, 10, 326, 42, 1, 2, 3, 2, 75, 32, 10, 1,
    8, 33, 31, 22, 42, 21, 27, 23, 121, 6, 76, 1, 129, 4, 134, 2, 111, 3, 249, 1, 290, 4, 598, 1,
    97, 1, 37, 7, 185, 59, 197, 7, 2, 1, 2, 8, 1, 2, 1, 30, 1, 2, 2, 9, 12, 10, 70, 8, 2, 46, 2, 8,
    1, 2, 159, 2, 23, 1, 18, 16, 672, 6, 1, 2, 1, 37, 1, 2, 1, 6, 7, 10, 310, 23, 9, 17, 1, 41, 3,
    5, 13, 10, 86, 1, 4063, 97, 1086, 1, 16, 22, 13850, 79, 1, 10, 886, 64, 197, 6, 4, 1, 47, 9, 91,
    2, 11, 2, 6139, 11, 763, 483, 42, 9, 8935, 4, 1, 7, 1, 2, 288, 4, 15, 1, 29, 3, 2, 1, 14, 4,
    7576, 46, 2, 23, 4025, 31, 6, 6, 261, 62, 33, 1, 112, 45, 3, 14, 2, 10, 4, 1, 321, 31, 17, 58,
    470, 42, 742, 7, 1, 4, 1, 2, 1, 15, 332, 1, 2020, 26, 6, 26, 6, 26, 2662, 10, 43741, 9, 4181, 5,
    18630, 4939, 5, 4192]

/-- The characters of identifiers that are neither letters nor marks, digits or connectors. -/
def notWord : CharSet where
  runs := [
    183, 1, 719, 1, 4065, 9, 1640, 1, 1853, 1, 21, 1]

/-- Letters, marks, decimal digits, connector punctuation and joiners. -/
def isWordChar (c : Char) : Bool :=
  isIdentifierPart c && !notWord.contains c || wordMore.contains c

end PythonLint.Text
