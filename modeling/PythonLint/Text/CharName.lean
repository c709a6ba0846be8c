/-!
# Names of characters

An escape in a text may give a character by its name. Which names there are is a table of the
Unicode standard. The program is written for any such table. The one that it uses by default has
Latin and Greek letters, digits and common marks.
-/

namespace PythonLint.Text

/-- The names that characters have. -/
abbrev NameTable := List Char → Bool

/-- The table that names are looked up in. -/
class CharNames where
  isName : NameTable

def latinLetters : List String :=
  "ABCDEFGHIJKLMNOPQRSTUVWXYZ".toList.map Char.toString ++
    ["A", "E", "I", "O", "U"].flatMap (fun letter =>
      ["GRAVE", "ACUTE", "CIRCUMFLEX", "DIAERESIS"].map (letter ++ " WITH " ++ ·)) ++
    ["A WITH RING ABOVE", "A WITH TILDE", "AE", "C WITH CEDILLA", "ETH", "N WITH TILDE",
      "O WITH STROKE", "O WITH TILDE", "THORN", "Y WITH ACUTE"]

def greekLetters : List String :=
  ["ALPHA", "BETA", "GAMMA", "DELTA", "EPSILON", "ZETA", "ETA", "THETA", "IOTA", "KAPPA", "LAMDA",
    "MU", "NU", "XI", "OMICRON", "PI", "RHO", "SIGMA", "TAU", "UPSILON", "PHI", "CHI", "PSI",
    "OMEGA"]

/-- Names that start alike, and how they go on. -/
def commonNames : List (String × List String) := [
  ("LATIN CAPITAL LETTER ", latinLetters),
  ("LATIN SMALL LETTER ", "SHARP S" :: latinLetters),
  ("GREEK CAPITAL LETTER ", greekLetters),
  ("GREEK SMALL LETTER ", "FINAL SIGMA" :: greekLetters),
  ("DIGIT ", ["ZERO", "ONE", "TWO", "THREE", "FOUR", "FIVE", "SIX", "SEVEN", "EIGHT", "NINE"]),
  ("", ["SPACE", "NO-BREAK SPACE", "ZERO WIDTH SPACE", "EN DASH", "EM DASH", "BULLET",
    "MIDDLE DOT", "HORIZONTAL ELLIPSIS", "LEFT SINGLE QUOTATION MARK",
    "RIGHT SINGLE QUOTATION MARK", "LEFT DOUBLE QUOTATION MARK", "RIGHT DOUBLE QUOTATION MARK",
    "DEGREE SIGN", "MICRO SIGN", "COPYRIGHT SIGN", "REGISTERED SIGN", "TRADE MARK SIGN",
    "SECTION SIGN", "PILCROW SIGN", "CENT SIGN", "POUND SIGN", "YEN SIGN", "EURO SIGN",
    "PLUS-MINUS SIGN", "MULTIPLICATION SIGN", "DIVISION SIGN", "INFINITY", "SNOWMAN",
    "CHECK MARK", "BLACK HEART SUIT", "LEFTWARDS ARROW", "RIGHTWARDS ARROW", "UPWARDS ARROW",
    "DOWNWARDS ARROW"])]

instance : CharNames where
  isName name := commonNames.any fun (start, rests) =>
    rests.any fun rest => start ++ rest == String.ofList (name.map Char.toUpper)

end PythonLint.Text
