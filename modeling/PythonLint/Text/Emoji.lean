import PythonLint.Text.CharSet

/-!
# Emoji

The characters that are shown as pictures unless something else is asked for, which is the Unicode
property `Emoji_Presentation`, as of Unicode 10.
-/

namespace PythonLint.Text

def emojiPresentation : CharSet where
  runs := [
    8986, 2, 205, 4, 3, 1, 2, 1, 521, 2, 21, 2, 50, 12, 43, 1, 19, 1, 13, 1, 8, 2, 17, 2, 5, 2, 8,
    1, 5, 1, 21, 1, 7, 2, 1, 1, 4, 1, 2, 1, 7, 1, 4, 2, 28, 1, 35, 1, 1, 1, 4, 3, 1, 1, 61, 3, 24,
    1, 14, 1, 859, 2, 51, 1, 4, 1, 115886, 1, 202, 1, 190, 1, 2, 10, 75, 26, 1, 1, 24, 1, 20, 1, 2,
    5, 1, 3, 21, 2, 174, 33, 12, 9, 1, 70, 1, 22, 12, 43, 4, 5, 12, 17, 3, 1, 3, 71, 1, 1, 1, 187,
    2, 63, 13, 4, 1, 24, 18, 1, 26, 2, 13, 1, 86, 85, 48, 70, 6, 1, 3, 3, 24, 2, 7, 5, 535, 43, 1,
    3, 1, 6, 1, 6, 3, 28, 20, 24, 40, 1, 15, 23]

/-- The character is shown as a picture by default. -/
def isEmoji (c : Char) : Bool :=
  emojiPresentation.contains c

end PythonLint.Text
