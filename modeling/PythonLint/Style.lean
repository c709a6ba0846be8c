/-!
# Styled text

Text in bold or dimmed letters or in colour, for a terminal. A style is switched on by a sequence of
numbers before the text and switched off after it.
-/

namespace PythonLint

/-- The sequences of numbers that switch a style on, in order. -/
structure Style where
  codes : List (List Nat)
deriving DecidableEq, Repr

namespace Style

def bold : Style := ⟨[[1]]⟩

def dimmed : Style := ⟨[[2]]⟩

def red : Style := ⟨[[31]]⟩

def green : Style := ⟨[[32]]⟩

def yellow : Style := ⟨[[33]]⟩

def boldRed : Style := ⟨[[1, 31]]⟩

def boldYellow : Style := ⟨[[1, 33]]⟩

def boldCyan : Style := ⟨[[1, 36]]⟩

/-- Bold letters, then red ones. -/
def alert : Style := ⟨[[1], [31]]⟩

def opening (style : Style) : String :=
  String.join (style.codes.map fun codes => "\x1b[" ++ ";".intercalate (codes.map toString) ++ "m")

def closing : String := "\x1b[0m"

/-- The text with `insertion` after every end of a style. -/
def reopen (insertion : List Char) : List Char → List Char
  | '\x1b' :: '[' :: '0' :: 'm' :: rest => closing.toList ++ insertion ++ reopen insertion rest
  | c :: rest => c :: reopen insertion rest
  | [] => []

/-- The text in a style, if styles are shown. Where the text itself ends a style, this one is
switched on again. Nothing is shown of a style without text. -/
def paint (shown : Bool) (style : Style) (text : String) : String :=
  if shown && !text.isEmpty then
    style.opening ++ String.ofList (reopen style.opening.toList text.toList) ++ closing
  else text

/-- The text between what switches a style on and off, if styles are shown. -/
def wrap (shown : Bool) (style : Style) (text : String) : String :=
  if shown then style.opening ++ text ++ closing else text

end Style

end PythonLint
