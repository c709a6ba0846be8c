import PythonLint.Check.Report

/-!
# The pass over tokens

A block is indented by four columns more than the block around it, where a tab counts for eight. The
margin of a statement has tabs or spaces, not both.
-/

namespace PythonLint

/-- The columns of a margin: eight for a tab, one for any other character. -/
def indentationWidth (margin : List Char) : Nat :=
  margin.foldl (fun width c => width + if c = '\t' then 8 else 1) 0

/-- The warning about a block that adds other than four columns. -/
def wrongIndentation (reporter : Reporter) (added : Int) (token : Token) : Warning :=
  reporter.between .wrongIndentation
    ("Indented by " ++ toString added ++ " spaces instead of 4 as demanded by PEP 8")
    token.start token.stop

def mixedMargin (reporter : Reporter) (token : Token) : Warning :=
  reporter.between .mixedTabsAndSpaces
    ("Tabs and spaces are mixed. This is disallowed on Python 3 and inconsistent. Use either " ++
      "tabs or spaces exclusively, preferably spaces.")
    token.start token.stop

/-- The statement has both tabs and spaces in its margin. -/
def hasMixedMargin (token : Token) : Bool :=
  let margin := Text.margin token.logicalLine.toList
  margin.contains ' ' && margin.contains '\t'

def totalAdded (blocks : List Int) : Int :=
  blocks.foldr (· + ·) 0

/-- The columns that each open block has added, innermost first, after a token. -/
def blocksAfter (blocks : List Int) (token : Token) : List Int :=
  match token.kind with
  | .indent => (indentationWidth token.lexeme.toList - totalAdded blocks : Int) :: blocks
  | .dedent => blocks.tail
  | _ => blocks

def tokenWarnings (reporter : Reporter) (blocks : List Int) (token : Token) : List Warning :=
  match token.kind with
  | .indent =>
    let added : Int := indentationWidth token.lexeme.toList - totalAdded blocks
    if added = 4 then [] else [wrongIndentation reporter added token]
  | .newline => if hasMixedMargin token then [mixedMargin reporter token] else []
  | _ => []

/-- The warnings about tokens, the first of which stands inside open blocks. -/
def tokenWarningsFrom (reporter : Reporter) (blocks : List Int) : List Token → List Warning
  | [] => []
  | token :: rest =>
    tokenWarnings reporter blocks token ++
      tokenWarningsFrom reporter (blocksAfter blocks token) rest

/-- The warnings about the indentation and the margins of a source with the given tokens. -/
def checkTokens (reporter : Reporter) (tokens : List Token) : List Warning :=
  tokenWarningsFrom reporter [] tokens

end PythonLint
