import PythonLint.Lexeme

/-!
# Faults of a Python source

Everything that can be wrong with the text of a Python module, from a stray character to a misplaced
token, with the wording under which each is reported. A fault inside a field of a format string is a
fault of the string that holds the field.
-/

namespace PythonLint

/-- What can be wrong with the fields of a format string. -/
inductive FieldFault where
  | unclosed
  | singleClosingBrace
  | emptyExpression
  | invalidConversion
  | mismatchedBracket (opening closing : Char)
  | unmatchedBracket (closing : Char)
  /-- A format specification inside a format specification. -/
  | nestedTooDeeply
  | unterminatedString
deriving DecidableEq, Repr

namespace FieldFault

def message : FieldFault → String
  | unclosed => "expecting '\x7d'"
  | singleClosingBrace => "single '\x7d' is not allowed"
  | emptyExpression => "empty expression not allowed"
  | invalidConversion => "invalid conversion character"
  | mismatchedBracket opening closing =>
    "closing parenthesis '" ++ closing.toString ++ "' does not match opening parenthesis '" ++
      opening.toString ++ "'"
  | unmatchedBracket closing => "unmatched '" ++ closing.toString ++ "'"
  | nestedTooDeeply => "expressions nested too deeply"
  | unterminatedString => "unterminated string"

end FieldFault

/-- What can be wrong with a Python source. -/
inductive Fault where
  | tabAfterSpaces
  /-- Two indentations can only be compared by the width of a tab. -/
  | inconsistentTabs
  /-- An indentation falls between two open levels, or a block is missing at the end. -/
  | unmatchedIndentation
  | unmatchedClosing
  | strayCharacter (c : Char)
  | missingDigits
  | misplacedUnderscore
  | missingExponent
  | leadingZeros
  | lineEndInString
  /-- The source ends inside a string, or a character name is not given in braces. -/
  | unfinishedString
  | strayBackslash
  | unexpectedEnd
  | invalidEscape
  | nonAsciiBytes
  /-- Bytes literals next to text literals. -/
  | mixedBytes
  | field (fault : FieldFault)
  | fieldExpression (inner : Fault)
  | repeatedKeyword (name : String)
  | positionalAfterKeyword
  | unpackingAfterMapping
  | bareStar
  | defaultOrder
  | repeatedParameter (name : String)
  | starredAlone
  | doubleStarred
  | wildcardTarget
  /-- A token that cannot stand where it stands, and whether only an indentation could. -/
  | unexpectedToken (tok : Tok) (indentOnly : Bool)
  | endOfTokens
  /-- A source is no text after its print statements are masked. -/
  | invalidMask
deriving DecidableEq, Repr

namespace Fault

def message : Fault → String
  | tabAfterSpaces => "Tabs not allowed as part of indentation after spaces"
  | inconsistentTabs => "inconsistent use of tabs and spaces in indentation"
  | unmatchedIndentation => "unindent does not match any outer indentation level"
  | unmatchedClosing => "Got unexpected nesting"
  | strayCharacter c => "Got unexpected token " ++ c.toString
  | missingDigits => "ParseBigIntError \x7b kind: Empty \x7d"
  | misplacedUnderscore => "Invalid Syntax"
  | missingExponent => "Invalid decimal literal"
  | leadingZeros => "Invalid Token"
  | lineEndInString => "EOL while scanning string literal"
  | unfinishedString => "Got unexpected string"
  | strayBackslash => "unexpected character after line continuation character"
  | unexpectedEnd => "unexpected EOF while parsing"
  | invalidEscape => "Got unexpected unicode"
  | nonAsciiBytes => "bytes can only contain ASCII literal characters"
  | mixedBytes => "cannot mix bytes and nonbytes literals"
  | field fault => "f-string: " ++ fault.message
  | fieldExpression inner => "f-string: " ++ inner.message
  | repeatedKeyword name => "keyword argument repeated: " ++ name
  | positionalAfterKeyword => "positional argument follows keyword argument"
  | unpackingAfterMapping => "iterable argument unpacking follows keyword argument unpacking"
  | bareStar => "named arguments must follow bare *"
  | defaultOrder => "non-default argument follows default argument"
  | repeatedParameter name => "duplicate argument '" ++ name ++ "' in function definition"
  | starredAlone => "cannot use starred expression here"
  | doubleStarred => "cannot use double starred expression here"
  | wildcardTarget => "cannot use '_' as a target"
  | invalidMask => "masking print statements produced invalid text"
  | unexpectedToken .indent _ => "unexpected indent"
  | unexpectedToken tok indentOnly =>
    if indentOnly then "expected an indented block"
    else "invalid syntax. Got unexpected token " ++ tok.shown
  | endOfTokens => "Got unexpected EOF"

end Fault

/-- A fault and the byte position at which it is reported. -/
structure Misplaced where
  fault : Fault
  offset : Nat
deriving DecidableEq, Repr

end PythonLint
