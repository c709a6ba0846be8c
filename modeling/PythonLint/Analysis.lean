import PythonLint.Token

/-!
# Why a source cannot be analysed

A source that has no complete token stream, whose brackets do not match, or that no rule of the
grammar accepts.
-/

namespace PythonLint

/-- What can be wrong with brackets. -/
inductive BracketFault where
  | unmatched (closing : String)
  | mismatched (closing opening : String)
  | unclosed (opening : String)
deriving DecidableEq, Repr

namespace BracketFault

def message : BracketFault → String
  | unmatched closing => "unmatched '" ++ closing ++ "'"
  | mismatched closing opening => "closing '" ++ closing ++ "' does not match '" ++ opening ++ "'"
  | unclosed opening => "'" ++ opening ++ "' was never closed"

end BracketFault

/-- Why a source of tokens is no module. -/
inductive SyntaxFault where
  | bracket (fault : BracketFault)
  | grammar (fault : Fault)
deriving DecidableEq, Repr

namespace SyntaxFault

def message : SyntaxFault → String
  | bracket fault => fault.message
  | grammar fault => fault.message

end SyntaxFault

/-- Why a source cannot be analysed. -/
inductive AnalysisError where
  | tokenization (error : TokenError)
  | grammar (fault : SyntaxFault) (location : Location)
deriving DecidableEq, Repr

namespace AnalysisError

def message : AnalysisError → String
  | tokenization error => "tokenization failed: " ++ error.message
  | grammar fault location =>
    "syntax error: " ++ fault.message ++ " (" ++ location.text ++ ")"

def location : AnalysisError → Location
  | tokenization error => error.location
  | grammar _ location => location

end AnalysisError

end PythonLint
