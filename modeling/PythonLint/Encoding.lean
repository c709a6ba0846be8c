import PythonLint.FileError
import PythonLint.Text.Blank
import PythonLint.Text.Quoted
import PythonLint.Text.Utf8
import PythonLint.Text.Word

/-!
# Encodings of a source

A source is UTF-8 unless a comment on one of its first two lines declares another encoding. A byte
order mark at the start declares UTF-8 too and is no part of the text.
-/

namespace PythonLint

open Text

/-- The encodings that can be read. -/
inductive Encoding where
  | utf8
  | ascii
  | latin1
deriving DecidableEq, Repr, Inhabited

namespace Encoding

def name : Encoding → String
  | utf8 => "utf-8"
  | ascii => "ascii"
  | latin1 => "latin-1"

def normalName (text : String) : String :=
  String.ofList (text.toList.map fun c => if c = '_' then '-' else c.toLower)

def ofName? (text : String) : Option Encoding :=
  let name := normalName text
  if ["utf-8", "utf8", "utf-8-sig"].contains name then some utf8
  else if ["ascii", "us-ascii"].contains name then some ascii
  else if ["latin-1", "latin1", "iso-8859-1", "iso8859-1"].contains name then some latin1
  else none

end Encoding

/-- Why bytes cannot be decoded. -/
inductive DecodeError where
  /-- A byte order mark before a declaration of another encoding. -/
  | markConflict (name : String)
  | unknownEncoding (name : String)
  /-- The byte at `offset` and those after it are no text in the encoding. -/
  | invalidData (encoding : Encoding) (offset : Nat)
  | unreadable (error : FileError)
deriving DecidableEq, Repr

namespace DecodeError

def message : DecodeError → String
  | markConflict name =>
    "utf-8 byte order mark conflicts with declared encoding " ++ quoted name
  | unknownEncoding name => "unknown encoding " ++ quoted name
  | invalidData encoding offset =>
    "invalid " ++ encoding.name ++ " data at byte " ++ toString offset
  | unreadable error => "failed to read source: " ++ error.message

end DecodeError

/-! ### Declarations -/

def isCookieChar (c : Char) : Bool :=
  c == '-' || c == '.' || isWordChar c

def isCookieBlank (c : Char) : Bool :=
  c == ' ' || c == '\t'

/-- The name after a colon or an equals sign and blanks. -/
def declaredName? : List Char → Option (List Char)
  | [] => none
  | c :: rest =>
    if c = ':' ∨ c = '=' then
      let name := (rest.dropWhile isCookieBlank).takeWhile isCookieChar
      if name.isEmpty then none else some name
    else none

def findDeclaration? : List Char → Option (List Char)
  | [] => none
  | c :: rest =>
    let here := if "coding".toList.isPrefixOf (c :: rest) then declaredName? ((c :: rest).drop 6)
      else none
    here.or (findDeclaration? rest)

/-- The encoding that a line declares in a comment, which nothing but blanks may precede. -/
def cookie? (line : List UInt8) : Option String :=
  match (decodeLossy line).dropWhile fun c => isCookieBlank c || c == '\x0c' with
  | '#' :: comment => (findDeclaration? comment).map String.ofList
  | _ => none

def isBlankOrComment (line : List UInt8) : Bool :=
  match trimStart (decodeLossy line) with
  | [] => true
  | c :: _ => c == '#'

/-! ### Decoding -/

def byteOrderMarkBytes : List UInt8 := [0xEF, 0xBB, 0xBF]

def hasMark (bytes : List UInt8) : Bool :=
  byteOrderMarkBytes.isPrefixOf bytes

/-- The bytes after the byte order mark, if they start with one. -/
def bodyOf (bytes : List UInt8) : List UInt8 :=
  if hasMark bytes then bytes.drop 3 else bytes

/-- The encoding that one of the first two lines declares. The second line counts only if the first
one holds neither a declaration nor code. -/
def declaration? (body : List UInt8) : Option String :=
  let first := body.takeWhile (· ≠ 10)
  let second := ((body.dropWhile (· ≠ 10)).drop 1).takeWhile (· ≠ 10)
  match cookie? first with
  | some name => some name
  | none => if isBlankOrComment first then cookie? second else none

def detectEncoding (bytes : List UInt8) : Except DecodeError Encoding :=
  match declaration? (bodyOf bytes) with
  | none => .ok .utf8
  | some name =>
    match Encoding.ofName? name with
    | none => .error (.unknownEncoding name)
    | some encoding =>
      if hasMark bytes ∧ encoding ≠ .utf8 then .error (.markConflict name) else .ok encoding

def charsOfBytes (bytes : List UInt8) : List Char :=
  bytes.map fun byte => Char.ofNat byte.toNat

/-- The characters of bytes in an encoding, or the number of bytes before the first that is none. -/
def decodeBody (encoding : Encoding) (body : List UInt8) : Except Nat (List Char) :=
  match encoding with
  | .utf8 => decodeUtf8 body
  | .ascii =>
    match body.findIdx? (· ≥ 128) with
    | some offset => .error offset
    | none => .ok (charsOfBytes body)
  | .latin1 => .ok (charsOfBytes body)

def decode (bytes : List UInt8) : Except DecodeError (List Char × Encoding) :=
  match detectEncoding bytes with
  | .error error => .error error
  | .ok encoding =>
    match decodeBody encoding (bodyOf bytes) with
    | .ok text => .ok (text, encoding)
    | .error offset =>
      .error (.invalidData encoding (offset + if hasMark bytes then 3 else 0))

end PythonLint
