/-!
# Bytes as UTF-8

The characters that a sequence of bytes stands for in UTF-8. A character has one form, the shortest
one.
-/

namespace PythonLint.Text

def firstChar? (bytes : List UInt8) : Option Char :=
  (bytes.take 4).toByteArray.utf8DecodeChar? 0

/-- The characters of bytes. Where no character starts, the result is the number of bytes before. -/
def decodeUtf8 : List UInt8 → Except Nat (List Char)
  | [] => .ok []
  | byte :: rest =>
    match firstChar? (byte :: rest) with
    | none => .error 0
    | some c =>
      match decodeUtf8 (rest.drop (c.utf8Size - 1)) with
      | .ok chars => .ok (c :: chars)
      | .error valid => .error (c.utf8Size + valid)
termination_by bytes => bytes.length

/-- The characters of bytes, with a replacement for every byte that belongs to none. -/
def decodeLossy : List UInt8 → List Char
  | [] => []
  | byte :: rest =>
    match firstChar? (byte :: rest) with
    | none => '�' :: decodeLossy rest
    | some c => c :: decodeLossy (rest.drop (c.utf8Size - 1))
termination_by bytes => bytes.length

def encodeUtf8 (chars : List Char) : List UInt8 :=
  chars.flatMap String.utf8EncodeChar

end PythonLint.Text
