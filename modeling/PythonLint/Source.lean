import PythonLint.Encoding

/-!
# Sources

A named text of Python code with the encoding that it was read in.
-/

namespace PythonLint

/-- A named text of Python code. -/
structure Source where
  name : String
  text : List Char
  encoding : Encoding

namespace Source

def ofText (name : String) (text : List Char) : Source := ⟨name, text, .utf8⟩

def ofBytes (name : String) (bytes : List UInt8) : Except DecodeError Source :=
  (decode bytes).map fun (text, encoding) => ⟨name, text, encoding⟩

end Source

/-- Bytes that are being read, and the position of the next one, which may lie past the end. -/
structure ByteStream where
  bytes : List UInt8
  position : Nat

namespace ByteStream

/-- The source of all bytes of a stream, from its start, and the stream where it stood. -/
def readSource (name : String) (stream : ByteStream) : Except DecodeError Source × ByteStream :=
  (Source.ofBytes name stream.bytes, stream)

end ByteStream

end PythonLint
