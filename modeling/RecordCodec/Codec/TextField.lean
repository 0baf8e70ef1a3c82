import RecordCodec.Codec.Scalar

/-!
# Texts in arrays of characters

An array of characters holds a text in UTF-8 that zeros fill up.  Bytes that
are no text are read as the array of their numbers.
-/

namespace RecordCodec.TextField

def numbers (bytes : Buffer) : Value :=
  .array (bytes.toList.map fun byte => .unsigned byte.toUInt64)

/-- The bytes in front of the first zero, or all of them where there is none. -/
def beforeZero (bytes : Buffer) : Buffer :=
  bytes.extract 0 (bytes.toList.takeWhile (· != 0)).length

/-- The text of bytes, or their numbers if they are no text. -/
def ofBytes (bytes : Buffer) : Value :=
  match Utf8.decode? (beforeZero bytes) with
  | some text => .text text
  | none => numbers bytes

/-- Fails unless a text fits into the given number of bytes. -/
def requireCapacity (text : String) (capacity : Nat) : Except Error Unit :=
  if text.utf8ByteSize ≤ capacity then .ok ()
  else .error (.stringTooLong text.utf8ByteSize capacity)

def write (text : String) (capacity offset : Nat) : Writing Unit := do
  requireCapacity text capacity
  Writing.require offset capacity
  Writing.overwrite offset text.toUTF8
  Writing.overwrite (offset + text.utf8ByteSize) (Buffer.zeros (capacity - text.utf8ByteSize))

/-- Reads a text, or the numbers of its bytes. -/
def read (buffer : Buffer) (offset capacity : Nat) : Except Error Value := do
  return ofBytes (← buffer.read offset capacity)

def readNumbers (buffer : Buffer) (offset capacity : Nat) : Except Error Value := do
  return numbers (← buffer.read offset capacity)

end RecordCodec.TextField
