import RecordCodec.Error
import RecordCodec.Text.Character

/-!
# Hexadecimal text

Bytes are written as pairs of lowercase digits.  The reader takes either case,
an optional `0x` in front and ASCII blanks anywhere behind it.  What is left of
the text is handed to a decoder of digits, which is not prescribed here.  It
reports a fault at a byte of the digits.  The fault of the text is the byte
offset, in the trimmed text, of the character to which that byte belongs, or
the end of the text.
-/

namespace RecordCodec.Hex

def digits (byte : UInt8) : List Char :=
  [HexDigit.ofValue (byte.toNat / 16), HexDigit.ofValue (byte.toNat % 16)]

/-- The bytes in lowercase digits, without anything between them. -/
def render (bytes : List UInt8) : String :=
  String.ofList (bytes.flatMap digits)

/-- Why a decoder refuses its digits. -/
inductive Fault
  | character (index : Nat)
  | oddLength
  /-- There are not as many digits as wanted. -/
  | otherLength
deriving DecidableEq

/-- Reads pairs of digits, which are given as the bytes of a text. -/
abbrev Decoder := List UInt8 → Except Fault (List UInt8)

/-- Splits off an optional `0x`, giving the number of bytes it takes. -/
def splitMark : List Char → Nat × List Char
  | '0' :: 'x' :: body => (2, body)
  | '0' :: 'X' :: body => (2, body)
  | body => (0, body)

/-- Each character with its byte offset, counted from `start`. -/
def place (start : Nat) : List Char → List (Nat × Char)
  | [] => []
  | character :: rest =>
      (start, character) :: place (start + character.utf8Size) rest

/-- The characters of a body that are not skipped, with their byte offsets in the body. -/
def marks (body : List Char) : List (Nat × Char) :=
  (place 0 body).filter fun mark => !Text.isAsciiBlank mark.2

/-- For each byte of the marked characters, the offset of the character to which it belongs. -/
def positions (marks : List (Nat × Char)) : List Nat :=
  marks.flatMap fun mark => List.replicate mark.2.utf8Size mark.1

/-- The byte offset of a fault in a body. -/
def Fault.position (body : List Char) : Fault → Nat
  | .character index => (positions (marks body))[index]?.getD (Text.byteLength body)
  | .oddLength | .otherLength => Text.byteLength body

/-- Reads hexadecimal text with a decoder of its digits. -/
def parse (decode : Decoder) (text : String) : Except Error (List UInt8) :=
  let (skipped, body) := splitMark (Text.trim text.toList)
  let digits := String.ofList ((marks body).map Prod.snd)
  (decode digits.toUTF8.data.toList).mapError fun fault =>
    .invalidHex (skipped + fault.position body)

/-- The character whose code the byte is. -/
def letter (byte : UInt8) : Char :=
  Char.ofNat byte.toNat

/-- Reads the pairs from an index on.  A digit behind them is left alone. -/
def decodePairs : (index : Nat) → List UInt8 → Except Fault (List UInt8)
  | index, high :: low :: rest => do
      let some highValue := HexDigit.value? (letter high) | throw (.character index)
      let some lowValue := HexDigit.value? (letter low) | throw (.character (index + 1))
      return UInt8.ofNat (16 * highValue + lowValue) :: (← decodePairs (index + 2) rest)
  | _, _ => return []

/-- A decoder of digits: it wants an even number of them and stops at the first other byte. -/
def decode : Decoder := fun digits =>
  if digits.length % 2 = 1 then .error .oddLength else decodePairs 0 digits

end RecordCodec.Hex
