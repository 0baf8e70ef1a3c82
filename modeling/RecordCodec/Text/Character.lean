/-!
# Digits and blanks

A hexadecimal digit is written in lowercase and read in either case.  Two sets
of blanks are in use: the characters with the Unicode property `White_Space`,
which are trimmed from the ends of a text, and the blanks of ASCII, which may
stand between hexadecimal digits.
-/

namespace RecordCodec

namespace HexDigit

def ofValue (value : Nat) : Char :=
  if value < 10 then Char.ofNat (0x30 + value) else Char.ofNat (0x57 + value)

/-- The value of a digit of either case. -/
def value? (character : Char) : Option Nat :=
  let code := character.toNat
  if 0x30 ≤ code ∧ code ≤ 0x39 then some (code - 0x30)
  else if 0x41 ≤ code ∧ code ≤ 0x46 then some (code - 0x37)
  else if 0x61 ≤ code ∧ code ≤ 0x66 then some (code - 0x57)
  else none

end HexDigit

namespace Text

/-- The character has the Unicode property `White_Space`. -/
def isBlank (character : Char) : Bool :=
  let code := character.toNat
  (0x9 ≤ code && code ≤ 0xd) || code == 0x20 || code == 0x85 || code == 0xa0 ||
    code == 0x1680 || (0x2000 ≤ code && code ≤ 0x200a) || code == 0x2028 ||
    code == 0x2029 || code == 0x202f || code == 0x205f || code == 0x3000

/-- A space, tab, line feed, form feed or carriage return. -/
def isAsciiBlank (character : Char) : Bool :=
  character == ' ' || character == '\t' || character == '\n' ||
    character == '\x0c' || character == '\r'

def trim (characters : List Char) : List Char :=
  ((characters.dropWhile isBlank).reverse.dropWhile isBlank).reverse

/-- The number of bytes that the characters take in UTF-8. -/
def byteLength (characters : List Char) : Nat :=
  characters.foldr (fun character length => character.utf8Size + length) 0

end Text

end RecordCodec
