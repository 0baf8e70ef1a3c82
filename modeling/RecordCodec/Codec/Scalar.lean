import RecordCodec.Bytes.Buffer
import RecordCodec.Layout.Basic
import RecordCodec.Text.Utf8
import RecordCodec.Value.Basic

/-!
# Scalars and constants in bytes

Each scalar, enumeration and set of flags has an image: the bytes that stand
for a value, or the reason why the value does not fit.  Integers are in two's
complement.  A character is one byte, which holds an ASCII character, nothing
(zero) or a number of at least 128.
-/

namespace RecordCodec

namespace Scalar

/-- The word whose low `width` bytes are ones. -/
def widthMask (width : Nat) : UInt64 :=
  if 8 ≤ width then -1 else (1 <<< UInt64.ofNat (8 * width)) - 1

/-- Fails if an unsigned word has a bit above its low `width` bytes. -/
def checkUnsigned (width : Nat) (word : UInt64) : Except Error Unit :=
  if word &&& ~~~widthMask width = 0 then .ok ()
  else .error (.integerOutOfRange word.toNat width)

/-- Fails if a signed word passes one of the limits of `width` bytes. -/
def checkSigned (width : Nat) (word : Int64) : Except Error Unit :=
  if width < 8 then
    let border : Int64 := 1 <<< Int64.ofNat (8 * width - 1)
    if word < -border ∨ border - 1 < word then .error (.integerOutOfRange word.toInt width)
    else .ok ()
  else .ok ()

/-- Why a value is not a word of the wanted signedness. -/
def integerError (width : Nat) : Value → Error
  | .signed word => .integerOutOfRange word.toInt width
  | .unsigned word => .integerOutOfRange word.toNat width
  | value => .valueMismatch .integer value.kind

def unsignedWord (width : Nat) (value : Value) : Except Error UInt64 := do
  let some word := value.toUnsigned? | throw (integerError width value)
  checkUnsigned width word
  return word

def signedWord (width : Nat) (value : Value) : Except Error UInt64 := do
  let some word := value.toSigned? | throw (integerError width value)
  checkSigned width word
  return word.toUInt64 &&& widthMask width

/-- The bytes of an integer in two's complement. -/
def integerImage (isSigned : Bool) (width : Nat) (value : Value) : Except Error (List UInt8) :=
  BigEndian.bytes width <$> if isSigned then signedWord width value else unsignedWord width value

/-- The byte of a character: that of a text of at most one byte, or a number. -/
def charImage : Value → Except Error (List UInt8)
  | .text value =>
      match value.toUTF8.data.toList with
      | [] => .ok [0]
      | [byte] => .ok [byte]
      | bytes => .error (.stringTooLong bytes.length 1)
  | .unsigned value => do
      checkUnsigned 1 value
      return [value.toUInt8]
  | value => .error (.valueMismatch .char value.kind)

/-- The bytes of a value. -/
def image : Scalar → Value → Except Error (List UInt8)
  | .unsigned width, value => integerImage false width.bytes value
  | .signed width, value => integerImage true width.bytes value
  | .single, .single bits => .ok (BigEndian.bytes 4 bits.toUInt64)
  | .double, .double bits => .ok (BigEndian.bytes 8 bits)
  | .bool, .bool value => .ok [if value then 1 else 0]
  | .char, value => charImage value
  | scalar, value => .error (.valueMismatch scalar.kind value.kind)

/-- The integer that the low bytes of a word stand for in two's complement. -/
def signExtend (width : Nat) (word : UInt64) : Int64 :=
  let shift := 64 - 8 * width
  (word <<< UInt64.ofNat shift).toInt64 >>> Int64.ofNat shift

/-- The character that a byte stands for, as a text if it is ASCII. -/
def charOfWord (word : UInt64) : Value :=
  if word = 0 then .text ""
  else if word < 128 then .text (String.singleton (Char.ofNat word.toNat))
  else .unsigned word

/-- The value that a word stands for. -/
def ofWord : Scalar → UInt64 → Value
  | .unsigned _, word => .unsigned word
  | .signed width, word => .signed (signExtend width.bytes word)
  | .single, word => .single word.toUInt32
  | .double, word => .double word
  | .bool, word => .bool (word != 0)
  | .char, word => charOfWord word

def write (scalar : Scalar) (value : Value) (offset : Nat) : Writing Unit :=
  match scalar.image value with
  | .ok bytes => Writing.write offset (Buffer.ofList bytes)
  | .error error => throw error

def read (scalar : Scalar) (buffer : Buffer) (offset : Nat) : Except Error Value := do
  return scalar.ofWord (← buffer.readWord offset scalar.width)

end Scalar

namespace ConstantSet

def valueOf (set : ConstantSet) (name : String) : Except Error UInt64 :=
  match set.withName? name with
  | some constant => .ok constant.value
  | none => .error (.unknownEnumName set.name name)

def combine (set : ConstantSet) (names : List String) : Except Error UInt64 :=
  names.foldlM (fun bits name => do return bits ||| (← set.valueOf name)) 0

def constantWord (set : ConstantSet) : Value → Except Error UInt64
  | .constant name => set.valueOf name
  | value => .error (.valueMismatch .enumeration value.kind)

def flagsWord (set : ConstantSet) : Value → Except Error UInt64
  | .flags names => set.combine names
  | value => .error (.valueMismatch .flags value.kind)

/-- The names of the flags whose bits are all in a word, except those without bits. -/
def contained (set : ConstantSet) (word : UInt64) : List String :=
  (set.constants.filter fun constant =>
    constant.value != 0 && word &&& constant.value == constant.value).map Constant.name

def constantOfWord (set : ConstantSet) (word : UInt64) : Except Error Constant :=
  match set.withValue? word with
  | some constant => .ok constant
  | none => .error (.unknownDiscriminant set.name word)

/-- The flags that a word stands for.  It must have no bits besides theirs. -/
def flagsOfWord (set : ConstantSet) (word : UInt64) : Except Error (List String) :=
  let unknown := word &&& ~~~set.mask
  if unknown = 0 then .ok (set.contained word) else .error (.unknownFlags set.name unknown)

/-- Writes a word of the set at an offset. -/
def write (set : ConstantSet) (word : Except Error UInt64) (offset : Nat) : Writing Unit :=
  match word with
  | .ok word => Writing.writeWord offset set.width.bytes word
  | .error error => throw error

def read (set : ConstantSet) (buffer : Buffer) (offset : Nat) : Except Error Constant := do
  set.constantOfWord (← buffer.readWord offset set.width.bytes)

def readFlags (set : ConstantSet) (buffer : Buffer) (offset : Nat) :
    Except Error (List String) := do
  set.flagsOfWord (← buffer.readWord offset set.width.bytes)

end ConstantSet

end RecordCodec
