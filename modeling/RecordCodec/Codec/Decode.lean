import RecordCodec.Codec.Conformity
import RecordCodec.Codec.TextField

/-!
# Decoding

A value is read from an offset on.  The bounds of a record are tested once for
all its fields.  Of a union the tag is read first and then the record that it
selects, so a union takes as many bytes as the variant that it holds; inside a
slot the bytes behind it are padding, which strict reading wants to be zero.

The position of a tag is summed up before any bound is tested, and the list of
an array is reserved before its first element is read.  Both may stop the
program: the sum in 64 bits, the list where elements without bytes are counted
in numbers that no memory can hold.
-/

namespace RecordCodec

/-- How bytes are read. -/
structure DecodeOptions where
  /-- Padding must be zero. -/
  strictPadding : Bool
  charsAsText : Bool
deriving DecidableEq

namespace DecodeOptions

/-- Padding may be anything and characters are texts. -/
def standard : DecodeOptions := ⟨false, true⟩

end DecodeOptions

/-- The offset of the first byte that is not zero, counted from `offset`. -/
def firstNonZero? (bytes : Buffer) (offset : Nat) : Option Nat :=
  (bytes.toList.findIdx? (· != 0)).map (offset + ·)

/-- Reads an element from its slot and tests the padding behind it. -/
def readSlot (options : DecodeOptions) (buffer : Buffer)
    (readElement : Nat → Except Error (Value × Nat)) (element : Layout) (offset : Nat) :
    Except Error Value := do
  let (value, used) ← readElement offset
  if options.strictPadding then
    let padding := buffer.slice (offset + used) (element.slotLength - used)
    if let some position := firstNonZero? padding (offset + used) then
      throw (.nonZeroPadding element.name position)
  return value

/-- Reserves the list of an array.  The program stops if no list can be that long. -/
def reserveItems (count : Nat) : Except Error Unit :=
  if count ≤ itemLimit then .ok () else .error (.panicked .capacityOverflow)

/-- Reads a field: one element, a text, or an array of elements. -/
def readField (options : DecodeOptions) (buffer : Buffer)
    (readElement : Nat → Except Error (Value × Nat)) (element : Layout) (count : Option Nat)
    (offset : Nat) : Except Error Value :=
  match count with
  | none => readSlot options buffer readElement element offset
  | some count =>
      if element.isChar then
        if options.charsAsText then TextField.read buffer offset count
        else TextField.readNumbers buffer offset count
      else do
        reserveItems count
        let items ← (List.range count).mapM fun index =>
          readSlot options buffer readElement element (offset + index * element.slotLength)
        return .array items

/-- Reads a scalar, a character as its number if texts are not wanted. -/
def readScalar (options : DecodeOptions) (buffer : Buffer) (scalar : Scalar) (offset : Nat) :
    Except Error Value :=
  match scalar with
  | .char =>
      if options.charsAsText then Scalar.read .char buffer offset
      else do return .unsigned (← buffer.readWord offset 1)
  | scalar => scalar.read buffer offset

/-- The position of a tag.  The program stops if it takes more than 64 bits. -/
def tagPosition (offset tagOffset : Nat) : Except Error Nat :=
  if offset + tagOffset < 2 ^ 64 then .ok (offset + tagOffset)
  else .error (.panicked .offsetOverflow)

/-- Reads the tag of a union that begins at an offset. -/
def UnionLayout.readTag (buffer : Buffer) (union : UnionLayout) (offset : Nat) :
    Except Error Constant := do
  let tags ← union.expectTags
  tags.read buffer (← tagPosition offset union.tagOffset)

mutual
/-- Reads a value at an offset and gives the number of bytes that it takes. -/
def Layout.read (options : DecodeOptions) (buffer : Buffer) :
    Layout → Nat → Except Error (Value × Nat)
  | .scalar _ scalar, offset => do
      return (← readScalar options buffer scalar offset, scalar.width)
  | .enumeration constants, offset => do
      return (.constant (← constants.read buffer offset).name, constants.width.bytes)
  | .flags constants, offset => do
      return (.flags (← constants.readFlags buffer offset), constants.width.bytes)
  | .record layout, offset => do
      return (.record (← RecordLayout.read options buffer layout offset), layout.length)
  | .union layout, offset => UnionLayout.read options buffer layout offset
def RecordLayout.read (options : DecodeOptions) (buffer : Buffer) :
    RecordLayout → Nat → Except Error RecordValue
  | ⟨name, fields, length⟩, offset => do
      Buffer.require buffer.size offset length
      return ⟨name, ← FieldLayout.readAll options buffer fields offset⟩
/-- Reads the fields of a record that begins at an offset. -/
def FieldLayout.readAll (options : DecodeOptions) (buffer : Buffer) :
    List FieldLayout → Nat → Except Error (List FieldValue)
  | [], _ => return []
  | ⟨name, element, count, fieldOffset, _⟩ :: rest, offset => do
      let value ← readField options buffer
        (fun offset => Layout.read options buffer element offset) element count
        (offset + fieldOffset)
      return ⟨name, value⟩ :: (← FieldLayout.readAll options buffer rest offset)
/-- Reads the tag of a union and the record that it selects. -/
def UnionLayout.read (options : DecodeOptions) (buffer : Buffer) :
    UnionLayout → Nat → Except Error (Value × Nat)
  | ⟨name, discriminator, discriminant, variants⟩, offset => do
      let union : UnionLayout := ⟨name, discriminator, discriminant, []⟩
      let constant ← UnionLayout.readTag buffer union offset
      VariantLayout.readTagged options buffer variants union constant.value offset
/-- Reads the record of the first variant with a tag. -/
def VariantLayout.readTagged (options : DecodeOptions) (buffer : Buffer) :
    List VariantLayout → UnionLayout → UInt64 → Nat → Except Error (Value × Nat)
  | [], union, tag, _ => throw (.unknownDiscriminant union.name tag)
  | ⟨name, ownTag, member⟩ :: rest, union, tag, offset =>
      if ownTag = tag then Layout.readMember options buffer member union name offset
      else VariantLayout.readTagged options buffer rest union tag offset
/-- Reads the record of a variant of a union. -/
def Layout.readMember (options : DecodeOptions) (buffer : Buffer) :
    Layout → UnionLayout → String → Nat → Except Error (Value × Nat)
  | .record record, union, variant, offset => do
      let payload ← RecordLayout.read options buffer record (offset + union.headerLength)
      return (.union union.name variant payload, union.headerLength + record.length)
  | other, union, _, _ => throw (UnionLayout.notARecord union.name other)
end

end RecordCodec
