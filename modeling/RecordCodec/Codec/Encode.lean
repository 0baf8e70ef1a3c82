import RecordCodec.Codec.Conformity
import RecordCodec.Codec.TextField

/-!
# Encoding

A value is written in place: each field of a record at its own offset, and the
tag of a union in front of the record where it has a header.  A short variant
inside a slot is followed by zeros.  Tests and writes alternate in the order of
the fields, so a value that does not fit may leave some of its bytes behind,
but none outside the range that it was to occupy.
-/

namespace RecordCodec

/-- Writes an element and the zeros behind it up to the end of its slot. -/
def writeSlot (writeElement : Value → Nat → Writing Nat) (slot : Nat) (value : Value)
    (offset : Nat) : Writing Unit := do
  let written ← writeElement value offset
  Writing.overwrite (offset + written) (Buffer.zeros (slot - written))

/-- Writes elements into consecutive slots. -/
def writeElements (writeElement : Value → Nat → Writing Nat) (slot : Nat) :
    List Value → Nat → Writing Unit
  | [], _ => pure ()
  | item :: rest, offset => do
      writeSlot writeElement slot item offset
      writeElements writeElement slot rest (offset + slot)

/-- Writes a field: one element, a text, or an array of elements. -/
def writeField (writeElement : Value → Nat → Writing Nat) (element : Layout)
    (count : Option Nat) (value : Value) (offset : Nat) : Writing Unit :=
  match count with
  | none => writeSlot writeElement element.slotLength value offset
  | some count =>
      match value, element.isChar with
      | .text text, true => TextField.write text count offset
      | .array items, _ =>
          if items.length = count then writeElements writeElement element.slotLength items offset
          else throw (.arrayLengthMismatch count items.length)
      | value, _ => throw (.valueMismatch .array value.kind)

/-- Writes the constant of a variant in front of its payload, or tests the one inside it. -/
def writeTag (union : UnionLayout) (variant : String) (payload : RecordValue) (offset : Nat) :
    Writing Unit :=
  match union.discriminator with
  | .key _ => do
      let tags ← union.expectTags
      tags.write (tags.valueOf variant) offset
  | .path fields _ => UnionLayout.checkTag union.name variant payload fields

mutual
/-- Writes a value at an offset and gives the number of bytes that it takes. -/
def Layout.write : Layout → Value → Nat → Writing Nat
  | .scalar _ scalar, value, offset => do
      scalar.write value offset
      return scalar.width
  | .enumeration constants, value, offset => do
      constants.write (constants.constantWord value) offset
      return constants.width.bytes
  | .flags constants, value, offset => do
      constants.write (constants.flagsWord value) offset
      return constants.width.bytes
  | .record layout, value, offset => do
      RecordLayout.write layout (← expectRecord value) offset
      return layout.length
  | .union layout, value, offset => do
      let (variant, payload) ← UnionLayout.expect layout.name value
      UnionLayout.write layout variant payload offset
def RecordLayout.write : RecordLayout → RecordValue → Nat → Writing Unit
  | ⟨name, fields, length⟩, record, offset => do
      RecordLayout.check ⟨name, fields, length⟩ record
      Writing.require offset length
      FieldLayout.writeAll fields name record offset
/-- Writes the fields of a record that begins at an offset. -/
def FieldLayout.writeAll : List FieldLayout → String → RecordValue → Nat → Writing Unit
  | [], _, _, _ => pure ()
  | ⟨name, element, count, fieldOffset, _⟩ :: rest, type, record, offset => do
      let value ← RecordLayout.fieldValue type record name
      writeField (fun value offset => Layout.write element value offset) element count value
        (offset + fieldOffset)
      FieldLayout.writeAll rest type record offset
/-- Writes a variant with its tag and gives the number of bytes that both take. -/
def UnionLayout.write : UnionLayout → String → RecordValue → Nat → Writing Nat
  | ⟨name, discriminator, discriminant, variants⟩, variant, payload, offset =>
      VariantLayout.writeNamed variants ⟨name, discriminator, discriminant, []⟩ variant payload
        offset
/-- Writes the first variant with a name. -/
def VariantLayout.writeNamed :
    List VariantLayout → UnionLayout → String → RecordValue → Nat → Writing Nat
  | [], union, variant, _, _ => throw (.unknownVariant union.name variant)
  | ⟨name, _, member⟩ :: rest, union, variant, payload, offset =>
      if name = variant then Layout.writeMember member union variant payload offset
      else VariantLayout.writeNamed rest union variant payload offset
/-- Writes the record of a variant of a union behind the tag. -/
def Layout.writeMember : Layout → UnionLayout → String → RecordValue → Nat → Writing Nat
  | .record record, union, variant, payload, offset => do
      writeTag union variant payload offset
      RecordLayout.write record payload (offset + union.headerLength)
      return union.headerLength + record.length
  | other, union, _, _, _ => throw (UnionLayout.notARecord union.name other)
end

namespace Layout

/-- Writes a value at an offset, once all its bytes are known to have room. -/
def encode (layout : Layout) (value : Value) (offset : Nat) : Writing Nat := do
  let length ← layout.encodedLength value
  Writing.require offset length
  layout.write value offset

def toBytes (layout : Layout) (value : Value) : Except Error Buffer := do
  let length ← layout.encodedLength value
  let (_, bytes) ← (layout.write value 0).run (Buffer.zeros length)
  return bytes

end Layout

end RecordCodec
