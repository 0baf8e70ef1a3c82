import RecordCodec.Codec.Conformity
import RecordCodec.Codec.TextField
import RecordCodec.Json.Basic

/-!
# The document of a value

A value is shown as JSON: a record as an object, a constant by name, flags as
an array of names.  A union is the object of its record, with the name of the
variant added under the discriminator key where the tag is a header.  Finite
floats are numbers; the others, which JSON cannot hold, are texts.
-/

namespace RecordCodec

/-- The document of a 64-bit float. -/
def floatDocument (bits : UInt64) : Json :=
  match JsonNumber.ofFloat? bits with
  | some number => .number number
  | none =>
      if Binary.isNotANumber bits then .text "NaN"
      else if bits = Binary.positiveInfinity then .text "Infinity"
      else .text "-Infinity"

/-- The document of a value of a scalar. -/
def Scalar.document (scalar : Scalar) (value : Value) : Except Error Json := do
  let _ ← scalar.image value
  match value with
  | .bool value => return .bool value
  | .unsigned value => return .ofUnsigned value
  | .signed value => return .ofSigned value
  | .single bits => return floatDocument (Binary.widen bits)
  | .double bits => return floatDocument bits
  | .text value => return .text value
  | value => throw (.valueMismatch scalar.kind value.kind)

namespace ConstantSet

def constantDocument (set : ConstantSet) (value : Value) : Except Error Json := do
  let _ ← set.constantWord value
  match value with
  | .constant name => return .text name
  | value => throw (.valueMismatch .enumeration value.kind)

def flagsDocument (set : ConstantSet) (value : Value) : Except Error Json := do
  let _ ← set.flagsWord value
  match value with
  | .flags names => return .ofTexts names
  | value => throw (.valueMismatch .enumeration value.kind)

end ConstantSet

/-- The document of a field: one element, a text, or an array of elements. -/
def fieldDocument (elementDocument : Value → Except Error Json) (element : Layout)
    (count : Option Nat) (value : Value) : Except Error Json :=
  match count with
  | none => elementDocument value
  | some count =>
      match value, element.isChar with
      | .text text, true => do
          TextField.requireCapacity text count
          return .text text
      | .array items, _ =>
          if items.length = count then return .array (← items.mapM elementDocument)
          else throw (.arrayLengthMismatch count items.length)
      | value, _ => throw (.valueMismatch .array value.kind)

/-- The members that show the tag of a variant, once a tag inside the payload is tested. -/
def tagMembers (type variant : String) (discriminator : Discriminator) (payload : RecordValue) :
    Except Error (List JsonMember) :=
  match discriminator with
  | .key key => return [⟨key, .text variant⟩]
  | .path fields _ => do
      UnionLayout.checkTag type variant payload fields
      return []

mutual
/-- The document of a value. -/
def Layout.document : Layout → Value → Except Error Json
  | .scalar _ scalar, value => scalar.document value
  | .enumeration constants, value => constants.constantDocument value
  | .flags constants, value => constants.flagsDocument value
  | .record ⟨name, fields, length⟩, value => do
      let record ← expectRecord value
      RecordLayout.check ⟨name, fields, length⟩ record
      return .object (JsonMember.sort (← FieldLayout.memberDocuments fields name record))
  | .union ⟨name, discriminator, _, variants⟩, value => do
      let (variant, payload) ← UnionLayout.expect name value
      VariantLayout.documentNamed variants name discriminator variant payload
/-- The members that show the fields of a record. -/
def FieldLayout.memberDocuments :
    List FieldLayout → String → RecordValue → Except Error (List JsonMember)
  | [], _, _ => return []
  | ⟨name, element, count, _, _⟩ :: rest, type, record => do
      let value ← RecordLayout.fieldValue type record name
      let json ← fieldDocument (fun value => Layout.document element value) element count value
      return ⟨name, json⟩ :: (← FieldLayout.memberDocuments rest type record)
/-- The document of the first variant with a name. -/
def VariantLayout.documentNamed :
    List VariantLayout → String → Discriminator → String → RecordValue → Except Error Json
  | [], type, _, variant, _ => throw (.unknownVariant type variant)
  | ⟨name, _, member⟩ :: rest, type, discriminator, variant, payload =>
      if name = variant then Layout.memberDocument member type discriminator variant payload
      else VariantLayout.documentNamed rest type discriminator variant payload
/-- The document of the record of a variant of a union, with its tag. -/
def Layout.memberDocument :
    Layout → String → Discriminator → String → RecordValue → Except Error Json
  | .record ⟨name, fields, length⟩, type, discriminator, variant, payload => do
      RecordLayout.check ⟨name, fields, length⟩ payload
      let tag ← tagMembers type variant discriminator payload
      let members ← FieldLayout.memberDocuments fields name payload
      return .object (JsonMember.sort (tag ++ members))
  | other, type, _, _, _ => throw (UnionLayout.notARecord type other)
end

end RecordCodec
