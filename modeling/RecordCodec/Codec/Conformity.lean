import RecordCodec.Layout.Basic
import RecordCodec.Value.Basic

/-!
# Values of the right shape

What writing a value and showing its document have in common: the tests that a
record has the right type and no undeclared field, that a union has the right
type and a known variant, and that a tag inside a payload names that variant.
So are the reports of a union whose tag or member is not what it should be.
-/

namespace RecordCodec

namespace RecordLayout

/-- Fails unless a record names this type and has only declared fields. -/
def check (layout : RecordLayout) (record : RecordValue) : Except Error Unit :=
  if record.type = layout.name then
    match record.fields.find? (fun field =>
        layout.fields.all (fun declared => declared.name != field.name)) with
    | some field => .error (.unexpectedField layout.name field.name)
    | none => .ok ()
  else .error (.typeNameMismatch layout.name record.type)

def fieldValue (type : String) (record : RecordValue) (name : String) : Except Error Value :=
  match record.get? name with
  | some value => .ok value
  | none => .error (.missingField type name)

end RecordLayout

/-- The record, if the value is one. -/
def expectRecord : Value → Except Error RecordValue
  | .record record => .ok record
  | value => .error (.valueMismatch .record value.kind)

namespace UnionLayout

/-- The variant and the payload of a value of the union. -/
def expect (name : String) : Value → Except Error (String × RecordValue)
  | .union type variant payload =>
      if type = name then .ok (variant, payload) else .error (.typeNameMismatch name type)
  | value => .error (.valueMismatch .union value.kind)

/-- The enumeration of the tag, looked up whenever a tag is read or written. -/
def expectTags (union : UnionLayout) : Except Error ConstantSet :=
  match union.discriminant with
  | .enumeration constants => .ok constants
  | .flags constants => .ok constants
  | other => .error (.invalidUnionMember union.name other.name .discriminantEnumeration)

/-- The report of a member that is no record. -/
def notARecord (type : String) (member : Layout) : Error :=
  .invalidUnionMember type member.name .recordMember

/-- Fails unless the constant at the end of a path in a payload names the variant. -/
def checkTag (type variant : String) (record : RecordValue) : List String → Except Error Unit
  | [] => .ok ()
  | [name] =>
      match record.get? name with
      | some (.constant found) =>
          if found = variant then .ok () else .error (.variantTagMismatch type variant found)
      | some value => .error (.valueMismatch .enumeration value.kind)
      | none => .error (.missingField record.type name)
  | name :: path =>
      match (record.get? name).bind Value.record? with
      | some inner => checkTag type variant inner path
      | none => .error (.missingField record.type name)

end UnionLayout

/-- The number of bytes that a value takes, which for a union depends on its variant. -/
def Layout.encodedLength : Layout → Value → Except Error Nat
  | .union layout, .union _ variant _ =>
      match layout.withName? variant with
      | some selected => .ok (layout.headerLength + selected.record.length)
      | none => .error (.unknownVariant layout.name variant)
  | .union _, value => .error (.valueMismatch .union value.kind)
  | layout, _ => .ok layout.slotLength

end RecordCodec
