import RecordCodec.Kind

/-!
# Causes of failure

Every operation of the library fails with one of these causes.  Each carries
what is needed to word it, and `Error.message` is the only place where a
failure becomes text.  A sum that overflows and a list that is too long for
memory are no failures but stop the program; they have an outcome of their own.
-/

namespace RecordCodec

/-- Why a discriminator path does not lead to the tag of a union. -/
inductive PathFault
  | empty
  | missingField
  | throughNonRecord
  | notAnEnumeration
  | differsBetweenMembers
  | notTheDeclaredDiscriminant
deriving DecidableEq

/-- The wording of a path fault. -/
def PathFault.message : PathFault → String
  | .empty => "path is empty"
  | .missingField => "path names a missing field"
  | .throughNonRecord => "path passes through a non-struct field"
  | .notAnEnumeration => "path does not end at an enum field"
  | .differsBetweenMembers => "tag type or offset differs between members"
  | .notTheDeclaredDiscriminant =>
      "path does not end at the declared discriminant"

/-- The part that a type was meant to play in a union. -/
inductive UnionRole
  | recordMember
  | discriminantEnumeration
deriving DecidableEq

def UnionRole.label : UnionRole → String
  | .recordMember => "record member"
  | .discriminantEnumeration => "discriminant enum"

/-- Why the program stops at a place where it has no error to report. -/
inductive Panic
  /-- A sum of offsets passes 64 bits. -/
  | offsetOverflow
  /-- A list is longer than any that memory can hold. -/
  | capacityOverflow
deriving DecidableEq

/-- What the program says when it stops. -/
def Panic.message : Panic → String
  | .offsetOverflow => "attempt to add with overflow"
  | .capacityOverflow => "capacity overflow"

/-- A step from a node of a document to one of its children. -/
inductive NodeStep
  | field (name : String)
  | element (index : Nat)
deriving DecidableEq

/-- Where a node lies in a document: the steps from the root, the last one first. -/
abbrev NodePath := List NodeStep

/-- The dotted form of a path.  The root is `$`. -/
def NodePath.render : NodePath → String
  | [] => "$"
  | .field name :: parents => NodePath.render parents ++ "." ++ name
  | .element index :: parents =>
      NodePath.render parents ++ "[" ++ toString index ++ "]"

/-- What went wrong. -/
inductive Error
  /-- A file could not be read or written, or its compressed content is damaged. -/
  | io
  /-- A text is not JSON, or is JSON of the wrong shape for declarations. -/
  | json
  /-- The content of a compressed file exceeds the ceiling. -/
  | decompressedTooLarge (limit : Nat)
  /-- Hex text has a character that is no digit, or an odd number of digits. -/
  | invalidHex (position : Nat)
  /-- Fewer than `need` bytes lie from `offset` on. -/
  | outOfBounds (offset need length : Nat)
  /-- A tag is none of the constants of its enumeration. -/
  | unknownDiscriminant (type : String) (raw : UInt64)
  /-- A flag word has bits that no constant has. -/
  | unknownFlags (type : String) (bits : UInt64)
  /-- The declared size of a record is not the sum of its fields. -/
  | lengthMismatch (type : String) (declared computed : Nat)
  /-- The bytes behind a short variant are not all zero. -/
  | nonZeroPadding (type : String) (offset : Nat)
  | unknownType (name : String)
  /-- A record would exceed the length ceiling at a field. -/
  | layoutTooLarge (type field : String) (limit : Nat)
  /-- A union does not say which enumeration tags it. -/
  | missingDiscriminant (type : String)
  /-- A discriminator path does not lead to the same tag in every member. -/
  | invalidDiscriminatorPath (type member : String) (fault : PathFault)
  | variantTagMismatch (type variant found : String)
  | duplicateType (name : String)
  | recursiveType (name : String)
  /-- A scalar has a width that its kind does not allow. -/
  | invalidPrimitive (name : String) (size : Nat)
  /-- An enumeration rests on something other than an unsigned integer. -/
  | invalidEnumUnderlying (name underlying : String)
  /-- A constant does not fit the width of its enumeration. -/
  | discriminantOutOfRange (type variant : String) (value : UInt64) (width : Nat)
  /-- A constant repeats a name or a value. -/
  | duplicateDiscriminant (type variant : String)
  /-- A constant has no member, or a member has no constant. -/
  | unmappedDiscriminant (type variant : String)
  /-- A type cannot play its part in a union. -/
  | invalidUnionMember (type member : String) (role : UnionRole)
  /-- A field of a member has the name of the discriminator key. -/
  | discriminatorCollision (type member discriminator : String)
  | duplicateField (type field : String)
  /-- A value is of another kind than its place asks for. -/
  | valueMismatch (expected got : Kind)
  | missingField (type field : String)
  /-- A record value has a field that is not declared. -/
  | unexpectedField (type field : String)
  | integerOutOfRange (value : Int) (width : Nat)
  | stringTooLong (length capacity : Nat)
  | arrayLengthMismatch (expected got : Nat)
  | unknownEnumName (type name : String)
  | unknownVariant (type variant : String)
  /-- A node of a document is of the wrong kind. -/
  | jsonMismatch (path : NodePath) (expected : NodeKind)
  /-- A value names another type than the one asked for. -/
  | typeNameMismatch (expected got : String)
  /-- No error is reported: the program stops. -/
  | panicked (cause : Panic)
deriving DecidableEq

/-- A word in lowercase hexadecimal after `0x`, without leading zeros. -/
def hexWord (word : UInt64) : String :=
  "0x" ++ String.ofList (Nat.toDigits 16 word.toNat)

namespace Error

/-- The wording of a failure. -/
def message : Error → String
  | .io => "io"
  | .json => "json"
  | .decompressedTooLarge limit =>
      s!"decompressed output exceeded limit {limit} bytes"
  | .invalidHex position => s!"invalid hex input at byte {position}"
  | .outOfBounds offset need length =>
      s!"out of bounds at offset {offset}, need {need} bytes, buffer length {length}"
  | .unknownDiscriminant type raw =>
      "unknown discriminant " ++ hexWord raw ++ " for " ++ type
  | .unknownFlags type bits =>
      "unknown flag bits " ++ hexWord bits ++ " for " ++ type
  | .lengthMismatch type declared computed =>
      s!"length mismatch in {type}: declared {declared}, fields sum to {computed}"
  | .nonZeroPadding type offset => s!"non-zero padding in {type} at offset {offset}"
  | .unknownType name => s!"unknown type: {name}"
  | .layoutTooLarge type field limit =>
      s!"layout of {type} is too large at field {field} (limit {limit} bytes)"
  | .missingDiscriminant type => s!"union {type} has no discriminant enum"
  | .invalidDiscriminatorPath type member fault =>
      s!"invalid discriminator path in {type} at {member}: " ++ fault.message
  | .variantTagMismatch type variant found =>
      s!"variant {variant} of {type} carries tag {found}"
  | .duplicateType name => s!"duplicate type declaration: {name}"
  | .recursiveType name => s!"recursive type: {name}"
  | .invalidPrimitive name size => s!"invalid primitive {name}: size {size}"
  | .invalidEnumUnderlying name underlying =>
      s!"enum {name} has non-integer underlying type {underlying}"
  | .discriminantOutOfRange type variant value width =>
      s!"enum {type} constant {variant}={value} does not fit {width} bytes"
  | .duplicateDiscriminant type variant => s!"enum {type} repeats constant {variant}"
  | .unmappedDiscriminant type variant =>
      s!"union {type}: discriminant {variant} has no matching member"
  | .invalidUnionMember type member role =>
      s!"union {type}: {member} is not a valid " ++ role.label
  | .discriminatorCollision type member discriminator =>
      s!"union {type}: member {member} has a field named {discriminator}"
  | .duplicateField type field => s!"duplicate field {field} in {type}"
  | .valueMismatch expected got =>
      "type mismatch: expected " ++ expected.label ++ ", got " ++ got.label
  | .missingField type field => s!"missing field {field} on {type}"
  | .unexpectedField type field => s!"unexpected field {field} on {type}"
  | .integerOutOfRange value width => s!"integer {value} does not fit {width} bytes"
  | .stringTooLong length capacity =>
      s!"string of {length} bytes exceeds capacity {capacity}"
  | .arrayLengthMismatch expected got =>
      s!"array length mismatch: expected {expected}, got {got}"
  | .unknownEnumName type name => s!"unknown constant {name} for {type}"
  | .unknownVariant type variant => s!"unknown variant {variant} for {type}"
  | .jsonMismatch path expected =>
      "json mismatch at " ++ path.render ++ ": expected " ++ expected.label
  | .typeNameMismatch expected got => s!"type name mismatch: expected {expected}, got {got}"
  | .panicked cause => cause.message

end Error

end RecordCodec
