import RecordCodec.Layout.Scalar

/-!
# Layouts

A layout says how the values of a type lie in bytes.  It is a tree: a record
holds the layouts of its fields with their offsets, and a union holds those of
its tag and of its members.  All named layouts know their own name.

Resolving sees to it that the tag of a union is an enumeration and that its
members are records, but a union does not carry the proof: whoever reads or
writes one looks at the layouts again.  What follows from them is not stored
beside them either.  The header is as long as the word of the tag, and a
variant is as long as its record, so neither length can be out of step.
-/

namespace RecordCodec

/-- A named constant of an enumeration. -/
structure Constant where
  name : String
  value : UInt64
deriving DecidableEq

/-- The constants of an enumeration over an unsigned integer. -/
structure ConstantSet where
  name : String
  width : WordWidth
  constants : List Constant
deriving DecidableEq

namespace ConstantSet

def withValue? (set : ConstantSet) (value : UInt64) : Option Constant :=
  set.constants.find? (fun constant => constant.value == value)

def withName? (set : ConstantSet) (name : String) : Option Constant :=
  set.constants.find? (fun constant => constant.name == name)

def mask (set : ConstantSet) : UInt64 :=
  set.constants.foldl (fun bits constant => bits ||| constant.value) 0

end ConstantSet

/-- Where the tag of a union stands. -/
inductive Discriminator
  /-- In front of the record.  The document shows it under this key. -/
  | key (key : String)
  /-- At the same offset in every record, in the field at the end of this path. -/
  | path (fields : List String) (offset : Nat)
deriving DecidableEq

namespace Discriminator

/-- The key, or the field names joined by dots. -/
def label : Discriminator → String
  | .key label => label
  | .path fields _ => ".".intercalate fields

end Discriminator

mutual
/-- How the values of a type lie in bytes. -/
inductive Layout
  | scalar (name : String) (scalar : Scalar)
  | enumeration (constants : ConstantSet)
  | flags (constants : ConstantSet)
  | record (record : RecordLayout)
  /-- One of several records, told apart by a tag. -/
  | union (union : UnionLayout)
/-- The layout of a record. -/
structure RecordLayout where
  name : String
  fields : List FieldLayout
  length : Nat
/-- The layout of a field of a record. -/
structure FieldLayout where
  name : String
  /-- The layout of the field, or of each element of an array. -/
  element : Layout
  /-- The number of elements, for an array. -/
  count : Option Nat
  offset : Nat
  length : Nat
/-- The layout of a union. -/
structure UnionLayout where
  name : String
  discriminator : Discriminator
  /-- The layout of the tag, an enumeration. -/
  discriminant : Layout
  variants : List VariantLayout
/-- A variant of a union. -/
structure VariantLayout where
  /-- The name of the constant that selects the variant. -/
  name : String
  tag : UInt64
  /-- The layout of the payload, a record. -/
  member : Layout
end

/-- What the encoded values of a type have in common in length. -/
inductive LengthContract
  | fixed (length : Nat)
  /-- Values take a header and a record; the shortest and the longest differ. -/
  | perVariant (header least greatest : Nat)
deriving DecidableEq

namespace LengthContract

def greatest : LengthContract → Nat
  | .fixed length => length
  | .perVariant _ _ greatest => greatest

end LengthContract

namespace Layout

/-- The name of the type. -/
def name : Layout → String
  | .scalar typeName _ => typeName
  | .enumeration constants => constants.name
  | .flags constants => constants.name
  | .record fields => fields.name
  | .union variants => variants.name

end Layout

/-- The record of a variant, which has no fields if the member is no record. -/
def VariantLayout.record (variant : VariantLayout) : RecordLayout :=
  match variant.member with
  | .record record => record
  | other => ⟨other.name, [], 0⟩

namespace UnionLayout

/-- The constants of the tag, of which there are none if it is no enumeration. -/
def tags (union : UnionLayout) : ConstantSet :=
  match union.discriminant with
  | .enumeration constants => constants
  | .flags constants => constants
  | other => ⟨other.name, .byte, []⟩

/-- The number of bytes in front of the record. -/
def headerLength (union : UnionLayout) : Nat :=
  match union.discriminator with
  | .key _ => union.tags.width.bytes
  | .path _ _ => 0

/-- The offset of the tag from the start of the union. -/
def tagOffset (union : UnionLayout) : Nat :=
  match union.discriminator with
  | .key _ => 0
  | .path _ offset => offset

def withName? (union : UnionLayout) (name : String) : Option VariantLayout :=
  union.variants.find? (fun variant => variant.name == name)

def withTag? (union : UnionLayout) (tag : UInt64) : Option VariantLayout :=
  union.variants.find? (fun variant => variant.tag == tag)

/-- The lengths of the values of a union.  A union without variants has only the header. -/
def lengthContract (union : UnionLayout) : LengthContract :=
  let lengths := union.variants.map (fun variant => variant.record.length)
  let least := lengths.min?.getD 0
  let greatest := lengths.max?.getD 0
  let header := union.headerLength
  if least = greatest then .fixed (header + greatest)
  else .perVariant header (header + least) (header + greatest)

end UnionLayout

namespace Layout

/-- The lengths of the values of a layout. -/
def lengthContract : Layout → LengthContract
  | .scalar _ kind => .fixed kind.width
  | .enumeration constants => .fixed constants.width.bytes
  | .flags constants => .fixed constants.width.bytes
  | .record fields => .fixed fields.length
  | .union variants => variants.lengthContract

/-- The number of bytes that a value of the layout occupies inside a record. -/
def slotLength (layout : Layout) : Nat :=
  layout.lengthContract.greatest

/-- The layout is that of a character, so that an array of it may hold a text. -/
def isChar : Layout → Bool
  | .scalar _ .char => true
  | _ => false

end Layout

end RecordCodec
