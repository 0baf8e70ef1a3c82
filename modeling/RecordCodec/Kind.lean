/-!
# Kinds of values

A value, a place in a layout and a node of a document each have a kind.  A
kind is named by a fixed label wherever a mismatch is reported.
-/

namespace RecordCodec

/-- What a value is, or what a place in a layout asks for. -/
inductive Kind
  | bool
  | char
  | integer
  | unsignedInteger
  | signedInteger
  | single
  | double
  | text
  | enumeration
  | flags
  | array
  | record
  | union
deriving DecidableEq

namespace Kind

/-- The wording of a kind in reports. -/
def label : Kind → String
  | .bool => "bool"
  | .char => "char"
  | .integer => "integer"
  | .unsignedInteger => "unsigned integer"
  | .signedInteger => "signed integer"
  | .single => "f32"
  | .double => "f64"
  | .text => "string"
  | .enumeration => "enum"
  | .flags => "flags"
  | .array => "array"
  | .record => "record"
  | .union => "union"

end Kind

/-- What the document of a value should have been at some node. -/
inductive NodeKind
  | object
  | array
  | constantName
  | flagName
  | flagNames
  | variantName
  | scalar (kind : Kind)
deriving DecidableEq

namespace NodeKind

/-- The wording of an expected node in reports. -/
def label : NodeKind → String
  | .object => "object"
  | .array => "array"
  | .constantName => "enum name"
  | .flagName => "flag name"
  | .flagNames => "array of flag names"
  | .variantName => "variant name"
  | .scalar kind => kind.label

end NodeKind

end RecordCodec
