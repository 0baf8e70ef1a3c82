import RecordCodec.Codec.Conformity
import RecordCodec.Codec.TextField
import RecordCodec.Json.Basic

/-!
# Values from their document

A value is rebuilt from JSON.  Every node must be of the right kind, every
object must have exactly the declared fields, and every scalar, constant and
flag must fit its type.  A number where a float is wanted is rounded to a
64-bit float, and from there to a 32-bit one if that is the width.
-/

namespace RecordCodec

/-- The value of a node, or the report that another kind of node was expected. -/
def orMismatch {α : Type} (path : NodePath) (expected : NodeKind) : Option α → Except Error α
  | some value => .ok value
  | none => .error (.jsonMismatch path expected)

def floatOfDocument? : Json → Option UInt64
  | .text "NaN" => some Binary.quietDouble
  | .text "Infinity" => some Binary.positiveInfinity
  | .text "-Infinity" => some Binary.negativeInfinity
  | json => json.float?

def singleOfDouble (bits : UInt64) : UInt32 :=
  if Binary.isNotANumber bits then Binary.quietSingle else Binary.narrow bits

namespace Scalar

/-- The value that a node stands for, if it is of the right kind. -/
def ofDocument? (scalar : Scalar) (json : Json) : Option Value :=
  match scalar with
  | .unsigned _ => json.unsigned?.map .unsigned <|> json.signed?.map .signed
  | .signed _ => json.signed?.map .signed <|> json.unsigned?.map .unsigned
  | .single => (floatOfDocument? json).map fun bits => .single (singleOfDouble bits)
  | .double => (floatOfDocument? json).map .double
  | .bool => json.bool?.map .bool
  | .char => json.text?.map .text <|> json.unsigned?.map .unsigned

def ofDocument (scalar : Scalar) (json : Json) (path : NodePath) : Except Error Value := do
  let value ← orMismatch path (.scalar scalar.kind) (scalar.ofDocument? json)
  let _ ← scalar.image value
  return value

end Scalar

namespace ConstantSet

def constantOfDocument (set : ConstantSet) (json : Json) (path : NodePath) :
    Except Error Value := do
  let value := Value.constant (← orMismatch path .constantName json.text?)
  let _ ← set.constantWord value
  return value

def flagsOfDocument (set : ConstantSet) (json : Json) (path : NodePath) : Except Error Value := do
  let items ← orMismatch path .flagNames json.items?
  let value := Value.flags (← items.mapM fun item => orMismatch path .flagName item.text?)
  let _ ← set.flagsWord value
  return value

end ConstantSet

/-- Reads the elements of an array, each at its own path. -/
def readItems (readElement : Json → NodePath → Except Error Value) (path : NodePath) :
    (index : Nat) → List Json → Except Error (List Value)
  | _, [] => return []
  | index, item :: rest => do
      let value ← readElement item (.element index :: path)
      return value :: (← readItems readElement path (index + 1) rest)

/-- The value of a field: one element, a text, or an array of elements. -/
def fieldOfDocument (readElement : Json → NodePath → Except Error Value) (element : Layout)
    (count : Option Nat) (json : Json) (path : NodePath) : Except Error Value :=
  match count with
  | none => readElement json path
  | some count =>
      match json, element.isChar with
      | .text text, true => do
          TextField.requireCapacity text count
          return .text text
      | json, _ => do
          let items ← orMismatch path .array json.items?
          if items.length = count then return .array (← readItems readElement path 0 items)
          else throw (.arrayLengthMismatch count items.length)

/-- Fails if an object has a member that is no field, the discriminator key apart. -/
def requireDeclared (type : String) (fields : List FieldLayout) (key : Option String)
    (members : List JsonMember) : Except Error Unit :=
  match members.find? (fun member =>
      some member.key != key && fields.all (fun field => field.name != member.key)) with
  | some member => .error (.unexpectedField type member.key)
  | none => .ok ()

/-- The node that names the variant of a union. -/
def variantNode (discriminator : Discriminator) (json : Json) : Option Json :=
  match discriminator with
  | .key key => json.get? key
  | .path fields _ => json.getPath? fields

/-- The key that an object has besides the fields of a record. -/
def Discriminator.key? : Discriminator → Option String
  | .key label => some label
  | .path _ _ => none

mutual
/-- The value that a node at a path stands for. -/
def Layout.ofDocument : Layout → Json → NodePath → Except Error Value
  | .scalar _ scalar, json, path => scalar.ofDocument json path
  | .enumeration constants, json, path => constants.constantOfDocument json path
  | .flags constants, json, path => constants.flagsOfDocument json path
  | .record layout, json, path => do
      let members ← orMismatch path .object json.members?
      return .record (← RecordLayout.ofDocument layout none members path)
  | .union ⟨name, discriminator, _, variants⟩, json, path => do
      let members ← orMismatch path .object json.members?
      let variant ← orMismatch (.field discriminator.label :: path) .variantName
        ((variantNode discriminator json).bind Json.text?)
      VariantLayout.ofDocumentNamed variants name variant discriminator.key? members path
/-- The record that the members of an object stand for. -/
def RecordLayout.ofDocument :
    RecordLayout → Option String → List JsonMember → NodePath → Except Error RecordValue
  | ⟨name, fields, _⟩, key, members, path => do
      requireDeclared name fields key members
      return ⟨name, ← FieldLayout.ofDocumentAll fields name members path⟩
/-- The fields that the members of an object stand for. -/
def FieldLayout.ofDocumentAll : List FieldLayout → String → List JsonMember → NodePath →
    Except Error (List FieldValue)
  | [], _, _, _ => return []
  | ⟨name, element, count, _, _⟩ :: rest, type, members, path => do
      let some json := JsonMember.find? members name | throw (.missingField type name)
      let value ← fieldOfDocument (fun json path => Layout.ofDocument element json path)
        element count json (.field name :: path)
      return ⟨name, value⟩ :: (← FieldLayout.ofDocumentAll rest type members path)
/-- The union value of the first variant with a name. -/
def VariantLayout.ofDocumentNamed : List VariantLayout → String → String → Option String →
    List JsonMember → NodePath → Except Error Value
  | [], type, variant, _, _, _ => throw (.unknownVariant type variant)
  | ⟨name, _, member⟩ :: rest, type, variant, key, members, path =>
      if name = variant then Layout.ofMemberDocument member type variant key members path
      else VariantLayout.ofDocumentNamed rest type variant key members path
/-- The union value that the record of a variant makes. -/
def Layout.ofMemberDocument : Layout → String → String → Option String →
    List JsonMember → NodePath → Except Error Value
  | .record record, type, variant, key, members, path => do
      return .union type variant (← RecordLayout.ofDocument record key members path)
  | other, type, _, _, _, _ => throw (UnionLayout.notARecord type other)
end

end RecordCodec
