import RecordCodec.Declaration.Basic
import RecordCodec.Json.Basic

/-!
# Declarations in JSON

A declaration is an object whose `kind` names its form.  Keys that the form
does not have are ignored, and one that it has may not be repeated.  The parts
may also be listed in order in an array behind the kind.
The writer gives the object form and leaves out what is absent.
-/

namespace RecordCodec

namespace Json

/--
The parts of a form with the given keys.  They are the members of an object
with these keys, each at most once, or the items of an array no longer than
the list of keys.
-/
def parts? (keys : List String) : Json → Option (List JsonMember)
  | .object members =>
      let known := members.filter (fun member => keys.contains member.key)
      if (known.map JsonMember.key).Nodup then some known else none
  | .array items =>
      if items.length ≤ keys.length then some (List.zipWith JsonMember.mk keys items) else none
  | _ => none

def required? {α : Type} (parts : List JsonMember) (key : String) (read : Json → Option α) :
    Option α := do
  read (← JsonMember.find? parts key)

/-- A part with a value of its own where it is absent. -/
def optional? {α : Type} (parts : List JsonMember) (key : String) (absent : α)
    (read : Json → Option α) : Option α :=
  match JsonMember.find? parts key with
  | none => some absent
  | some json => read json

/-- A part that may be absent or null. -/
def nullable? {α : Type} (parts : List JsonMember) (key : String) (read : Json → Option α) :
    Option (Option α) :=
  match JsonMember.find? parts key with
  | none => some none
  | some .null => some none
  | some json => (read json).map some

def listOf? {α : Type} (read : Json → Option α) (json : Json) : Option (List α) := do
  (← json.items?).mapM read

end Json

namespace FieldDeclaration

/-- Reads a field. -/
def ofJson? (json : Json) : Option FieldDeclaration := do
  let parts ← Json.parts? ["name", "type", "length"] json
  let name ← Json.required? parts "name" Json.text?
  let type ← Json.required? parts "type" Json.text?
  let length ← Json.nullable? parts "length" Json.unsigned?
  return ⟨name, type, length⟩

def toJson (field : FieldDeclaration) : Json :=
  .object (⟨"name", .text field.name⟩ :: ⟨"type", .text field.type⟩ ::
    (field.length.toList.map fun length => ⟨"length", .ofUnsigned length⟩))

end FieldDeclaration

namespace MemberDeclaration

/-- Reads a member: the name of its record, or an object with its record and its tag. -/
def ofJson? : Json → Option MemberDeclaration
  | .text record => some (.named record)
  | .object members => do
      let parts ← Json.parts? ["type", "tag"] (.object members)
      let record ← Json.required? parts "type" Json.text?
      let tag ← Json.required? parts "tag" Json.text?
      return .tagged record tag
  | _ => none

def toJson : MemberDeclaration → Json
  | .named record => .text record
  | .tagged record tag => .object [⟨"type", .text record⟩, ⟨"tag", .text tag⟩]

end MemberDeclaration

namespace DiscriminatorDeclaration

def standard : DiscriminatorDeclaration := .key "kind"

/-- Reads a discriminator: a key, or the field names of a path. -/
def ofJson? : Json → Option DiscriminatorDeclaration
  | .text label => some (.key label)
  | .array items => (items.mapM Json.text?).map .path
  | _ => none

def toJson : DiscriminatorDeclaration → Json
  | .key label => .text label
  | .path fields => .ofTexts fields

end DiscriminatorDeclaration

namespace Declaration

/-- Reads a constant, which is a pair of its name and its value. -/
def constantOfJson? : Json → Option (String × UInt64)
  | .array [name, value] => do return (← name.text?, ← value.unsigned?)
  | _ => none

def primitiveOfJson? (json : Json) : Option Declaration := do
  let parts ← Json.parts? ["name", "size"] json
  let name ← Json.required? parts "name" Json.text?
  let size ← Json.required? parts "size" Json.unsigned?
  return .primitive name size

def aliasOfJson? (json : Json) : Option Declaration := do
  let parts ← Json.parts? ["name", "alias"] json
  let name ← Json.required? parts "name" Json.text?
  let target ← Json.required? parts "alias" Json.text?
  return .alias name target

/-- Reads the parts of an enumeration. -/
def enumerationOfJson? (json : Json) : Option Declaration := do
  let parts ← Json.parts? ["name", "underlying", "variants", "bitflags"] json
  let name ← Json.required? parts "name" Json.text?
  let underlying ← Json.required? parts "underlying" Json.text?
  let constants ← Json.required? parts "variants" (Json.listOf? constantOfJson?)
  let isFlags ← Json.optional? parts "bitflags" false Json.bool?
  return .enumeration name underlying constants isFlags

/-- Reads the parts of a record. -/
def recordOfJson? (json : Json) : Option Declaration := do
  let parts ← Json.parts? ["name", "size", "fields"] json
  let name ← Json.required? parts "name" Json.text?
  let size ← Json.nullable? parts "size" Json.unsigned?
  let fields ← Json.required? parts "fields" (Json.listOf? FieldDeclaration.ofJson?)
  return .record name size fields

/-- Reads the parts of a union. -/
def unionOfJson? (json : Json) : Option Declaration := do
  let parts ← Json.parts? ["name", "discriminator", "discriminant", "members"] json
  let name ← Json.required? parts "name" Json.text?
  let discriminator ← Json.optional? parts "discriminator" .standard
    DiscriminatorDeclaration.ofJson?
  let discriminant ← Json.nullable? parts "discriminant" Json.text?
  let members ← Json.required? parts "members" (Json.listOf? MemberDeclaration.ofJson?)
  return .union name discriminator discriminant members

/-- Reads the parts of a declaration of the given kind. -/
def ofParts? (kind : String) (json : Json) : Option Declaration :=
  if kind = "Primitive" then primitiveOfJson? json
  else if kind = "Alias" then aliasOfJson? json
  else if kind = "Enum" then enumerationOfJson? json
  else if kind = "Struct" then recordOfJson? json
  else if kind = "Union" then unionOfJson? json
  else none

/-- Reads a declaration. -/
def ofJson? : Json → Option Declaration
  | .object members =>
      match members.partition (fun member => member.key == "kind") with
      | ([⟨_, .text kind⟩], parts) => ofParts? kind (.object parts)
      | _ => none
  | .array (.text kind :: parts) => ofParts? kind (.array parts)
  | _ => none

/-- Writes a declaration. -/
def toJson : Declaration → Json
  | .primitive name size =>
      .object [⟨"kind", .text "Primitive"⟩, ⟨"name", .text name⟩, ⟨"size", .ofUnsigned size⟩]
  | .alias name target =>
      .object [⟨"kind", .text "Alias"⟩, ⟨"name", .text name⟩, ⟨"alias", .text target⟩]
  | .enumeration name underlying constants isFlags =>
      .object [⟨"kind", .text "Enum"⟩, ⟨"name", .text name⟩, ⟨"underlying", .text underlying⟩,
        ⟨"variants", .array (constants.map fun constant =>
          .array [.text constant.1, .ofUnsigned constant.2])⟩,
        ⟨"bitflags", .bool isFlags⟩]
  | .record name size fields =>
      .object (⟨"kind", .text "Struct"⟩ :: ⟨"name", .text name⟩ ::
        (size.toList.map fun size => ⟨"size", .ofUnsigned size⟩) ++
        [⟨"fields", .array (fields.map FieldDeclaration.toJson)⟩])
  | .union name discriminator discriminant members =>
      .object (⟨"kind", .text "Union"⟩ :: ⟨"name", .text name⟩ ::
        ⟨"discriminator", discriminator.toJson⟩ ::
        (discriminant.toList.map fun discriminant => ⟨"discriminant", .text discriminant⟩) ++
        [⟨"members", .array (members.map MemberDeclaration.toJson)⟩])

def listOfJson? (json : Json) : Option (List Declaration) :=
  Json.listOf? ofJson? json

def listToJson (declarations : List Declaration) : Json :=
  .array (declarations.map toJson)

def read? (json? : JsonReader) (text : String) : Option (List Declaration) := do
  listOfJson? (← json? text.toUTF8)

end Declaration

end RecordCodec
