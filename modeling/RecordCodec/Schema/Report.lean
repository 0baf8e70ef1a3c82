import RecordCodec.Declaration.Basic
import RecordCodec.Json.Basic
import RecordCodec.Error
import RecordCodec.Schema.Basic

/-!
# Reports on a schema

A schema is shown as the list of its types with their lengths, and a single
type with the details of its layout.  Both exist as lines of text and as JSON.
-/

namespace RecordCodec

namespace Layout

/-- The wording of the form of a layout. -/
def form : Layout → String
  | .scalar _ _ => "primitive"
  | .enumeration _ => "enum"
  | .flags _ => "flags"
  | .record _ => "record"
  | .union _ => "union"

end Layout

namespace Report

/-- A text filled with spaces on the right up to a width. -/
def padRight (width : Nat) (text : String) : String :=
  text ++ String.ofList (List.replicate (width - text.length) ' ')

/-- A text filled with spaces on the left up to a width. -/
def padLeft (width : Nat) (text : String) : String :=
  String.ofList (List.replicate (width - text.length) ' ') ++ text

def optional (key : String) (value : Option Json) : List JsonMember :=
  value.toList.map fun json => ⟨key, json⟩

/-- The member of a list that is left out when it is empty. -/
def nonEmpty (key : String) (items : List Json) : List JsonMember :=
  if items.isEmpty then [] else [⟨key, .array items⟩]

def bounds : LengthContract → Nat × Nat
  | .fixed length => (length, length)
  | .perVariant _ least greatest => (least, greatest)

/-- The lengths as JSON. -/
def lengthJson (contract : LengthContract) : Json :=
  let (least, greatest) := bounds contract
  let header := match contract with
    | .fixed _ => none
    | .perVariant header _ _ => some (Json.ofNat header)
  .object (optional "header" header ++ [⟨"min", .ofNat least⟩, ⟨"max", .ofNat greatest⟩])

def lengthText (contract : LengthContract) : String :=
  let (least, greatest) := bounds contract
  if least = greatest then toString greatest
  else toString least ++ "..=" ++ toString greatest

/-- What a scalar or an enumeration rests on. -/
def underlying? : Layout → Option String
  | .scalar _ kind => some kind.kind.label
  | .enumeration constants => some ("u" ++ toString (8 * constants.width.bytes))
  | .flags constants => some ("u" ++ toString (8 * constants.width.bytes))
  | _ => none

def constants : Layout → List Constant
  | .enumeration set => set.constants
  | .flags set => set.constants
  | _ => []

def fields : Layout → List FieldLayout
  | .record record => record.fields
  | _ => []

/-- The union, if the layout is one. -/
def union? : Layout → Option UnionLayout
  | .union union => some union
  | _ => none

/-- The variants of a union with the lengths of their values. -/
def variants (layout : Layout) : List (VariantLayout × Nat) :=
  match union? layout with
  | some union =>
      union.variants.map fun variant => (variant, union.headerLength + variant.record.length)
  | none => []

def fieldJson (field : FieldLayout) : Json :=
  .object ([⟨"name", .text field.name⟩, ⟨"type", .text field.element.name⟩] ++
    optional "count" (field.count.map fun count => .ofUnsigned (UInt64.ofNat count)) ++
    [⟨"offset", .ofNat field.offset⟩, ⟨"length", .ofNat field.length⟩])

def constantJson (constant : Constant) : Json :=
  .object [⟨"name", .text constant.name⟩, ⟨"value", .ofUnsigned constant.value⟩]

def variantJson (entry : VariantLayout × Nat) : Json :=
  .object [⟨"name", .text entry.1.name⟩, ⟨"tag", .ofUnsigned entry.1.tag⟩,
    ⟨"record", .text entry.1.record.name⟩, ⟨"length", .ofNat entry.2⟩]

/-- The details of a layout as JSON. -/
def layoutJson (layout : Layout) : Json :=
  .object ([⟨"name", .text layout.name⟩, ⟨"kind", .text layout.form⟩,
      ⟨"length", lengthJson layout.lengthContract⟩] ++
    optional "underlying" ((underlying? layout).map .text) ++
    optional "discriminant" ((union? layout).map fun union => .text union.tags.name) ++
    optional "discriminator" ((union? layout).map fun union => .text union.discriminator.label) ++
    nonEmpty "fields" ((fields layout).map fieldJson) ++
    nonEmpty "constants" ((constants layout).map constantJson) ++
    nonEmpty "variants" ((variants layout).map variantJson))

/-- A field as a line. -/
def fieldLine (field : FieldLayout) : String :=
  let type := match field.count with
    | some count => field.element.name ++ "[" ++ toString count ++ "]"
    | none => field.element.name
  "  +" ++ padRight 4 (toString field.offset) ++ " " ++ padLeft 4 (toString field.length) ++
    "  " ++ type ++ " " ++ field.name

def constantLine (constant : Constant) : String :=
  "  " ++ constant.name ++ " = " ++ hexWord constant.value

def variantLine (entry : VariantLayout × Nat) : String :=
  "  " ++ entry.1.name ++ " tag=" ++ hexWord entry.1.tag ++ " record=" ++ entry.1.record.name ++
    " length=" ++ toString entry.2

/-- A line for a part that may be absent. -/
def optionalLine (label : String) (value : Option String) : List String :=
  value.toList.map fun text => label ++ ": " ++ text

/-- The details of a layout as lines. -/
def layoutLines (layout : Layout) : List String :=
  ["type: " ++ layout.name, "kind: " ++ layout.form,
    "length: " ++ lengthText layout.lengthContract] ++
    optionalLine "underlying" (underlying? layout) ++
    optionalLine "discriminant" ((union? layout).map fun union => union.tags.name) ++
    optionalLine "discriminator" ((union? layout).map fun union => union.discriminator.label) ++
    (fields layout).map fieldLine ++ (constants layout).map constantLine ++
    (variants layout).map variantLine

/-- The declared aliases with the names of the types that they stand for. -/
def aliases (schema : Schema) (declarations : List Declaration) : List (String × String) :=
  declarations.filterMap fun
    | .alias name target => (schema.find? target).map fun layout => (name, layout.name)
    | _ => none

def typeJson (layout : Layout) : Json :=
  .object [⟨"name", .text layout.name⟩, ⟨"kind", .text layout.form⟩,
    ⟨"length", lengthJson layout.lengthContract⟩]

def aliasJson (entry : String × String) : Json :=
  .object [⟨"name", .text entry.1⟩, ⟨"target", .text entry.2⟩]

/-- All types of a schema as JSON, with the path and the compression of its file. -/
def schemaJson (path compression : String) (schema : Schema)
    (declarations : List Declaration) : Json :=
  .object [⟨"path", .text path⟩, ⟨"compression", .text compression⟩,
    ⟨"types", .array (schema.table.map typeJson)⟩,
    ⟨"aliases", .array ((aliases schema declarations).map aliasJson)⟩]

def typeLine (layout : Layout) : String :=
  "  " ++ layout.name ++ " " ++ layout.form ++ " " ++ lengthText layout.lengthContract

def aliasLine (entry : String × String) : String :=
  "  " ++ entry.1 ++ " -> " ++ entry.2

/-- All types of a schema as lines, with the path and the compression of its file. -/
def schemaLines (path compression : String) (schema : Schema)
    (declarations : List Declaration) : List String :=
  let further := (aliases schema declarations).map aliasLine
  ["path: " ++ path, "compression: " ++ compression,
    "types: " ++ toString schema.table.length] ++ schema.table.map typeLine ++
    (if further.isEmpty then [] else "aliases:" :: further)

end Report

end RecordCodec
