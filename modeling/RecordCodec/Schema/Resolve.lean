import RecordCodec.Declaration.Json
import RecordCodec.Schema.Basic

/-!
# Resolving declarations

Declarations are settled in the order in which they are written, each after
the types that it refers to.  While a declaration is being settled it is open,
and a reference to an open declaration is a cycle.  The set of declarations
that are not open shrinks with each reference followed, which bounds the work.
-/

namespace RecordCodec

/-- An action that settles types in a schema and may fail. -/
abbrev Resolving := StateT Schema (Except Error)

namespace ConstantSet

/-- Adds a constant that fits the width and repeats neither a name nor a value. -/
def add (set : ConstantSet) (name : String) (value : UInt64) : Except Error ConstantSet :=
  if 256 ^ set.width.bytes ≤ value.toNat then
    .error (.discriminantOutOfRange set.name name value set.width.bytes)
  else if set.constants.any (fun other => other.name == name || other.value == value) then
    .error (.duplicateDiscriminant set.name name)
  else
    .ok { set with constants := set.constants ++ [⟨name, value⟩] }

/-- The set of the declared constants over an unsigned integer. -/
def ofDeclaration (name underlyingName : String) (underlying : Layout)
    (constants : List (String × UInt64)) : Except Error ConstantSet :=
  match underlying with
  | .scalar _ (.unsigned width) =>
      constants.foldlM (fun set constant => set.add constant.1 constant.2) ⟨name, width, []⟩
  | _ => .error (.invalidEnumUnderlying name underlyingName)

end ConstantSet

namespace RecordLayout

/-- Puts a field behind the others, unless the record would become too long. -/
def append (record : RecordLayout) (field : FieldDeclaration) (element : Layout) :
    Except Error RecordLayout :=
  let count := field.length.map UInt64.toNat
  let length := element.slotLength * count.getD 1
  if record.length + length ≤ layoutLimit then
    .ok ⟨record.name, record.fields ++ [⟨field.name, element, count, record.length, length⟩],
      record.length + length⟩
  else
    .error (.layoutTooLarge record.name field.name layoutLimit)

def hasField (record : RecordLayout) (name : String) : Bool :=
  record.fields.any (fun field => field.name == name)

/-- The field with a name that is no array. -/
def plainField? (record : RecordLayout) (name : String) : Option FieldLayout :=
  record.fields.find? (fun field => field.name == name && field.count.isNone)

/-- The enumeration at the end of a path of field names, with its offset in the record. -/
def locate (record : RecordLayout) : List String → Except PathFault (ConstantSet × Nat)
  | [] => .error .empty
  | [name] =>
      match record.plainField? name with
      | none => .error .missingField
      | some field =>
          match field.element with
          | .enumeration constants => .ok (constants, field.offset)
          | _ => .error .notAnEnumeration
  | name :: path =>
      match record.plainField? name with
      | none => .error .missingField
      | some field =>
          match field.element with
          | .record inner => do
              let (constants, offset) ← inner.locate path
              return (constants, field.offset + offset)
          | _ => .error .throughNonRecord

end RecordLayout

/-- A declared member of a union with its record. -/
structure ResolvedMember where
  declaration : MemberDeclaration
  record : RecordLayout

namespace UnionLayout

/-- Adds the variant of a member, whose constant must exist and be free. -/
def add (union : UnionLayout) (member : ResolvedMember) : Except Error UnionLayout :=
  let tag := member.declaration.tag
  match union.tags.withName? tag with
  | none => .error (.unmappedDiscriminant union.name tag)
  | some constant =>
      if union.variants.any (fun variant => variant.tag == constant.value) then
        .error (.duplicateDiscriminant union.name tag)
      else
        .ok { union with
          variants := union.variants ++ [⟨constant.name, constant.value, .record member.record⟩] }

/-- The union of the members, which must correspond one to one to the constants of the tag. -/
def ofMembers (name : String) (discriminator : Discriminator) (tags : ConstantSet)
    (members : List ResolvedMember) : Except Error UnionLayout := do
  let union ← members.foldlM add ⟨name, discriminator, .enumeration tags, []⟩
  match tags.constants.find? (fun constant =>
      union.variants.all (fun variant => variant.tag != constant.value)) with
  | some constant => throw (.unmappedDiscriminant name constant.name)
  | none => return union

end UnionLayout

/-- The enumeration of the tag and its offset that all members of a union agree on. -/
def commonTag (union : String) (path : List String) (members : List ResolvedMember) :
    Except Error (Option (ConstantSet × Nat)) :=
  members.foldlM (fun common member =>
    match member.record.locate path with
    | .error fault =>
        .error (.invalidDiscriminatorPath union member.declaration.record fault)
    | .ok found =>
        if common.all (· == found) then .ok (some found)
        else .error (.invalidDiscriminatorPath union member.declaration.record
          .differsBetweenMembers)) none

namespace Declaration

def resolveMember (resolve : String → Resolving Layout) (union : String)
    (member : MemberDeclaration) : Resolving ResolvedMember := do
  match ← resolve member.record with
  | .record layout => return ⟨member, layout⟩
  | other => throw (.invalidUnionMember union other.name .recordMember)

/-- The enumeration that tags a union, as it is declared. -/
def tagsOf (union : String) (discriminant : Layout) : Except Error ConstantSet :=
  match discriminant with
  | .enumeration constants => .ok constants
  | other => .error (.invalidUnionMember union other.name .discriminantEnumeration)

/-- Settles where the tag of a union stands and which enumeration it is. -/
def resolveTag (resolve : String → Resolving Layout) (union : String)
    (discriminator : DiscriminatorDeclaration) (discriminant : Option String)
    (members : List ResolvedMember) : Resolving (Discriminator × ConstantSet) := do
  match discriminator with
  | .key key =>
      let some reference := discriminant | throw (.missingDiscriminant union)
      let layout ← resolve reference
      match members.find? (fun member => member.record.hasField key) with
      | some member => throw (.discriminatorCollision union member.declaration.record key)
      | none => return (.key key, ← tagsOf union layout)
  | .path path =>
      let some (tags, offset) ← commonTag union path members
        | throw (.missingDiscriminant union)
      match discriminant with
      | none => return (.path path offset, tags)
      | some reference =>
          if (← resolve reference).name = tags.name then return (.path path offset, tags)
          else throw (.invalidDiscriminatorPath union reference .notTheDeclaredDiscriminant)

/-- The layout of a union. -/
def resolveUnion (resolve : String → Resolving Layout) (name : String)
    (discriminator : DiscriminatorDeclaration) (discriminant : Option String)
    (members : List MemberDeclaration) : Resolving UnionLayout := do
  let members ← members.mapM (resolveMember resolve name)
  let (discriminator, tags) ← resolveTag resolve name discriminator discriminant members
  UnionLayout.ofMembers name discriminator tags members

/-- Puts the next field of a record behind the others. -/
def resolveField (resolve : String → Resolving Layout) (record : RecordLayout)
    (field : FieldDeclaration) : Resolving RecordLayout := do
  if record.hasField field.name then throw (.duplicateField record.name field.name)
  record.append field (← resolve field.type)

/-- The layout of a record. -/
def resolveRecord (resolve : String → Resolving Layout) (name : String) (size : Option UInt64)
    (fields : List FieldDeclaration) : Resolving RecordLayout := do
  let record ← fields.foldlM (resolveField resolve) ⟨name, [], 0⟩
  match size with
  | none => return record
  | some declared =>
      if declared.toNat = record.length then return record
      else throw (.lengthMismatch name declared.toNat record.length)

/-- Settles one declaration, given how to settle the types that it refers to. -/
def define (resolve : String → Resolving Layout) (declaration : Declaration) :
    Resolving Layout := do
  match declaration with
  | .alias name target =>
      let layout ← resolve target
      modify (·.addAlias name layout)
      return layout
  | .primitive name size =>
      settle (.scalar name (← Scalar.ofDeclaration name size.toNat))
  | .enumeration name underlying constants isFlags =>
      let set ← ConstantSet.ofDeclaration name underlying (← resolve underlying) constants
      settle (if isFlags then .flags set else .enumeration set)
  | .record name size fields =>
      settle (.record (← resolveRecord resolve name size fields))
  | .union name discriminator discriminant members =>
      settle (.union (← resolveUnion resolve name discriminator discriminant members))
where
  settle (layout : Layout) : Resolving Layout := do
    modify (·.addLayout layout)
    return layout

def others (name : String) (declarations : List Declaration) : List Declaration :=
  declarations.filter (fun declaration => declaration.name != name)

/-- Without the declaration of a name that is declared, fewer declarations are left. -/
theorem length_others_lt {name : String} {declarations : List Declaration}
    {declaration : Declaration}
    (found : declarations.find? (fun other => other.name == name) = some declaration) :
    (others name declarations).length < declarations.length := by
  have member := List.mem_of_find?_eq_some found
  have named := List.find?_some found
  refine List.length_filter_lt_length_iff_exists.mpr ⟨declaration, member, ?_⟩
  simpa using named

/--
The layout that a name stands for.  A name that the schema does not know yet
is that of a declaration, which is open unless it is among the pending ones.
-/
def resolve (declarations pending : List Declaration) (name : String) : Resolving Layout := do
  match (← get).find? name with
  | some layout => return layout
  | none =>
      match _found : pending.find? (fun declaration => declaration.name == name) with
      | some declaration =>
          define (fun reference => resolve declarations (others name pending) reference)
            declaration
      | none =>
          if declarations.any (fun declaration => declaration.name == name) then
            throw (.recursiveType name)
          else throw (.unknownType name)
termination_by pending.length
decreasing_by exact length_others_lt ‹_›

/-- The first name that an earlier declaration has already. -/
def repeatedName? : (seen : List String) → List Declaration → Option String
  | _, [] => none
  | seen, declaration :: rest =>
      if seen.contains declaration.name then some declaration.name
      else repeatedName? (declaration.name :: seen) rest

end Declaration

namespace Schema

/-- The built-in scalars whose names are not declared otherwise. -/
def builtIn (declarations : List Declaration) : Schema :=
  ⟨(Scalar.builtIns.filter fun entry =>
      !declarations.any (fun declaration => declaration.name == entry.1)).map
    fun entry => .scalar entry.1 entry.2, []⟩

/-- The schema of a list of declarations. -/
def ofDeclarations (declarations : List Declaration) : Except Error Schema := do
  if let some name := Declaration.repeatedName? [] declarations then
    throw (.duplicateType name)
  let settleAll := declarations.forM fun declaration =>
    discard (Declaration.resolve declarations declarations declaration.name)
  let ((), schema) ← settleAll.run (builtIn declarations)
  return schema

def read (json? : JsonReader) (text : String) : Except Error Schema := do
  let some declarations := Declaration.read? json? text | throw .json
  ofDeclarations declarations

end Schema

end RecordCodec
