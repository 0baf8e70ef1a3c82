import RecordCodec.Declaration.Json
import RecordCodec.Proofs.Json.Compact

/-!
# Declarations read back

A declaration is written in one of the forms in which it is read: as an object that names its kind
first and leaves out what is absent.  Its parts are found under their keys again, those left out are
taken to be absent, and a member and a discriminator are told apart by the kind of their node.
-/

namespace RecordCodec

namespace Json

@[simp] theorem unsigned?_ofUnsigned (word : UInt64) :
    (Json.number (.ofUnsigned word)).unsigned? = some word := by
  simp [unsigned?, JsonNumber.ofUnsigned, JsonNumber.toUnsigned?]

@[simp] theorem integralWithin_ofUnsigned (levels : Nat) (word : UInt64) :
    (ofUnsigned word).IntegralWithin levels := by
  simp [ofUnsigned, JsonNumber.ofUnsigned, IntegralWithin]

/-- Members under known keys in order, none of them repeated, are the parts of a form. -/
theorem parts?_object {keys : List String} {members : List JsonMember}
    (known : (members.map JsonMember.key).Sublist keys) (distinct : keys.Nodup) :
    parts? keys (.object members) = some members := by
  have all : members.filter (fun member => keys.contains member.key) = members := by
    refine List.filter_eq_self.mpr fun member among => ?_
    exact List.contains_iff_mem.mpr (known.subset (List.mem_map_of_mem among))
  simp only [parts?, all]
  exact if_pos (distinct.sublist known)

theorem mapM_map_eq_some {α : Type} {read : Json → Option α} {write : α → Json}
    (undoes : ∀ item, read (write item) = some item) (items : List α) :
    (items.map write).mapM read = some items := by
  induction items with
  | nil => rfl
  | cons item rest ih => simp [undoes, ih]

theorem listOf?_array {α : Type} {read : Json → Option α} {write : α → Json}
    (undoes : ∀ item, read (write item) = some item) (items : List α) :
    listOf? read (.array (items.map write)) = some items :=
  mapM_map_eq_some undoes items

end Json

theorem FieldDeclaration.ofJson?_toJson (field : FieldDeclaration) :
    ofJson? field.toJson = some field := by
  obtain ⟨name, type, length⟩ := field
  rw [toJson, ofJson?, Json.parts?_object (by cases length <;> simp) (by decide)]
  cases length <;>
    simp [Json.required?, Json.nullable?, JsonMember.find?, Json.text?, Json.ofUnsigned]

theorem MemberDeclaration.ofJson?_toJson (member : MemberDeclaration) :
    ofJson? member.toJson = some member := by
  cases member with
  | named record => rfl
  | tagged record tag =>
      rw [toJson, ofJson?, Json.parts?_object (by simp) (by decide)]
      rfl

theorem DiscriminatorDeclaration.ofJson?_toJson (discriminator : DiscriminatorDeclaration) :
    ofJson? discriminator.toJson = some discriminator := by
  cases discriminator with
  | key label => rfl
  | path fields =>
      have read := @Json.mapM_map_eq_some String Json.text? Json.text (fun _ => rfl) fields
      rw [toJson, Json.ofTexts, ofJson?, read]
      rfl

namespace Declaration

/-- The parts of a declaration stand behind its kind. -/
theorem ofJson?_object (kind : String) {members : List JsonMember}
    (parts : ∀ member ∈ members, member.key ≠ "kind") :
    ofJson? (.object (⟨"kind", .text kind⟩ :: members)) = ofParts? kind (.object members) := by
  have none : members.filter (fun member => member.key == "kind") = [] :=
    List.filter_eq_nil_iff.mpr fun member among => by simpa using parts member among
  have all : members.filter (fun member => !(member.key == "kind")) = members :=
    List.filter_eq_self.mpr fun member among => by simpa using parts member among
  simp [ofJson?, List.partition_eq_filter_filter, none, all, Function.comp_def]

theorem constantOfJson?_pair (constant : String × UInt64) :
    constantOfJson? (.array [.text constant.1, .ofUnsigned constant.2]) = some constant := by
  simp [constantOfJson?, Json.text?, Json.ofUnsigned]

theorem ofJson?_toJson (declaration : Declaration) :
    ofJson? declaration.toJson = some declaration := by
  cases declaration with
  | primitive name size =>
      rw [toJson, ofJson?_object "Primitive" (by simp)]
      change primitiveOfJson? _ = _
      rw [primitiveOfJson?, Json.parts?_object (by simp) (by decide)]
      simp [Json.required?, JsonMember.find?, Json.text?, Json.ofUnsigned]
  | «alias» name target =>
      rw [toJson, ofJson?_object "Alias" (by simp)]
      change aliasOfJson? _ = _
      rw [aliasOfJson?, Json.parts?_object (by simp) (by decide)]
      rfl
  | enumeration name underlying constants isFlags =>
      have read := Json.listOf?_array constantOfJson?_pair constants
      rw [toJson, ofJson?_object "Enum" (by simp)]
      change enumerationOfJson? _ = _
      rw [enumerationOfJson?, Json.parts?_object (by simp) (by decide)]
      simp [Json.required?, Json.optional?, JsonMember.find?, Json.text?, Json.bool?, read]
  | record name size fields =>
      have read := Json.listOf?_array FieldDeclaration.ofJson?_toJson fields
      rw [toJson, List.cons_append, ofJson?_object "Struct" (by cases size <;> simp)]
      change recordOfJson? _ = _
      rw [recordOfJson?, Json.parts?_object (by cases size <;> simp) (by decide)]
      cases size <;>
        simp [Json.required?, Json.nullable?, JsonMember.find?, Json.text?, Json.ofUnsigned, read]
  | union name discriminator discriminant members =>
      have read := Json.listOf?_array MemberDeclaration.ofJson?_toJson members
      have placed := discriminator.ofJson?_toJson
      rw [toJson, List.cons_append, ofJson?_object "Union" (by cases discriminant <;> simp)]
      change unionOfJson? _ = _
      rw [unionOfJson?, Json.parts?_object (by cases discriminant <;> simp) (by decide)]
      cases discriminant <;>
        simp [Json.required?, Json.optional?, Json.nullable?, JsonMember.find?, Json.text?, read,
          placed]

theorem listOfJson?_listToJson (declarations : List Declaration) :
    listOfJson? (listToJson declarations) = some declarations :=
  Json.listOf?_array ofJson?_toJson declarations

theorem integralWithin_toJson (declaration : Declaration) :
    declaration.toJson.IntegralWithin 3 := by
  have field (field : FieldDeclaration) : field.toJson.IntegralWithin 1 := by
    obtain ⟨name, type, length⟩ := field
    cases length <;> simp [FieldDeclaration.toJson, Json.IntegralWithin]
  have member (member : MemberDeclaration) : member.toJson.IntegralWithin 1 := by
    cases member <;> simp [MemberDeclaration.toJson, Json.IntegralWithin]
  have place (place : DiscriminatorDeclaration) : place.toJson.IntegralWithin 2 := by
    cases place <;> simp [DiscriminatorDeclaration.toJson, Json.ofTexts, Json.IntegralWithin]
  cases declaration with
  | primitive => simp [toJson, Json.IntegralWithin]
  | «alias» => simp [toJson, Json.IntegralWithin]
  | enumeration => simp [toJson, Json.IntegralWithin, List.forall_mem_map, -List.mem_map]
  | record _ size _ => cases size <;> simp [toJson, Json.IntegralWithin, field]
  | union _ _ discriminant _ =>
      cases discriminant <;> simp [toJson, Json.IntegralWithin, member, place]

theorem integralWithin_listToJson (declarations : List Declaration) :
    (listToJson declarations).IntegralWithin 4 :=
  List.forall_mem_map.mpr fun declaration _ => declaration.integralWithin_toJson

/-- What is written for declarations is read as these declarations again, as a value and, by any
reader that reads compact text, as text.  So whichever way a text spells declarations, the text that
is written for them is read alike. -/
theorem written_read_back {json? : JsonReader} (reads : json?.ReadsCompact)
    (declarations : List Declaration) :
    listOfJson? (listToJson declarations) = some declarations ∧
    read? json? (listToJson declarations).compact = some declarations ∧
    ∀ text, read? json? text = some declarations →
      read? json? (listToJson declarations).compact = read? json? text := by
  have value := listOfJson?_listToJson declarations
  have json := reads (integralWithin_listToJson declarations) (by decide)
  have back : read? json? (listToJson declarations).compact = some declarations := by
    rw [read?, json]
    exact value
  exact ⟨value, back, fun text read => back.trans read.symm⟩

end Declaration

namespace Sample

/-- Declarations as arrays and as objects, with the parts in any order, with unknown keys and
without what is absent. -/
def spelledDeclarations : Json :=
  .array [
    .array [.text "Enum", .text "Tag", .text "u8", .array [.array [.text "Full", .ofUnsigned 1]]],
    .object [⟨"note", .null⟩, ⟨"name", .text "Box"⟩, ⟨"size", .null⟩,
      ⟨"fields", .array [.array [.text "data", .text "u8"],
        .object [⟨"length", .ofUnsigned 4⟩, ⟨"type", .text "char"⟩, ⟨"name", .text "code"⟩]]⟩,
      ⟨"note", .bool true⟩, ⟨"kind", .text "Struct"⟩],
    .object [⟨"members", .array [.object [⟨"tag", .text "Full"⟩, ⟨"type", .text "Box"⟩]]⟩,
      ⟨"kind", .text "Union"⟩, ⟨"name", .text "Any"⟩, ⟨"discriminant", .text "Tag"⟩]]

def spelled : List Declaration :=
  [.enumeration "Tag" "u8" [("Full", 1)] false,
    .record "Box" none [⟨"data", "u8", none⟩, ⟨"code", "char", some 4⟩],
    .union "Any" .standard (some "Tag") [.tagged "Box" "Full"]]

end Sample

theorem Declaration.sample_spellings_read_back :
    Declaration.read? Json.readBytes? Sample.spelledDeclarations.compact = some Sample.spelled ∧
      Declaration.read? Json.readBytes? (Declaration.listToJson Sample.spelled).compact =
        Declaration.read? Json.readBytes? Sample.spelledDeclarations.compact := by
  have integral : Sample.spelledDeclarations.IntegralWithin 4 := by
    simp [Sample.spelledDeclarations, Json.IntegralWithin]
  have value : Declaration.listOfJson? Sample.spelledDeclarations = some Sample.spelled := by
    decide +kernel
  have read : Declaration.read? Json.readBytes? Sample.spelledDeclarations.compact =
      some Sample.spelled := by
    rw [Declaration.read?, Json.readBytes?_readsCompact integral (by decide)]
    exact value
  exact ⟨read,
    (Declaration.written_read_back Json.readBytes?_readsCompact Sample.spelled).2.2 _ read⟩

end RecordCodec
