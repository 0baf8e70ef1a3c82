import Mathlib.Data.Option.Basic
import RecordCodec.Document.Read
import RecordCodec.Document.Write
import RecordCodec.Proofs.Codec.Causes
import RecordCodec.Proofs.Document.Scalar

/-!
# Why showing a value and reading its document fail

Showing a value fails because of the value, like writing it.  Reading a
document fails because of the document: once a node is of the right kind, what
is built from it is a value of the right kind, and can only be too great, too
long or unknown.
-/

namespace RecordCodec

section Showing

theorem Scalar.failsWith_document (scalar : Scalar) (value : Value) :
    FailsWith Error.OfValue (scalar.document value) := by
  refine (scalar.failsWith_image value).bind fun _ _ => ?_
  split
  all_goals first | exact .of_ok _ | exact .of_error True.intro

theorem ConstantSet.failsWith_constantDocument (set : ConstantSet) (value : Value) :
    FailsWith Error.OfValue (set.constantDocument value) := by
  refine (set.failsWith_constantWord value).bind fun _ _ => ?_
  split
  · exact .of_ok _
  · exact .of_error True.intro

theorem ConstantSet.failsWith_flagsDocument (set : ConstantSet) (value : Value) :
    FailsWith Error.OfValue (set.flagsDocument value) := by
  refine (set.failsWith_flagsWord value).bind fun _ _ => ?_
  split
  · exact .of_ok _
  · exact .of_error True.intro

theorem failsWith_fieldDocument {elementDocument : Value → Except Error Json}
    (element : ∀ value, FailsWith Error.OfValue (elementDocument value)) (layout : Layout)
    (count : Option Nat) (value : Value) :
    FailsWith Error.OfValue (fieldDocument elementDocument layout count value) := by
  unfold fieldDocument
  split
  · exact element value
  · split
    · exact (TextField.failsWith_requireCapacity _ _ fun _ _ => True.intro).bind fun _ _ => .of_ok _
    · split
      · exact (FailsWith.mapM fun item _ => element item).andReturn _
      · exact .of_error True.intro
    · exact .of_error True.intro

theorem failsWith_tagMembers (type variant : String) (discriminator : Discriminator)
    (payload : RecordValue) :
    FailsWith Error.OfValue (tagMembers type variant discriminator payload) := by
  unfold tagMembers
  split
  · exact .of_ok _
  · exact (UnionLayout.failsWith_checkTag _ _ _ _).bind fun _ _ => .of_ok _

mutual
/-- Showing a value fails only because of the value, for every type of a resolved schema. -/
theorem Layout.WellFormed.failsWith_document : ∀ {layout : Layout}, layout.WellFormed →
    ∀ value, FailsWith Error.OfValue (layout.document value)
  | .scalar _ scalar, _, value => scalar.failsWith_document value
  | .enumeration constants, _, value => constants.failsWith_constantDocument value
  | .flags constants, _, value => constants.failsWith_flagsDocument value
  | .record ⟨_, fields, _⟩, .record _ elements, value => by
      rw [Layout.document]
      exact (failsWith_expectRecord value).bind fun _ _ =>
        (RecordLayout.failsWith_check _ _).bind fun _ _ =>
          (FieldLayout.failsWith_memberDocuments fields elements _ _).andReturn _
  | .union ⟨_, _, _, variants⟩, .union tagged records, value => by
      rw [Layout.document]
      exact (UnionLayout.failsWith_expect _ value).bind fun _ _ =>
        VariantLayout.failsWith_documentNamed variants tagged.recorded records _ _ _ _
theorem FieldLayout.failsWith_memberDocuments :
    ∀ (fields : List FieldLayout), (∀ field ∈ fields, field.element.WellFormed) →
      ∀ (type : String) (record : RecordValue),
        FailsWith Error.OfValue (FieldLayout.memberDocuments fields type record)
  | [], _, _, _ => .of_ok _
  | ⟨_, element, count, _, _⟩ :: rest, elements, type, record => by
      obtain ⟨first, others⟩ := List.forall_mem_cons.mp elements
      rw [FieldLayout.memberDocuments]
      exact (RecordLayout.failsWith_fieldValue _ _ _).bind fun value _ =>
        (failsWith_fieldDocument (Layout.WellFormed.failsWith_document first) element count
          value).bind fun _ _ =>
            (FieldLayout.failsWith_memberDocuments rest others type record).andReturn _
theorem VariantLayout.failsWith_documentNamed :
    ∀ (variants : List VariantLayout),
      (∀ variant ∈ variants, variant.member = .record variant.record) →
      (∀ variant ∈ variants, (Layout.record variant.record).WellFormed) →
      ∀ (type : String) (discriminator : Discriminator) (variant : String) (payload : RecordValue),
        FailsWith Error.OfValue
          (VariantLayout.documentNamed variants type discriminator variant payload)
  | [], _, _, _, _, _, _ => .of_error True.intro
  | ⟨_, _, member⟩ :: rest, recorded, records, type, discriminator, variant, payload => by
      obtain ⟨isRecord, othersRecorded⟩ := List.forall_mem_cons.mp recorded
      obtain ⟨first, others⟩ := List.forall_mem_cons.mp records
      rw [VariantLayout.documentNamed]
      split
      · exact Layout.failsWith_memberDocument member isRecord first type discriminator variant
          payload
      · exact VariantLayout.failsWith_documentNamed rest othersRecorded others type discriminator
          variant payload
theorem Layout.failsWith_memberDocument : ∀ (member : Layout) {record : RecordLayout},
    member = .record record → (Layout.record record).WellFormed →
      ∀ (type : String) (discriminator : Discriminator) (variant : String) (payload : RecordValue),
        FailsWith Error.OfValue (member.memberDocument type discriminator variant payload)
  | .record ⟨_, fields, _⟩, _, rfl, .record _ elements, _, _, _, _ => by
      rw [Layout.memberDocument]
      exact (RecordLayout.failsWith_check _ _).bind fun _ _ =>
        (failsWith_tagMembers _ _ _ _).bind fun _ _ =>
          (FieldLayout.failsWith_memberDocuments fields elements _ _).andReturn _
end

end Showing

section Rebuilding

theorem failsWith_orMismatch {α : Type} (path : NodePath) (expected : NodeKind)
    (found : Option α) : FailsWith Error.OfDocument (orMismatch path expected found) := by
  cases found with
  | none => exact .of_error True.intro
  | some value => exact .of_ok _

theorem Scalar.failsWith_integerImage {value : Value} (integer : value.integer?.isSome = true)
    (isSigned : Bool) (width : WordWidth) :
    FailsWith Error.OfDocument (integerImage isSigned width.bytes value) := by
  obtain ⟨number, known⟩ := Option.isSome_iff_exists.mp integer
  rw [integerImage_eq width.positive width.atMostEight isSigned known]
  split
  · exact .of_ok _
  · exact .of_error True.intro

/-- What a node stands for is of the right kind, so only its size can be wrong. -/
theorem Scalar.failsWith_image_ofDocument? {scalar : Scalar} {json : Json} {value : Value}
    (found : scalar.ofDocument? json = some value) :
    FailsWith Error.OfDocument (scalar.image value) := by
  cases scalar with
  | unsigned width =>
      have integer : value.integer?.isSome = true := by
        rcases (Option.orElse_eq_some _ _ _).mp found with known | ⟨-, known⟩ <;>
          obtain ⟨word, -, rfl⟩ := Option.map_eq_some_iff.mp known <;> rfl
      exact failsWith_integerImage integer false _
  | signed width =>
      have integer : value.integer?.isSome = true := by
        rcases (Option.orElse_eq_some _ _ _).mp found with known | ⟨-, known⟩ <;>
          obtain ⟨word, -, rfl⟩ := Option.map_eq_some_iff.mp known <;> rfl
      exact failsWith_integerImage integer true _
  | single =>
      obtain ⟨bits, -, rfl⟩ := Option.map_eq_some_iff.mp found
      exact .of_ok _
  | double =>
      obtain ⟨bits, -, rfl⟩ := Option.map_eq_some_iff.mp found
      exact .of_ok _
  | bool =>
      obtain ⟨truth, -, rfl⟩ := Option.map_eq_some_iff.mp found
      exact .of_ok _
  | char =>
      rcases (Option.orElse_eq_some _ _ _).mp found with character | ⟨-, character⟩ <;>
        obtain ⟨value, -, rfl⟩ := Option.map_eq_some_iff.mp character
      · simp only [image, charImage]
        split
        · exact .of_ok _
        · exact .of_ok _
        · exact .of_error True.intro
      · rw [image, charImage_unsigned]
        split
        · exact .of_ok _
        · exact .of_error True.intro

theorem Scalar.failsWith_ofDocument (scalar : Scalar) (json : Json) (path : NodePath) :
    FailsWith Error.OfDocument (scalar.ofDocument json path) :=
  (failsWith_orMismatch _ _ _).bind fun _ found =>
    (failsWith_image_ofDocument? (orMismatch_eq_ok_iff.mp found)).andReturn _

theorem ConstantSet.failsWith_constantOfDocument (set : ConstantSet) (json : Json)
    (path : NodePath) : FailsWith Error.OfDocument (set.constantOfDocument json path) :=
  (failsWith_orMismatch _ _ _).bind fun name _ =>
    (set.failsWith_valueOf name fun _ _ => True.intro).andReturn _

theorem ConstantSet.failsWith_flagsOfDocument (set : ConstantSet) (json : Json)
    (path : NodePath) : FailsWith Error.OfDocument (set.flagsOfDocument json path) :=
  (failsWith_orMismatch _ _ _).bind fun _ _ =>
    (FailsWith.mapM fun _ _ => failsWith_orMismatch _ _ _).bind fun names _ =>
      (set.failsWith_combine names fun _ _ => True.intro).andReturn _

section Field

variable {readElement : Json → NodePath → Except Error Value}
  (element : ∀ json path, FailsWith Error.OfDocument (readElement json path))

include element

theorem failsWith_readItems (path : NodePath) (index : Nat) (items : List Json) :
    FailsWith Error.OfDocument (readItems readElement path index items) := by
  induction items generalizing index with
  | nil => exact .of_ok _
  | cons item rest ih => exact (element _ _).bind fun _ _ => (ih (index + 1)).andReturn _

theorem failsWith_fieldOfDocument (layout : Layout) (count : Option Nat) (json : Json)
    (path : NodePath) :
    FailsWith Error.OfDocument (fieldOfDocument readElement layout count json path) := by
  unfold fieldOfDocument
  split
  · exact element json path
  · split
    · exact (TextField.failsWith_requireCapacity _ _ fun _ _ => True.intro).bind fun _ _ => .of_ok _
    · refine (failsWith_orMismatch _ _ _).bind fun items _ => ?_
      split
      · exact (failsWith_readItems element path 0 items).andReturn _
      · exact .of_error True.intro

end Field

theorem failsWith_requireDeclared (type : String) (fields : List FieldLayout)
    (key : Option String) (members : List JsonMember) :
    FailsWith Error.OfDocument (requireDeclared type fields key members) := by
  unfold requireDeclared
  split
  · exact .of_error True.intro
  · exact .of_ok _

mutual
/-- Reading a document fails only because of the document, for every type of a resolved schema. -/
theorem Layout.WellFormed.failsWith_ofDocument : ∀ {layout : Layout}, layout.WellFormed →
    ∀ (json : Json) (path : NodePath), FailsWith Error.OfDocument (layout.ofDocument json path)
  | .scalar _ scalar, _, json, path => scalar.failsWith_ofDocument json path
  | .enumeration constants, _, json, path => constants.failsWith_constantOfDocument json path
  | .flags constants, _, json, path => constants.failsWith_flagsOfDocument json path
  | .record layout, .record _ elements, json, path => by
      rw [Layout.ofDocument]
      exact (failsWith_orMismatch _ _ _).bind fun _ _ =>
        (RecordLayout.failsWith_ofDocument layout elements _ _ path).andReturn _
  | .union ⟨_, _, _, variants⟩, .union tagged records, json, path => by
      rw [Layout.ofDocument]
      exact (failsWith_orMismatch _ _ _).bind fun _ _ =>
        (failsWith_orMismatch _ _ _).bind fun _ _ =>
          VariantLayout.failsWith_ofDocumentNamed variants tagged.recorded records _ _ _ _ path
theorem RecordLayout.failsWith_ofDocument : ∀ (layout : RecordLayout),
    (∀ field ∈ layout.fields, field.element.WellFormed) →
      ∀ (key : Option String) (members : List JsonMember) (path : NodePath),
        FailsWith Error.OfDocument (layout.ofDocument key members path)
  | ⟨_, fields, _⟩, elements, key, members, path => by
      rw [RecordLayout.ofDocument]
      exact (failsWith_requireDeclared _ _ _ _).bind fun _ _ =>
        (FieldLayout.failsWith_ofDocumentAll fields elements _ members path).andReturn _
theorem FieldLayout.failsWith_ofDocumentAll : ∀ (fields : List FieldLayout),
    (∀ field ∈ fields, field.element.WellFormed) →
      ∀ (type : String) (members : List JsonMember) (path : NodePath),
        FailsWith Error.OfDocument (FieldLayout.ofDocumentAll fields type members path)
  | [], _, _, _, _ => .of_ok _
  | ⟨name, element, count, _, _⟩ :: rest, elements, type, members, path => by
      obtain ⟨first, others⟩ := List.forall_mem_cons.mp elements
      rw [FieldLayout.ofDocumentAll]
      split
      · exact (failsWith_fieldOfDocument (Layout.WellFormed.failsWith_ofDocument first) element
          count _ _).bind fun _ _ =>
            (FieldLayout.failsWith_ofDocumentAll rest others type members path).andReturn _
      · exact .of_error True.intro
theorem VariantLayout.failsWith_ofDocumentNamed : ∀ (variants : List VariantLayout),
    (∀ variant ∈ variants, variant.member = .record variant.record) →
    (∀ variant ∈ variants, (Layout.record variant.record).WellFormed) →
      ∀ (type variant : String) (key : Option String) (members : List JsonMember) (path : NodePath),
        FailsWith Error.OfDocument
          (VariantLayout.ofDocumentNamed variants type variant key members path)
  | [], _, _, _, _, _, _, _ => .of_error True.intro
  | ⟨_, _, member⟩ :: rest, recorded, records, type, variant, key, members, path => by
      obtain ⟨isRecord, othersRecorded⟩ := List.forall_mem_cons.mp recorded
      obtain ⟨first, others⟩ := List.forall_mem_cons.mp records
      rw [VariantLayout.ofDocumentNamed]
      split
      · exact Layout.failsWith_ofMemberDocument member isRecord first type variant key members path
      · exact VariantLayout.failsWith_ofDocumentNamed rest othersRecorded others type variant key
          members path
theorem Layout.failsWith_ofMemberDocument : ∀ (member : Layout) {record : RecordLayout},
    member = .record record → (Layout.record record).WellFormed →
      ∀ (type variant : String) (key : Option String) (members : List JsonMember) (path : NodePath),
        FailsWith Error.OfDocument (member.ofMemberDocument type variant key members path)
  | .record layout, _, rfl, .record _ elements, _, _, key, members, path => by
      rw [Layout.ofMemberDocument]
      exact (RecordLayout.failsWith_ofDocument layout elements key members path).andReturn _
end

end Rebuilding

end RecordCodec
