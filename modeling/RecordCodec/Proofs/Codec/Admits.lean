import RecordCodec.Codec.Conformity
import RecordCodec.Proofs.Layout.WellFormed

/-!
# The values of a layout

`Layout.Admits` says which values a layout can hold, by recursion on the layout
and without any of the tests that writing or showing a value makes.
-/

namespace RecordCodec

/-- An integer in range, a float of the right width, a truth value, or a
character: a text of at most one byte or a number of one byte. -/
def Scalar.Admits : Scalar → Value → Prop
  | .unsigned width, value =>
      ∃ number, value.integer? = some number ∧ 0 ≤ number ∧ number < 2 ^ (8 * width.bytes)
  | .signed width, value =>
      ∃ number, value.integer? = some number ∧
        -2 ^ (8 * width.bytes - 1) ≤ number ∧ number < 2 ^ (8 * width.bytes - 1)
  | .single, value => ∃ bits, value = .single bits
  | .double, value => ∃ bits, value = .double bits
  | .bool, value => ∃ truth, value = .bool truth
  | .char, value =>
      (∃ text, value = .text text ∧ text.utf8ByteSize ≤ 1) ∨
        ∃ number, value = .unsigned number ∧ number.toNat < 256

/-- Some constant of the set has the name. -/
def ConstantSet.Declares (set : ConstantSet) (name : String) : Prop :=
  ∃ constant ∈ set.constants, constant.name = name

/-- The constant at the end of a path of field names through nested records. -/
def RecordValue.tagAt? (record : RecordValue) : List String → Option String
  | [] => none
  | [name] =>
      match record.get? name with
      | some (.constant tag) => some tag
      | _ => none
  | name :: path =>
      match record.get? name with
      | some (.record inner) => inner.tagAt? path
      | _ => none

theorem RecordValue.tagAt?_cons {record : RecordValue} {name : String} {path : List String}
    (nonempty : path ≠ []) {tag : String} :
    record.tagAt? (name :: path) = some tag ↔
      ∃ inner, record.get? name = some (.record inner) ∧ inner.tagAt? path = some tag := by
  rw [RecordValue.tagAt?]
  · split
    · rename_i inner found
      simp [found]
    · rename_i other
      constructor
      · intro none
        cases none
      · rintro ⟨inner, found, -⟩
        exact absurd found (other inner)
  · exact nonempty

theorem RecordValue.tagAt?_singleton {record : RecordValue} {name tag : String} :
    record.tagAt? [name] = some tag ↔ record.get? name = some (.constant tag) := by
  rw [RecordValue.tagAt?]
  split
  · rename_i other found
    simp [found]
  · rename_i other
    constructor
    · intro none
      cases none
    · intro found
      exact absurd found (other tag)

/-- A tag inside the payload names the variant. -/
def Discriminator.Agrees (variant : String) (payload : RecordValue) : Discriminator → Prop
  | .key _ => True
  | .path fields _ => payload.tagAt? fields = some variant

/-- One element, an array of the right number of them, or a text that is not too long. -/
def FieldAdmits (admits : Value → Prop) (element : Layout) (count : Option Nat)
    (value : Value) : Prop :=
  match count with
  | none => admits value
  | some count =>
      (element.isChar = true ∧ ∃ text, value = .text text ∧ text.utf8ByteSize ≤ count) ∨
        ∃ items, value = .array items ∧ items.length = count ∧ ∀ item ∈ items, admits item

mutual
/-- The layout can hold the value. -/
def Layout.Admits : Layout → Value → Prop
  | .scalar _ scalar, value => scalar.Admits value
  | .enumeration constants, value => ∃ name, value = .constant name ∧ constants.Declares name
  | .flags constants, value =>
      ∃ names, value = .flags names ∧ ∀ name ∈ names, constants.Declares name
  | .record layout, value => ∃ record, value = .record record ∧ RecordLayout.Admits layout record
  | .union layout, value =>
      ∃ variant payload, value = .union layout.name variant payload ∧
        layout.discriminator.Agrees variant payload ∧ UnionLayout.Admits layout variant payload
/-- The record names the type, has no undeclared field, and each declared field fits. -/
def RecordLayout.Admits : RecordLayout → RecordValue → Prop
  | ⟨name, fields, _⟩, record =>
      record.type = name ∧
        (∀ field ∈ record.fields, ∃ declared ∈ fields, declared.name = field.name) ∧
        FieldLayout.AdmitAll fields record
/-- The record has each of the fields, with a value that fits. -/
def FieldLayout.AdmitAll : List FieldLayout → RecordValue → Prop
  | [], _ => True
  | ⟨name, element, count, _, _⟩ :: rest, record =>
      (∃ value, record.get? name = some value ∧
        FieldAdmits (fun value => Layout.Admits element value) element count value) ∧
        FieldLayout.AdmitAll rest record
/-- The variant is declared and its record fits. -/
def UnionLayout.Admits : UnionLayout → String → RecordValue → Prop
  | ⟨_, _, _, variants⟩, variant, payload => VariantLayout.AdmitNamed variants variant payload
/-- One of the variants has the name, and its record fits. -/
def VariantLayout.AdmitNamed : List VariantLayout → String → RecordValue → Prop
  | [], _, _ => False
  | ⟨name, _, member⟩ :: rest, variant, payload =>
      (name = variant ∧ Layout.Admits member (.record payload)) ∨
        VariantLayout.AdmitNamed rest variant payload
end

theorem FieldLayout.admitAll_iff {fields : List FieldLayout} {record : RecordValue} :
    FieldLayout.AdmitAll fields record ↔
      ∀ field ∈ fields, ∃ value, record.get? field.name = some value ∧
        FieldAdmits field.element.Admits field.element field.count value := by
  induction fields with
  | nil => simp [FieldLayout.AdmitAll]
  | cons field rest ih =>
      cases field
      simp [FieldLayout.AdmitAll, ih]

theorem RecordLayout.admits_iff {layout : RecordLayout} {record : RecordValue} :
    layout.Admits record ↔
      record.type = layout.name ∧
        (∀ field ∈ record.fields, ∃ declared ∈ layout.fields, declared.name = field.name) ∧
        ∀ field ∈ layout.fields, ∃ value, record.get? field.name = some value ∧
          FieldAdmits field.element.Admits field.element field.count value := by
  cases layout
  simp [RecordLayout.Admits, FieldLayout.admitAll_iff]

/-- Each field of a record with the declared names is a declared one. -/
theorem RecordLayout.exists_declared_of_names {layout : RecordLayout} {record : RecordValue}
    (names : record.fields.map FieldValue.name = layout.fields.map FieldLayout.name) :
    ∀ field ∈ record.fields, ∃ declared ∈ layout.fields, declared.name = field.name := by
  intro field member
  have named : field.name ∈ layout.fields.map FieldLayout.name := by
    rw [← names]
    exact List.mem_map_of_mem member
  exact List.mem_map.mp named

/-- What an admitted record has under the name of a field fits that field. -/
theorem RecordLayout.Admits.field {layout : RecordLayout} {record : RecordValue}
    (admits : layout.Admits record) {field : FieldLayout} (member : field ∈ layout.fields)
    {value : Value} (found : record.get? field.name = some value) :
    FieldAdmits field.element.Admits field.element field.count value := by
  obtain ⟨-, -, each⟩ := RecordLayout.admits_iff.mp admits
  obtain ⟨other, otherFound, fits⟩ := each field member
  obtain rfl : value = other := Option.some.inj (found.symm.trans otherFound)
  exact fits

theorem UnionLayout.admits_iff {layout : UnionLayout} {variant : String}
    {payload : RecordValue} :
    layout.Admits variant payload ↔
      ∃ selected ∈ layout.variants,
        selected.name = variant ∧ selected.member.Admits (.record payload) := by
  cases layout with
  | mk name discriminator discriminant variants =>
      simp only [UnionLayout.Admits]
      induction variants with
      | nil => simp [VariantLayout.AdmitNamed]
      | cons selected rest ih =>
          cases selected
          simp [VariantLayout.AdmitNamed, ih]

@[simp] theorem Layout.admits_record {layout : RecordLayout} {record : RecordValue} :
    (Layout.record layout).Admits (.record record) ↔ layout.Admits record := by
  simp [Layout.Admits]

/-- A union admits what the record of a variant admits. -/
theorem UnionLayout.Tagged.exists_admits_iff {layout : UnionLayout} (tagged : layout.Tagged)
    {variant : String} {payload : RecordValue} :
    layout.Admits variant payload ↔
      ∃ selected ∈ layout.variants, selected.name = variant ∧ selected.record.Admits payload := by
  rw [UnionLayout.admits_iff]
  constructor
  · rintro ⟨selected, member, named, admits⟩
    rw [tagged.recorded selected member, Layout.admits_record] at admits
    exact ⟨selected, member, named, admits⟩
  · rintro ⟨selected, member, named, admits⟩
    rw [← Layout.admits_record, ← tagged.recorded selected member] at admits
    exact ⟨selected, member, named, admits⟩

end RecordCodec
