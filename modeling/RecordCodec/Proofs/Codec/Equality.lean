import RecordCodec.Proofs.Codec.Conformity
import RecordCodec.Proofs.Codec.Image
import RecordCodec.Proofs.Value.Equality

/-!
# The bytes of values that mean the same

The bytes of a value depend on the numbers that its integers stand for and on
what its records have under the declared names.  Neither the signedness of an
integer nor the order of the fields has a part in them, so two values that mean
the same have the same image as soon as the layout admits both.
-/

namespace RecordCodec

/-- Two values of a field are one text, or their elements are related one by one. -/
inductive FieldMatch (related : Value → Value → Prop) : Option Nat → Value → Value → Prop
  | one {first second : Value} (same : related first second) :
      FieldMatch related none first second
  | text {count : Nat} (text : String) :
      FieldMatch related (some count) (.text text) (.text text)
  | items {count : Nat} {items others : List Value} (same : List.Forall₂ related items others) :
      FieldMatch related (some count) (.array items) (.array others)

/-- The layout admits both values, and they mean the same. -/
def Layout.Alike (layout : Layout) (first second : Value) : Prop :=
  layout.Admits first ∧ layout.Admits second ∧ first.equal second = true

/-- Values of a field that mean the same match element by element. -/
theorem FieldAdmits.match_of_equal {element : Layout} {count : Option Nat} {first second : Value}
    (firstFits : FieldAdmits element.Admits element count first)
    (secondFits : FieldAdmits element.Admits element count second)
    (same : first.equal second = true) : FieldMatch element.Alike count first second := by
  cases count with
  | none => exact .one ⟨firstFits, secondFits, same⟩
  | some count =>
      rcases firstFits with ⟨-, text, rfl, -⟩ | ⟨items, rfl, -, firstEach⟩
      · rw [Value.eq_of_equal rfl same]
        exact .text text
      · obtain ⟨others, rfl, related⟩ := Value.equal_array_iff.mp same
        rcases secondFits with ⟨-, _, ⟨⟩, -⟩ | ⟨_, ⟨⟩, -, secondEach⟩
        apply FieldMatch.items
        have firstRelated := (List.forall₂_and_left _ _).mpr ⟨firstEach, related⟩
        have bothRelated := (List.forall₂_and_left _ _).mpr ⟨secondEach, firstRelated.flip⟩
        exact bothRelated.flip.imp fun _ _ ⟨second, first, same⟩ => ⟨first, second, same⟩

/-- Records that mean the same match field by field. -/
theorem RecordLayout.match_of_equal {layout : RecordLayout} {first second : RecordValue}
    (firstAdmits : layout.Admits first) (secondAdmits : layout.Admits second)
    (same : first.equal second = true) {field : FieldLayout} (member : field ∈ layout.fields) :
    ∃ value other, first.get? field.name = some value ∧ second.get? field.name = some other ∧
      FieldMatch field.element.Alike field.count value other := by
  obtain ⟨-, -, each⟩ := RecordLayout.admits_iff.mp firstAdmits
  obtain ⟨value, found, firstFits⟩ := each field member
  obtain ⟨other, otherFound, equal⟩ := RecordValue.get?_of_equal same found
  have secondFits := secondAdmits.field member otherFound
  exact ⟨value, other, found, otherFound, firstFits.match_of_equal secondFits equal⟩

/-- Scalars that mean the same are the same bytes. -/
theorem Scalar.image_eq_of_equal {scalar : Scalar} {first second : Value}
    (firstAdmits : scalar.Admits first) (secondAdmits : scalar.Admits second)
    (same : first.equal second = true) : scalar.image first = scalar.image second := by
  have numbers := Value.integer?_eq_of_equal same
  cases scalar with
  | unsigned width | signed width =>
      obtain ⟨number, firstNumber, -⟩ := firstAdmits
      have secondNumber := numbers.symm.trans firstNumber
      simp only [Scalar.image, width.positive, width.atMostEight,
        Scalar.integerImage_eq _ _ _ firstNumber, Scalar.integerImage_eq _ _ _ secondNumber]
  | single | double | bool =>
      obtain ⟨_, rfl⟩ := firstAdmits
      rw [Value.eq_of_equal rfl same]
  | char =>
      rcases firstAdmits with ⟨text, rfl, -⟩ | ⟨number, rfl, -⟩
      · rw [Value.eq_of_equal rfl same]
      · rcases secondAdmits with ⟨_, rfl, -⟩ | ⟨other, rfl, -⟩
        · cases same
        · rw [eq_of_beq same]

/-- The images of fields that match are the same. -/
theorem FieldMatch.fieldImage_eq {related : Value → Value → Prop} {image : Value → List UInt8}
    (images : ∀ first second, related first second → image first = image second)
    {element : Layout} {count : Option Nat} {first second : Value}
    (matched : FieldMatch related count first second) :
    fieldImage image element count first = fieldImage image element count second := by
  have slots (first second : Value) (same : related first second) :
      slotImage image element.slotLength first = slotImage image element.slotLength second := by
    simp only [slotImage, images first second same]
  cases matched with
  | one same => exact slots _ _ same
  | text => rfl
  | items same =>
      have runs := map_eq_map_of_forall₂ (same.imp slots)
      simp only [fieldImage, List.flatMap_def, runs]

theorem FieldLayout.imageAll_eq_flatMap (fields : List FieldLayout) (record : RecordValue) :
    FieldLayout.imageAll fields record = fields.flatMap fun field =>
      fieldImage field.element.image field.element field.count
        ((record.get? field.name).getD default) := by
  induction fields with
  | nil => rfl
  | cons field rest ih =>
      cases field
      rw [FieldLayout.imageAll, List.flatMap_cons, ih]

theorem RecordLayout.image_eq_flatMap (layout : RecordLayout) (record : RecordValue) :
    layout.image record = layout.fields.flatMap fun field =>
      fieldImage field.element.image field.element field.count
        ((record.get? field.name).getD default) := by
  cases layout
  rw [RecordLayout.image, FieldLayout.imageAll_eq_flatMap]

/-- Values that mean the same have the same image. -/
def Layout.ImageByMeaning (layout : Layout) : Prop :=
  ∀ first second, layout.Alike first second → layout.image first = layout.image second

theorem RecordLayout.image_eq_of_equal {layout : RecordLayout}
    (elements : ∀ field ∈ layout.fields, field.element.ImageByMeaning)
    {first second : RecordValue} (firstAdmits : layout.Admits first)
    (secondAdmits : layout.Admits second) (same : first.equal second = true) :
    layout.image first = layout.image second := by
  simp only [RecordLayout.image_eq_flatMap]
  apply List.flatMap_congr
  intro field member
  obtain ⟨value, other, found, otherFound, matched⟩ :=
    RecordLayout.match_of_equal firstAdmits secondAdmits same member
  rw [found, otherFound]
  exact matched.fieldImage_eq (elements field member)

/-- For every type of a resolved schema, the image is a matter of meaning. -/
theorem Layout.WellFormed.imageByMeaning {layout : Layout} (wellFormed : layout.WellFormed) :
    layout.ImageByMeaning := by
  induction wellFormed with
  | scalar =>
      rintro first second ⟨firstAdmits, secondAdmits, same⟩
      simp only [Layout.image, Scalar.bytes,
        Scalar.image_eq_of_equal firstAdmits secondAdmits same]
  | enumeration | flags =>
      rintro _ second ⟨⟨_, rfl, -⟩, -, same⟩
      rw [Value.eq_of_equal rfl same]
  | @record record tiled _ elements =>
      rintro _ _ ⟨⟨first, rfl, firstAdmits⟩, ⟨second, rfl, secondAdmits⟩, same⟩
      rw [Layout.image_record, Layout.image_record]
      exact RecordLayout.image_eq_of_equal elements firstAdmits secondAdmits same
  | @union union tagged _ records =>
      rintro _ _ ⟨⟨variant, first, rfl, -, firstFits⟩, ⟨_, second, rfl, -, secondFits⟩, same⟩
      obtain ⟨_, ⟨⟩, payloads⟩ := Value.equal_union_iff.mp same
      obtain ⟨selected, member, rfl, firstAdmits⟩ := tagged.exists_admits_iff.mp firstFits
      have secondAdmits := (tagged.admits_iff member).mp secondFits
      have found := tagged.withName?_eq_some.mpr ⟨member, rfl⟩
      have images := records selected member (.record first) (.record second)
        ⟨Layout.admits_record.mpr firstAdmits, Layout.admits_record.mpr secondAdmits, payloads⟩
      rw [Layout.image_record, Layout.image_record] at images
      simp only [Layout.image, tagged.image_eq found, images]

end RecordCodec
