import RecordCodec.Codec.Encode
import RecordCodec.Proofs.Codec.Admits
import RecordCodec.Proofs.Codec.Range
import RecordCodec.Proofs.Layout.WellFormed
import RecordCodec.Proofs.Success

/-!
# The image of a value

The image of a value is the list of its bytes, put together from the images of
its parts: fields one behind the other, each element filled up to its slot with
zeros, a text filled up to its field, and the header of a union in front of its
record.  No buffer and no offset takes part.  The image of a value that the
layout admits has exactly the length that encoding announces.
-/

namespace RecordCodec

namespace Scalar

/-- A scalar has an image for exactly the values that it admits. -/
theorem image_eq_ok_iff {scalar : Scalar} {value : Value} :
    (∃ bytes, scalar.image value = .ok bytes) ↔ scalar.Admits value := by
  have integer (isSigned : Bool) (width : WordWidth) :
      (∃ bytes, integerImage isSigned width.bytes value = .ok bytes) ↔
        ∃ number, value.integer? = some number ∧ fits isSigned width.bytes number = true := by
    cases known : value.integer? with
    | none => simp [integerImage_of_not_integer known]
    | some number =>
        rw [integerImage_eq width.positive width.atMostEight isSigned known]
        by_cases inRange : fits isSigned width.bytes number = true <;> simp [inRange]
  cases scalar with
  | unsigned width => simp [image, Admits, integer, fits]
  | signed width => simp [image, Admits, integer, fits]
  | single => cases value <;> simp [image, Admits]
  | double => cases value <;> simp [image, Admits]
  | bool => cases value <;> simp [image, Admits]
  | char =>
      cases value with
      | text text =>
          have admits : Admits .char (.text text) ↔ text.toUTF8.data.toList.length ≤ 1 := by
            simp [Admits]
          rw [admits]
          simp only [image, charImage]
          rcases text.toUTF8.data.toList with _ | ⟨first, _ | ⟨second, rest⟩⟩ <;> simp
      | unsigned number =>
          by_cases small : number.toNat < 256 <;> simp [image, charImage_unsigned, Admits, small]
      | _ => simp [image, charImage, Admits]

theorem length_of_image {scalar : Scalar} {value : Value} {bytes : List UInt8}
    (image : scalar.image value = .ok bytes) : bytes.length = scalar.width := by
  have integer {isSigned : Bool} {width : Nat}
      (image : integerImage isSigned width value = .ok bytes) : bytes.length = width := by
    obtain ⟨word, -, rfl⟩ := map_eq_ok.mp image
    exact BigEndian.length_bytes ..
  cases scalar with
  | unsigned width => exact integer image
  | signed width => exact integer image
  | single | double | bool =>
      cases value <;> simp [Scalar.image] at image
      all_goals simp [← image, width]
  | char =>
      simp only [Scalar.image, charImage] at image
      split at image
      · split at image <;> simp at image <;> simp [← image, width]
      · obtain ⟨-, -, written⟩ := bind_eq_ok.mp image
        obtain rfl := Except.ok.inj written
        rfl
      · cases image

/-- The bytes of a value that the scalar admits. -/
def bytes (scalar : Scalar) (value : Value) : List UInt8 :=
  match scalar.image value with
  | .ok bytes => bytes
  | .error _ => []

theorem image_eq_bytes {scalar : Scalar} {value : Value} (admits : scalar.Admits value) :
    scalar.image value = .ok (scalar.bytes value) := by
  obtain ⟨bytes, image⟩ := image_eq_ok_iff.mpr admits
  simp [Scalar.bytes, image]

theorem length_bytes {scalar : Scalar} {value : Value} (admits : scalar.Admits value) :
    (scalar.bytes value).length = scalar.width :=
  length_of_image (image_eq_bytes admits)

end Scalar

namespace ConstantSet

theorem valueOf_eq_ok_iff {set : ConstantSet} {name : String} :
    (∃ word, set.valueOf name = .ok word) ↔ set.Declares name := by
  unfold valueOf
  split
  · rename_i constant found
    have named : constant.name = name := by simpa using List.find?_some found
    simp only [Except.ok.injEq, exists_eq', true_iff]
    exact ⟨constant, List.mem_of_find?_eq_some found, named⟩
  · rename_i missing
    simpa [Declares] using List.find?_eq_none.mp missing

theorem combine_eq_ok_iff {set : ConstantSet} {names : List String} :
    (∃ word, set.combine names = .ok word) ↔ ∀ name ∈ names, set.Declares name := by
  unfold combine
  generalize (0 : UInt64) = start
  induction names generalizing start with
  | nil => simp [pure, Except.pure]
  | cons name rest ih =>
      simp only [List.foldlM_cons, bind_eq_ok, pure_eq_ok, List.forall_mem_cons]
      constructor
      · rintro ⟨word, middle, ⟨bits, value, -⟩, folded⟩
        exact ⟨valueOf_eq_ok_iff.mp ⟨bits, value⟩, (ih middle).mp ⟨word, folded⟩⟩
      · rintro ⟨declared, others⟩
        obtain ⟨bits, value⟩ := valueOf_eq_ok_iff.mpr declared
        obtain ⟨word, folded⟩ := (ih (start ||| bits)).mpr others
        exact ⟨word, start ||| bits, ⟨bits, value, rfl⟩, folded⟩

theorem constantWord_eq_ok_iff {set : ConstantSet} {value : Value} :
    (∃ word, set.constantWord value = .ok word) ↔ (Layout.enumeration set).Admits value := by
  cases value <;> simp [constantWord, Layout.Admits, valueOf_eq_ok_iff]

theorem flagsWord_eq_ok_iff {set : ConstantSet} {value : Value} :
    (∃ word, set.flagsWord value = .ok word) ↔ (Layout.flags set).Admits value := by
  cases value <;> simp [flagsWord, Layout.Admits, combine_eq_ok_iff]

/-- The bytes of the word of a constant or of flags that the set declares. -/
def bytes (set : ConstantSet) (word : Except Error UInt64) : List UInt8 :=
  match word with
  | .ok word => BigEndian.bytes set.width.bytes word
  | .error _ => []

end ConstantSet

/-- The image of an element with the zeros that fill its slot. -/
def slotImage (image : Value → List UInt8) (slot : Nat) (value : Value) : List UInt8 :=
  image value ++ List.replicate (slot - (image value).length) 0

/-- The image of a field: one element, a filled-up text, or elements one behind the other. -/
def fieldImage (image : Value → List UInt8) (element : Layout) (count : Option Nat)
    (value : Value) : List UInt8 :=
  match count, value with
  | none, value => slotImage image element.slotLength value
  | some count, .text text =>
      text.toUTF8.data.toList ++ List.replicate (count - text.utf8ByteSize) 0
  | some _, .array items => items.flatMap (slotImage image element.slotLength)
  | some _, _ => []

/-- The bytes in front of the record of a variant. -/
def Discriminator.header (tags : ConstantSet) (tag : UInt64) : Discriminator → List UInt8
  | .key _ => BigEndian.bytes tags.width.bytes tag
  | .path _ _ => []

mutual
/-- The bytes of a value that the layout admits. -/
def Layout.image : Layout → Value → List UInt8
  | .scalar _ scalar, value => scalar.bytes value
  | .enumeration constants, value => constants.bytes (constants.constantWord value)
  | .flags constants, value => constants.bytes (constants.flagsWord value)
  | .record layout, .record record => RecordLayout.image layout record
  | .union layout, .union _ variant payload => UnionLayout.image layout variant payload
  | _, _ => []
/-- The images of the declared fields in their order. -/
def RecordLayout.image : RecordLayout → RecordValue → List UInt8
  | ⟨_, fields, _⟩, record => FieldLayout.imageAll fields record
/-- The images of the fields one behind the other. -/
def FieldLayout.imageAll : List FieldLayout → RecordValue → List UInt8
  | [], _ => []
  | ⟨name, element, count, _, _⟩ :: rest, record =>
      fieldImage (fun value => Layout.image element value) element count
          ((record.get? name).getD default) ++ FieldLayout.imageAll rest record
/-- The header and the record of the selected variant. -/
def UnionLayout.image : UnionLayout → String → RecordValue → List UInt8
  | ⟨name, discriminator, discriminant, variants⟩, variant, payload =>
      VariantLayout.imageNamed variants ⟨name, discriminator, discriminant, []⟩ variant payload
/-- The header and the record of the first variant with a name. -/
def VariantLayout.imageNamed :
    List VariantLayout → UnionLayout → String → RecordValue → List UInt8
  | [], _, _, _ => []
  | ⟨name, tag, member⟩ :: rest, union, variant, payload =>
      if name = variant then
        union.discriminator.header union.tags tag ++ Layout.image member (.record payload)
      else VariantLayout.imageNamed rest union variant payload
end

theorem Layout.image_record {layout : RecordLayout} {record : RecordValue} :
    (Layout.record layout).image (.record record) = layout.image record := by
  simp [Layout.image]

theorem UnionLayout.Tagged.image_eq {union : UnionLayout} (tagged : union.Tagged)
    {variant : String} {payload : RecordValue} {selected : VariantLayout}
    (found : union.withName? variant = some selected) :
    union.image variant payload =
      union.discriminator.header union.tags selected.tag ++ selected.record.image payload := by
  rw [← Layout.image_record, ← tagged.recorded_of_withName? found]
  cases union with
  | mk name discriminator discriminant variants =>
      apply choice_eq_of_found
        (fun variants => VariantLayout.imageNamed variants
          ⟨name, discriminator, discriminant, []⟩ variant payload) _ found
      rintro ⟨name, tag, member⟩ rest
      rfl

theorem Discriminator.length_header (union : UnionLayout) (tag : UInt64) :
    (union.discriminator.header union.tags tag).length = union.headerLength := by
  unfold Discriminator.header UnionLayout.headerLength
  cases union.discriminator <;> simp

theorem slotLength_of_isChar {layout : Layout} (isChar : layout.isChar = true) :
    layout.slotLength = 1 := by
  unfold Layout.isChar at isChar
  split at isChar
  · rfl
  · cases isChar

theorem UnionLayout.headerLength_le (union : UnionLayout) : union.headerLength ≤ 8 := by
  unfold UnionLayout.headerLength
  cases union.discriminator with
  | key => exact union.tags.width.atMostEight
  | path => exact Nat.zero_le 8

/-- The slot of a union has room for its header and the longest of its records. -/
theorem UnionLayout.slotLength_le_iff {union : UnionLayout} {limit : Nat} :
    (Layout.union union).slotLength ≤ limit ↔
      union.headerLength ≤ limit ∧
        ∀ variant ∈ union.variants, union.headerLength + variant.record.length ≤ limit := by
  have greatest : (Layout.union union).slotLength = union.headerLength +
      (union.variants.map (fun variant => variant.record.length)).max?.getD 0 := by
    simp only [Layout.slotLength, Layout.lengthContract, UnionLayout.lengthContract]
    split <;> rfl
  rw [greatest]
  cases longest : (union.variants.map (fun variant => variant.record.length)).max? with
  | none =>
      rw [List.max?_eq_none_iff, List.map_eq_nil_iff] at longest
      simp [longest]
  | some length =>
      obtain ⟨attained, atMost⟩ := List.max?_eq_some_iff.mp longest
      rw [Option.getD_some]
      constructor
      · intro fits
        refine ⟨by omega, ?_⟩
        intro variant member
        have shorter := atMost _ (List.mem_map_of_mem member)
        omega
      · rintro ⟨-, each⟩
        obtain ⟨variant, member, rfl⟩ := List.mem_map.mp attained
        exact each variant member

theorem UnionLayout.length_le_slotLength {union : UnionLayout} {variant : VariantLayout}
    (member : variant ∈ union.variants) :
    union.headerLength + variant.record.length ≤ (Layout.union union).slotLength :=
  (UnionLayout.slotLength_le_iff.mp (Nat.le_refl _)).2 variant member

section Length

variable {image : Value → List UInt8} {element : Layout}

theorem length_slotImage {value : Value} (inside : (image value).length ≤ element.slotLength) :
    (slotImage image element.slotLength value).length = element.slotLength := by
  simp [slotImage]
  omega

/-- A field takes as many slots as it has elements. -/
theorem length_fieldImage {admits : Value → Prop} {count : Option Nat} {value : Value}
    (inside : ∀ value, admits value → (image value).length ≤ element.slotLength)
    (fits : FieldAdmits admits element count value) :
    (fieldImage image element count value).length = element.slotLength * count.getD 1 := by
  cases count with
  | none => simpa [fieldImage] using length_slotImage (inside value fits)
  | some count =>
      rcases fits with ⟨isChar, text, rfl, room⟩ | ⟨items, rfl, rfl, each⟩
      · simp [fieldImage, slotLength_of_isChar isChar]
        omega
      · have slots : items.map (fun item => (slotImage image element.slotLength item).length) =
            List.replicate items.length element.slotLength := by
          apply List.eq_replicate_iff.mpr
          simpa using fun item member => length_slotImage (inside item (each item member))
        simp [fieldImage, List.length_flatMap, slots, Nat.mul_comm]

end Length

/-- Every image of the layout has the announced length and fits into a slot. -/
def Layout.Measured (layout : Layout) : Prop :=
  ∀ value, layout.Admits value →
    layout.encodedLength value = .ok (layout.image value).length ∧
      (layout.image value).length ≤ layout.slotLength

theorem FieldLayout.length_imageAll {fields : List FieldLayout} {record : RecordValue}
    {start stop : Nat} (tile : FieldLayout.Tile fields start stop)
    (fits : FieldLayout.AdmitAll fields record)
    (elements : ∀ field ∈ fields, field.element.Measured) :
    start + (FieldLayout.imageAll fields record).length = stop := by
  induction fields generalizing start with
  | nil => simpa [FieldLayout.imageAll, FieldLayout.Tile] using tile
  | cons field rest ih =>
      cases field with
      | mk name element count offset length =>
          obtain ⟨-, sized, tile⟩ := tile
          obtain ⟨⟨value, found, fieldFits⟩, restFits⟩ := fits
          have inside := fun value admits => (elements _ List.mem_cons_self value admits).2
          have rest := ih tile restFits fun other member => elements other (by simp [member])
          simp only [FieldLayout.imageAll, found, Option.getD_some, List.length_append,
            length_fieldImage inside fieldFits]
          dsimp only at sized rest
          omega

theorem RecordLayout.length_image {layout : RecordLayout} (tiled : layout.Tiled)
    (elements : ∀ field ∈ layout.fields, field.element.Measured) {record : RecordValue}
    (admits : layout.Admits record) : (layout.image record).length = layout.length := by
  have tile := tiled.tile
  cases layout with
  | mk name fields length =>
      have total := FieldLayout.length_imageAll tile admits.2.2 elements
      simpa [RecordLayout.image] using total

/-- The image of an admitted value is as long as encoding announces. -/
theorem Layout.WellFormed.measured {layout : Layout} (wellFormed : layout.WellFormed) :
    layout.Measured := by
  have length_bytes (set : ConstantSet) {word : Except Error UInt64}
      (known : ∃ bits, word = .ok bits) : (set.bytes word).length = set.width.bytes := by
    obtain ⟨bits, rfl⟩ := known
    simp [ConstantSet.bytes]
  induction wellFormed with
  | scalar =>
      intro value admits
      have length := Scalar.length_bytes admits
      exact ⟨congrArg Except.ok length.symm, Nat.le_of_eq length⟩
  | @enumeration constants _ =>
      intro value admits
      have length := length_bytes constants (ConstantSet.constantWord_eq_ok_iff.mpr admits)
      exact ⟨congrArg Except.ok length.symm, Nat.le_of_eq length⟩
  | @flags constants _ =>
      intro value admits
      have length := length_bytes constants (ConstantSet.flagsWord_eq_ok_iff.mpr admits)
      exact ⟨congrArg Except.ok length.symm, Nat.le_of_eq length⟩
  | record tiled _ elements =>
      rintro _ ⟨record, rfl, admits⟩
      rw [Layout.image_record]
      have length := RecordLayout.length_image tiled elements admits
      exact ⟨congrArg Except.ok length.symm, Nat.le_of_eq length⟩
  | @union union tagged wellFormed records =>
      rintro _ ⟨variant, payload, rfl, -, fits⟩
      obtain ⟨selected, member, rfl, admits⟩ := tagged.exists_admits_iff.mp fits
      have found := tagged.withName?_eq_some.mpr ⟨member, rfl⟩
      have payloadLength : (selected.record.image payload).length = selected.record.length := by
        have announced := (records selected member _ (Layout.admits_record.mpr admits)).1
        simpa [Layout.encodedLength, Layout.slotLength, Layout.lengthContract,
          LengthContract.greatest, Layout.image_record, eq_comm] using announced
      have length : ((Layout.union union).image (.union union.name selected.name payload)).length =
          union.headerLength + selected.record.length := by
        simp [Layout.image, tagged.image_eq found, Discriminator.length_header, payloadLength]
      rw [length]
      refine ⟨?_, UnionLayout.length_le_slotLength member⟩
      simp [Layout.encodedLength, found]

end RecordCodec
