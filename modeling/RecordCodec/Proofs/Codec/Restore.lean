import RecordCodec.Proofs.Codec.Decode
import RecordCodec.Proofs.Codec.Flags
import RecordCodec.Proofs.Codec.Scalar
import RecordCodec.Proofs.Codec.TextField
import RecordCodec.Proofs.Value.Equality

/-!
# Reading an image

`Layout.restore` says what is read from the image of a value: the same value
with its fields in their declared order, integers with the signedness of their
type, and characters, texts and flags as far as their bytes tell them apart.
Wherever the image lies in a buffer, reading gives exactly that, also when the
padding is tested, because the image fills its slots with zeros.
-/

namespace RecordCodec

/-- What is read from the bytes of a field with a value. -/
def restoreField (asText : Bool) (restore : Value → Value) (element : Layout)
    (count : Option Nat) (bytes : List UInt8) (value : Value) : Value :=
  match count with
  | none => restore value
  | some _ =>
      if element.isChar then
        if asText then TextField.ofBytes (Buffer.ofList bytes)
        else TextField.numbers (Buffer.ofList bytes)
      else
        match value with
        | .array items => .array (items.map restore)
        | value => value

mutual
/-- What is read from the image of a value. -/
def Layout.restore (asText : Bool) : Layout → Value → Value
  | .scalar _ scalar, value => scalar.fromWord asText (BigEndian.word (scalar.bytes value))
  | .flags constants, value =>
      .flags (constants.contained (BigEndian.word (constants.bytes (constants.flagsWord value))))
  | .record layout, .record record => .record (RecordLayout.restore asText layout record)
  | .union layout, .union type variant payload =>
      .union type variant (UnionLayout.restore asText layout variant payload)
  | _, value => value
/-- The declared fields in their order, each as it is read. -/
def RecordLayout.restore (asText : Bool) : RecordLayout → RecordValue → RecordValue
  | ⟨name, fields, _⟩, record => ⟨name, FieldLayout.restoreAll asText fields record⟩
/-- Each of the fields as it is read. -/
def FieldLayout.restoreAll (asText : Bool) : List FieldLayout → RecordValue → List FieldValue
  | [], _ => []
  | ⟨name, element, count, _, _⟩ :: rest, record =>
      let value := (record.get? name).getD default
      ⟨name, restoreField asText (fun value => Layout.restore asText element value) element count
        (fieldImage element.image element count value) value⟩ ::
        FieldLayout.restoreAll asText rest record
/-- The record of the selected variant as it is read. -/
def UnionLayout.restore (asText : Bool) : UnionLayout → String → RecordValue → RecordValue
  | ⟨_, _, _, variants⟩, variant, payload =>
      VariantLayout.restoreNamed asText variants variant payload
/-- The record of the first variant with a name as it is read. -/
def VariantLayout.restoreNamed (asText : Bool) :
    List VariantLayout → String → RecordValue → RecordValue
  | [], _, payload => payload
  | ⟨name, _, member⟩ :: rest, variant, payload =>
      if name = variant then (Layout.restore asText member (.record payload)).record?.getD payload
      else VariantLayout.restoreNamed asText rest variant payload
end

theorem UnionLayout.Tagged.restore_eq {asText : Bool} {union : UnionLayout}
    (tagged : union.Tagged) {variant : String} {payload : RecordValue} {selected : VariantLayout}
    (found : union.withName? variant = some selected) :
    union.restore asText variant payload = selected.record.restore asText payload := by
  have recorded : selected.record.restore asText payload =
      (selected.member.restore asText (.record payload)).record?.getD payload := by
    rw [tagged.recorded_of_withName? found, Layout.restore]
    rfl
  rw [recorded]
  cases union with
  | mk name discriminator discriminant variants =>
      apply choice_eq_of_found
        (fun variants => VariantLayout.restoreNamed asText variants variant payload) _ found
      rintro ⟨name, tag, member⟩ rest
      rfl

namespace ConstantSet

variable {set : ConstantSet} {constant : Constant} {buffer : Buffer} {offset : Nat}

theorem bytes_constantWord (distinct : set.WellFormed) (member : constant ∈ set.constants) :
    set.bytes (set.constantWord (.constant constant.name)) =
      BigEndian.bytes set.width.bytes constant.value := by
  have found := distinct.withName?_eq_some.mpr ⟨member, rfl⟩
  simp [constantWord, valueOf, found, ConstantSet.bytes]

/-- A constant is read from where its word lies. -/
theorem read_of_holds (distinct : set.WellFormed) (member : constant ∈ set.constants)
    (holds : buffer.Holds offset (BigEndian.bytes set.width.bytes constant.value)) :
    set.read buffer offset = .ok constant := by
  have word := holds.readWord_eq
  rw [BigEndian.length_bytes,
    BigEndian.word_bytes set.width.atMostEight (distinct.fits constant member)] at word
  exact (ConstantSet.read_eq_ok_iff distinct).mpr ⟨member, word⟩

end ConstantSet

/-- From wherever the image of a value lies, the value is read as restored. -/
def Layout.Readable (options : DecodeOptions) (buffer : Buffer) (layout : Layout) : Prop :=
  ∀ value, layout.Admits value → value.Held →
    ∀ offset, buffer.Holds offset (layout.image value) →
    layout.read options buffer offset =
      .ok (layout.restore options.charsAsText value, (layout.image value).length)

section Field

variable {options : DecodeOptions} {buffer : Buffer} {offset : Nat} {element : Layout}
  (readable : element.Readable options buffer)

include readable

theorem readSlot_eq {value : Value} (admits : element.Admits value) (held : value.Held)
    (holds : buffer.Holds offset (slotImage element.image element.slotLength value)) :
    readSlot options buffer (element.read options buffer) element offset =
      .ok (element.restore options.charsAsText value) := by
  have padding := holds.right.toList_slice_eq
  rw [List.length_replicate] at padding
  rw [readSlot_eq_ok_iff]
  refine ⟨_, readable value admits held offset holds.left, fun _ => ?_⟩
  simp [firstNonZero?, padding]

theorem readElements_eq {items : List Value} (admits : ∀ item ∈ items, element.Admits item)
    (held : ∀ item ∈ items, item.Held) (lengths : ∀ item ∈ items,
      (slotImage element.image element.slotLength item).length = element.slotLength)
    (holds : buffer.Holds offset (items.flatMap (slotImage element.image element.slotLength))) :
    (List.range items.length).mapM (fun index => readSlot options buffer
        (element.read options buffer) element (offset + index * element.slotLength)) =
      .ok (items.map (element.restore options.charsAsText)) := by
  rw [mapM_eq_ok, List.forall₂_iff_get]
  refine ⟨by simp, fun index inRange inItems => ?_⟩
  have inside : index < items.length := by simpa using inRange
  have member := List.getElem_mem inside
  simp only [List.get_eq_getElem, List.getElem_range, List.getElem_map]
  exact readSlot_eq readable (admits _ member) (held _ member) (holds.flatMap lengths index inside)

theorem readField_eq {count : Option Nat} {value : Value} (measured : element.Measured)
    (fits : FieldAdmits element.Admits element count value) (held : value.Held)
    (holds : buffer.Holds offset (fieldImage element.image element count value)) :
    readField options buffer (element.read options buffer) element count offset =
      .ok (restoreField options.charsAsText (element.restore options.charsAsText) element count
        (fieldImage element.image element count value) value) := by
  have inside := fun value admits => (measured value admits).2
  cases count with
  | none => exact readSlot_eq readable fits held holds
  | some count =>
      simp only [readField, restoreField]
      cases isChar : element.isChar with
      | true =>
          have length := length_fieldImage inside fits
          rw [slotLength_of_isChar isChar] at length
          have run := holds.read_eq
          rw [length, Option.getD_some, Nat.one_mul] at run
          cases options.charsAsText <;>
            simp [TextField.read, TextField.readNumbers, run]
      | false =>
          rcases fits with ⟨text, -⟩ | ⟨items, rfl, rfl, each⟩
          · rw [isChar] at text
            cases text
          · have lengths := fun item member => length_slotImage (inside item (each item member))
            obtain ⟨short, itemsHeld⟩ := Value.held_array.mp held
            have read := readElements_eq readable each itemsHeld lengths holds
            simp [reserveItems, short, read]

end Field

namespace FieldLayout

variable {options : DecodeOptions} {buffer : Buffer} {fields : List FieldLayout}
  {record : RecordValue} {start stop offset : Nat}

theorem restoreAll_eq_map {asText : Bool} :
    FieldLayout.restoreAll asText fields record = fields.map fun field =>
      ⟨field.name, restoreField asText (field.element.restore asText) field.element field.count
        (fieldImage field.element.image field.element field.count
          ((record.get? field.name).getD default)) ((record.get? field.name).getD default)⟩ := by
  induction fields with
  | nil => rfl
  | cons field rest ih =>
      cases field
      simp [FieldLayout.restoreAll, ih]

/-- In the image of a record, the image of each field lies at the offset of the field. -/
theorem holds_field (tile : FieldLayout.Tile fields start stop)
    (fits : FieldLayout.AdmitAll fields record)
    (measured : ∀ field ∈ fields, field.element.Measured)
    (holds : buffer.Holds (offset + start) (FieldLayout.imageAll fields record))
    {field : FieldLayout} (member : field ∈ fields) {value : Value}
    (found : record.get? field.name = some value) :
    buffer.Holds (offset + field.offset)
      (fieldImage field.element.image field.element field.count value) := by
  induction fields generalizing start with
  | nil => cases member
  | cons first rest ih =>
      cases first with
      | mk name element count fieldOffset length =>
          obtain ⟨placed, sized, tile⟩ := tile
          obtain ⟨⟨firstValue, firstFound, firstFits⟩, restFits⟩ := fits
          simp only at placed sized
          subst placed sized
          simp only [FieldLayout.imageAll, firstFound, Option.getD_some] at holds
          rcases List.mem_cons.mp member with rfl | inRest
          · obtain rfl := Option.some.inj (firstFound.symm.trans found)
            exact holds.left
          · have inside := fun value admits => (measured _ List.mem_cons_self value admits).2
            have behind := holds.right
            rw [length_fieldImage inside firstFits, Nat.add_assoc] at behind
            exact ih tile restFits (fun other member => measured other (by simp [member])) behind
              inRest

theorem readAll_eq (tile : FieldLayout.Tile fields start stop)
    (fits : FieldLayout.AdmitAll fields record) (held : (Value.record record).Held)
    (measured : ∀ field ∈ fields, field.element.Measured)
    (readable : ∀ field ∈ fields, field.element.Readable options buffer)
    (holds : buffer.Holds (offset + start) (FieldLayout.imageAll fields record)) :
    FieldLayout.readAll options buffer fields offset =
      .ok (FieldLayout.restoreAll options.charsAsText fields record) := by
  rw [FieldLayout.readAll_eq_ok_iff, restoreAll_eq_map, List.forall₂_map_right_iff,
    List.forall₂_same]
  intro field member
  obtain ⟨value, found, fieldFits⟩ := FieldLayout.admitAll_iff.mp fits field member
  have lies := holds_field tile fits measured holds member found
  refine ⟨rfl, ?_⟩
  simp only [found, Option.getD_some]
  have fieldHeld := RecordValue.held_iff.mp held _ (RecordValue.mem_of_get? found)
  exact readField_eq (readable field member) (measured field member) fieldFits fieldHeld lies

end FieldLayout

namespace RecordLayout

variable {buffer : Buffer} {offset : Nat}

theorem holds_field {layout : RecordLayout} (wellFormed : (Layout.record layout).WellFormed)
    {record : RecordValue} (admits : layout.Admits record)
    (holds : buffer.Holds offset (layout.image record)) {field : FieldLayout}
    (member : field ∈ layout.fields) {value : Value} (found : record.get? field.name = some value) :
    buffer.Holds (offset + field.offset)
      (fieldImage field.element.image field.element field.count value) := by
  have tiled := wellFormed.tiled
  have measured : ∀ field ∈ layout.fields, field.element.Measured :=
    fun field member => (wellFormed.element member).measured
  cases layout with
  | mk name fields length =>
      exact FieldLayout.holds_field tiled.tile admits.2.2 measured holds member found

/-- In the image of a record, the word of its embedded tag lies where the path leads. -/
theorem Leads.holds_tag {record : RecordLayout} {path : List String} {tags : ConstantSet}
    {tagOffset : Nat} (leads : record.Leads path tags tagOffset)
    (wellFormed : (Layout.record record).WellFormed) {payload : RecordValue}
    (admits : record.Admits payload) {constant : Constant} (member : constant ∈ tags.constants)
    (tag : payload.tagAt? path = some constant.name)
    (holds : buffer.Holds offset (record.image payload)) :
    buffer.Holds (offset + tagOffset) (BigEndian.bytes tags.width.bytes constant.value) := by
  induction leads generalizing payload offset with
  | @here record field tags among plain shape =>
      have found := RecordValue.tagAt?_singleton.mp tag
      have lies := holds_field wellFormed admits holds among found
      have distinct := (RecordLayout.Leads.here among plain shape).wellFormed wellFormed
      simp only [plain, fieldImage, shape, slotImage, Layout.image] at lies
      rw [ConstantSet.bytes_constantWord distinct member] at lies
      exact lies.left
  | @through record inner field path tags inside among plain shape deeper ih =>
      obtain ⟨innerPayload, found, innerTag⟩ := (RecordValue.tagAt?_cons deeper.ne_nil).mp tag
      have lies := holds_field wellFormed admits holds among found
      simp only [plain, fieldImage, shape, slotImage, Layout.image_record] at lies
      have innerAdmits := admits.field among found
      rw [plain, shape] at innerAdmits
      rw [← Nat.add_assoc]
      exact ih (wellFormed.inner among shape) (Layout.admits_record.mp innerAdmits) member innerTag
        lies.left

end RecordLayout

/-- In the image of a value of a union, the word of its tag lies where reading looks for it. -/
theorem UnionLayout.Tagged.holds_tag {union : UnionLayout} (tagged : union.Tagged)
    (records : ∀ variant ∈ union.variants, (Layout.record variant.record).WellFormed)
    {selected : VariantLayout} (member : selected ∈ union.variants) {payload : RecordValue}
    (agrees : union.discriminator.Agrees selected.name payload)
    (admits : selected.record.Admits payload) {buffer : Buffer} {offset : Nat}
    (holds : buffer.Holds offset (union.discriminator.header union.tags selected.tag ++
      selected.record.image payload)) :
    buffer.Holds (offset + union.tagOffset)
      (BigEndian.bytes union.tags.width.bytes selected.tag) := by
  cases shape : union.discriminator with
  | key key =>
      simp only [shape, Discriminator.header] at holds
      simpa [UnionLayout.tagOffset, shape] using holds.left
  | path path tagOffset =>
      simp only [shape, Discriminator.header, List.nil_append] at holds
      rw [shape] at agrees
      have lies := (tagged.leads member shape).holds_tag (records selected member) admits
        (tagged.selected selected member) agrees holds
      simpa [UnionLayout.tagOffset, shape] using lies

section Readable

variable {options : DecodeOptions} {buffer : Buffer}

theorem RecordLayout.readable {record : RecordLayout} (tiled : record.Tiled)
    (measured : ∀ field ∈ record.fields, field.element.Measured)
    (readable : ∀ field ∈ record.fields, field.element.Readable options buffer) :
    (Layout.record record).Readable options buffer := by
  rintro _ ⟨payload, rfl, admits⟩ held offset holds
  have length := RecordLayout.length_image tiled measured admits
  rw [Layout.image_record] at holds ⊢
  have room := holds.room
  have read : RecordLayout.read options buffer record offset =
      .ok (record.restore options.charsAsText payload) := by
    rw [RecordLayout.read_eq_ok_iff, ← length]
    have tile := tiled.tile
    cases record with
    | mk name fields total =>
        exact ⟨room, rfl, FieldLayout.readAll_eq tile admits.2.2 held measured readable holds⟩
  simp [Layout.read, read, Layout.restore, length]

theorem UnionLayout.readable (small : buffer.size < 2 ^ 64) {union : UnionLayout}
    (tagged : union.Tagged)
    (records : ∀ variant ∈ union.variants, (Layout.record variant.record).WellFormed)
    (readable : ∀ variant ∈ union.variants,
      (Layout.record variant.record).Readable options buffer) :
    (Layout.union union).Readable options buffer := by
  rintro _ ⟨variant, payload, rfl, agrees, fits⟩ held offset holds
  obtain ⟨selected, member, rfl, admits⟩ := tagged.exists_admits_iff.mp fits
  have found := tagged.withName?_eq_some.mpr ⟨member, rfl⟩
  simp only [Layout.image, tagged.image_eq found] at holds
  have tag := tagged.holds_tag records member agrees admits holds
  have payloadHolds := holds.right
  rw [Discriminator.length_header] at payloadHolds
  have tagRead : union.readTag buffer offset = .ok ⟨selected.name, selected.tag⟩ := by
    have room := tag.room
    rw [tagged.readTag_eq (by omega)]
    exact ConstantSet.read_of_holds tagged.tags (tagged.selected selected member) tag
  have payloadRead : RecordLayout.read options buffer selected.record
      (offset + union.headerLength) =
        .ok (selected.record.restore options.charsAsText payload) := by
    have read := readable selected member _ (Layout.admits_record.mpr admits)
      (Value.held_union.mp held) _ (by rwa [Layout.image_record])
    rw [Layout.read_record_eq_ok_iff] at read
    obtain ⟨record, read, restored, -⟩ := read
    rw [Layout.restore, Value.record.injEq] at restored
    rw [read, restored]
  have measured := (Layout.WellFormed.union tagged records).measured _
    ⟨selected.name, payload, rfl, agrees, fits⟩
  simp only [Layout.read, Layout.restore]
  rw [UnionLayout.read_eq_ok_iff tagged, tagged.restore_eq found]
  refine ⟨selected, member, _, tagRead, payloadRead, rfl, ?_⟩
  simpa [Layout.encodedLength, found, eq_comm] using measured.1

end Readable

/-- Reading from an image is described by restoring, for every type of a resolved schema. -/
theorem Layout.WellFormed.readable {layout : Layout} (wellFormed : layout.WellFormed)
    (options : DecodeOptions) {buffer : Buffer} (small : buffer.size < 2 ^ 64) :
    layout.Readable options buffer := by
  induction wellFormed with
  | @scalar name scalar =>
      intro value admits held offset holds
      have length := Scalar.length_bytes admits
      have word := holds.readWord_eq
      simp only [Layout.image, length] at word ⊢
      simp [Layout.read, Scalar.readScalar_eq, word, Layout.restore]
  | @enumeration constants distinct =>
      rintro _ ⟨_, rfl, constant, member, rfl⟩ held offset holds
      simp only [Layout.image, ConstantSet.bytes_constantWord distinct member] at holds ⊢
      have read := ConstantSet.read_of_holds distinct member holds
      simp [Layout.read, read, Layout.restore]
  | @flags constants distinct =>
      rintro _ ⟨names, rfl, declared⟩ held offset holds
      obtain ⟨word, combined⟩ := ConstantSet.combine_eq_ok_iff.mpr declared
      have image : (Layout.flags constants).image (.flags names) =
          BigEndian.bytes constants.width.bytes word := ConstantSet.bytes_flagsWord combined
      rw [image] at holds ⊢
      rw [ConstantSet.read_combined distinct combined holds, Layout.restore,
        ConstantSet.word_bytes_flagsWord distinct combined, BigEndian.length_bytes]
  | record tiled elements readable =>
      exact RecordLayout.readable tiled (fun field member => (elements field member).measured)
        readable
  | union tagged records readable => exact UnionLayout.readable small tagged records readable

end RecordCodec
