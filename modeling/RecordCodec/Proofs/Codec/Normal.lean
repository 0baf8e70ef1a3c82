import RecordCodec.Proofs.Codec.CharArray
import RecordCodec.Proofs.Codec.RoundTrip

/-!
# Reading without loss

Strict reading ignores some of the bytes that it reads: all of a truth value
but whether it is zero, flags that no constant names completely, and whatever
stands behind the end of a text.  Where these are as writing would give them,
the bytes are normal, and writing what was read gives them back exactly.
-/

namespace RecordCodec

/-- The constants of a set whose bits are all in a word. -/
def ConstantSet.within (set : ConstantSet) (word : UInt64) : ConstantSet :=
  { set with constants := set.constants.filter fun constant =>
      word &&& constant.value == constant.value }

/-- The word at an offset, if there is one, passes a test. -/
def Buffer.wordPasses (buffer : Buffer) (offset width : Nat) (test : UInt64 → Bool) : Bool :=
  match buffer.readWord offset width with
  | .ok word => test word
  | .error _ => true

/-- There are only zeros from the first zero on, unless the bytes are no text. -/
def TextField.isFilled (bytes : Buffer) : Bool :=
  match Utf8.decode? (beforeZero bytes) with
  | some _ => (bytes.toList.dropWhile (· != 0)).all (· == 0)
  | none => true

/-- One normal element, a filled-up text, or an array of normal elements.  The
bytes of characters that are not read as a text are always normal. -/
def normalField (asText : Bool) (buffer : Buffer) (normalElement : Nat → Bool)
    (element : Layout) (count : Option Nat) (offset : Nat) : Bool :=
  match count with
  | none => normalElement offset
  | some count =>
      if element.isChar then !asText || TextField.isFilled (buffer.slice offset count)
      else (List.range count).all fun index => normalElement (offset + index * element.slotLength)

mutual
/-- The bytes from an offset on are normal: each truth value is zero or one,
each word of flags is made of flags inside it, and texts are filled with zeros. -/
def Layout.isNormal (asText : Bool) (buffer : Buffer) : Layout → Nat → Bool
  | .scalar _ scalar, offset => scalar != .bool || buffer.wordPasses offset 1 (· ≤ 1)
  | .enumeration _, _ => true
  | .flags constants, offset =>
      buffer.wordPasses offset constants.width.bytes fun word =>
        (constants.within word).mask == word
  | .record layout, offset => RecordLayout.isNormal asText buffer layout offset
  | .union layout, offset => UnionLayout.isNormal asText buffer layout offset
def RecordLayout.isNormal (asText : Bool) (buffer : Buffer) : RecordLayout → Nat → Bool
  | ⟨_, fields, _⟩, offset => FieldLayout.allNormal asText buffer fields offset
/-- The bytes of the fields of a record that begins at an offset are normal. -/
def FieldLayout.allNormal (asText : Bool) (buffer : Buffer) : List FieldLayout → Nat → Bool
  | [], _ => true
  | ⟨_, element, count, fieldOffset, _⟩ :: rest, offset =>
      normalField asText buffer (fun offset => Layout.isNormal asText buffer element offset)
          element count (offset + fieldOffset) &&
        FieldLayout.allNormal asText buffer rest offset
/-- The bytes of the record that the tag selects are normal. -/
def UnionLayout.isNormal (asText : Bool) (buffer : Buffer) : UnionLayout → Nat → Bool
  | ⟨name, discriminator, discriminant, variants⟩, offset =>
      let union : UnionLayout := ⟨name, discriminator, discriminant, []⟩
      buffer.wordPasses (offset + union.tagOffset) union.tags.width.bytes fun tag =>
        VariantLayout.normalTagged asText buffer variants union tag offset
/-- The bytes of the record of the first variant with a tag are normal. -/
def VariantLayout.normalTagged (asText : Bool) (buffer : Buffer) :
    List VariantLayout → UnionLayout → UInt64 → Nat → Bool
  | [], _, _, _ => true
  | ⟨_, ownTag, member⟩ :: rest, union, tag, offset =>
      if ownTag = tag then Layout.isNormal asText buffer member (offset + union.headerLength)
      else VariantLayout.normalTagged asText buffer rest union tag offset
end

section Parts

variable {asText : Bool} {buffer : Buffer} {offset : Nat}

theorem Buffer.passes_of_wordPasses {width : Nat} {test : UInt64 → Bool} {word : UInt64}
    (passes : buffer.wordPasses offset width test = true)
    (read : buffer.readWord offset width = .ok word) : test word = true := by
  rwa [wordPasses, read] at passes

theorem RecordLayout.normalField_of_isNormal {layout : RecordLayout}
    (normal : layout.isNormal asText buffer offset = true) {field : FieldLayout}
    (member : field ∈ layout.fields) :
    normalField asText buffer (field.element.isNormal asText buffer) field.element field.count
      (offset + field.offset) = true := by
  cases layout with
  | mk name fields length =>
      simp only [RecordLayout.isNormal] at normal
      induction fields with
      | nil => cases member
      | cons first rest ih =>
          cases first with
          | mk firstName element count firstOffset firstLength =>
              simp only [FieldLayout.allNormal, Bool.and_eq_true] at normal
              rcases List.mem_cons.mp member with rfl | inRest
              · exact normal.1
              · exact ih normal.2 inRest

theorem VariantLayout.normalTagged_eq {variants : List VariantLayout} {union : UnionLayout}
    {tag : UInt64} {selected : VariantLayout}
    (found : variants.find? (fun other => other.tag == tag) = some selected) :
    VariantLayout.normalTagged asText buffer variants union tag offset =
      selected.member.isNormal asText buffer (offset + union.headerLength) := by
  apply choice_eq_of_found
    (fun variants => VariantLayout.normalTagged asText buffer variants union tag offset) _ found
  rintro ⟨name, ownTag, member⟩ rest
  rfl

theorem UnionLayout.isNormal_selected {union : UnionLayout} (tagged : union.Tagged)
    (normal : union.isNormal asText buffer offset = true) {selected : VariantLayout}
    (member : selected ∈ union.variants)
    (tag : buffer.readWord (offset + union.tagOffset) union.tags.width.bytes = .ok selected.tag) :
    selected.record.isNormal asText buffer (offset + union.headerLength) = true := by
  have found := tagged.withTag?_eq_some.mpr ⟨member, rfl⟩
  have recorded := tagged.recorded selected member
  cases union with
  | mk name discriminator discriminant variants =>
      simp only [UnionLayout.isNormal] at normal
      have chosen := Buffer.passes_of_wordPasses normal tag
      rwa [VariantLayout.normalTagged_eq found, recorded, Layout.isNormal] at chosen

end Parts

namespace ConstantSet

variable {set : ConstantSet} {word : UInt64}

theorem mem_within {constant : Constant} :
    constant ∈ (set.within word).constants ↔
      constant ∈ set.constants ∧ word &&& constant.value = constant.value := by
  simp [within]

/-- The flags inside a word have the bits of all constants inside it. -/
theorem joined_inside (set : ConstantSet) (word : UInt64) :
    Constant.joined (set.inside word) = (set.within word).mask := by
  apply eq_of_bitAt_eq
  intro position
  rw [Bool.eq_iff_iff, Constant.bitAt_joined, bitAt_mask]
  constructor
  · rintro ⟨constant, among, bit⟩
    obtain ⟨declared, -, covered⟩ := mem_inside.mp among
    exact ⟨constant, mem_within.mpr ⟨declared, covered⟩, bit⟩
  · rintro ⟨constant, among, bit⟩
    obtain ⟨declared, covered⟩ := mem_within.mp among
    have nonzero : constant.value ≠ 0 := by
      intro zero
      simp [zero] at bit
    exact ⟨constant, mem_inside.mpr ⟨declared, nonzero, covered⟩, bit⟩

end ConstantSet

theorem TextField.cleared_of_isFilled {bytes : Buffer} (filled : isFilled bytes = true) :
    cleared bytes = bytes.toList := by
  rw [cleared_eq_iff]
  unfold isFilled at filled
  split at filled
  · exact .inr (by simpa using filled)
  · rename_i noText
    exact .inl (decode?_eq_none_iff.mp noText)

/-- Strict reading of normal bytes gives a value of which they are the image. -/
def Layout.Kept (asText : Bool) (buffer : Buffer) (layout : Layout) : Prop :=
  ∀ offset value used, layout.read ⟨true, asText⟩ buffer offset = .ok (value, used) →
    layout.isNormal asText buffer offset = true → buffer.Holds offset (layout.image value)

theorem toList_eq_replicate_of_firstNonZero? {bytes : Buffer} {offset : Nat}
    (clean : firstNonZero? bytes offset = none) :
    bytes.toList = List.replicate bytes.size 0 := by
  simp only [firstNonZero?, Option.map_eq_none_iff, List.findIdx?_eq_none_iff] at clean
  exact List.eq_replicate_iff.mpr ⟨rfl, by simpa using clean⟩

section Field

variable {asText : Bool} {buffer : Buffer} {offset : Nat} {element : Layout}

theorem holds_fieldImage_of_readChars (isChar : element.isChar = true) {count : Nat}
    {value : Value}
    (read : readField ⟨true, asText⟩ buffer (element.read ⟨true, asText⟩ buffer) element
      (some count) offset = .ok value)
    (normal : normalField asText buffer (element.isNormal asText buffer) element (some count)
      offset = true) :
    buffer.Holds offset (fieldImage element.image element (some count) value) := by
  simp only [readField, isChar, if_true] at read
  simp only [normalField, isChar, if_true, Bool.or_eq_true, Bool.not_eq_true'] at normal
  cases asText with
  | true =>
      simp only [if_true, TextField.read, bind_eq_ok, pure_eq_ok] at read
      obtain ⟨bytes, run, rfl⟩ := read
      obtain ⟨rfl, holds⟩ := Buffer.holds_of_read run
      have same : buffer.slice offset bytes.size = bytes := Buffer.ext holds.toList_slice_eq
      rw [same] at normal
      rw [TextField.fieldImage_ofBytes isChar,
        TextField.cleared_of_isFilled (by simpa using normal)]
      exact holds
  | false =>
      simp only [Bool.false_eq_true, if_false, TextField.readNumbers, bind_eq_ok, pure_eq_ok]
        at read
      obtain ⟨bytes, run, rfl⟩ := read
      obtain ⟨-, holds⟩ := Buffer.holds_of_read run
      rw [fieldImage_numbers isChar]
      exact holds

variable (wellFormed : element.WellFormed) (kept : element.Kept asText buffer)

include wellFormed kept

theorem holds_slotImage_of_readSlot {value : Value}
    (room : offset + element.slotLength ≤ buffer.size)
    (read : readSlot ⟨true, asText⟩ buffer (element.read ⟨true, asText⟩ buffer) element offset =
      .ok value)
    (normal : element.isNormal asText buffer offset = true) :
    buffer.Holds offset (slotImage element.image element.slotLength value) := by
  obtain ⟨used, read, clean⟩ := readSlot_eq_ok_iff.mp read
  obtain ⟨admits, announced, -⟩ := wellFormed.settles _ offset value used read
  obtain rfl := wellFormed.length_image admits announced
  have inside := (wellFormed.measured value admits).2
  have roomBehind : offset + (element.image value).length +
      (element.slotLength - (element.image value).length) ≤ buffer.size := by
    omega
  have behind := Buffer.holds_slice roomBehind
  rw [toList_eq_replicate_of_firstNonZero? (clean rfl), Buffer.size_slice roomBehind] at behind
  exact (kept offset value _ read normal).append behind

theorem holds_fieldImage_of_readField {count : Option Nat} {value : Value}
    (room : offset + element.slotLength * count.getD 1 ≤ buffer.size)
    (read : readField ⟨true, asText⟩ buffer (element.read ⟨true, asText⟩ buffer) element count
      offset = .ok value)
    (normal : normalField asText buffer (element.isNormal asText buffer) element count offset =
      true) :
    buffer.Holds offset (fieldImage element.image element count value) := by
  cases count with
  | none =>
      rw [Option.getD_none, Nat.mul_one] at room
      exact holds_slotImage_of_readSlot wellFormed kept room read normal
  | some count =>
      cases isChar : element.isChar with
      | true => exact holds_fieldImage_of_readChars isChar read normal
      | false =>
          obtain ⟨fits, -⟩ := settles_of_readField (wellFormed.settles _) read
          simp only [readField, isChar, Bool.false_eq_true, if_false, bind_eq_ok, pure_eq_ok,
            mapM_eq_ok] at read
          obtain ⟨-, -, items, read, rfl⟩ := read
          simp only [normalField, isChar, Bool.false_eq_true, if_false, List.all_eq_true,
            List.mem_range] at normal
          obtain ⟨length, each⟩ := List.forall₂_iff_get.mp read
          rw [List.length_range] at length
          subst length
          have admits : ∀ item ∈ items, element.Admits item := by
            rcases fits with ⟨text, -⟩ | ⟨_, ⟨rfl⟩, -, admits⟩
            · rw [isChar] at text
              cases text
            · exact admits
          refine .of_flatMap (by omega) (fun item member =>
            length_slotImage (wellFormed.measured item (admits item member)).2) ?_
          intro index bound
          have slotRead := each index (by simpa using bound) bound
          simp only [List.get_eq_getElem, List.getElem_range] at slotRead
          refine holds_slotImage_of_readSlot wellFormed kept ?_ slotRead (normal index bound)
          have slots := Nat.mul_le_mul_right element.slotLength (Nat.succ_le_of_lt bound)
          rw [Nat.succ_mul, Nat.mul_comm items.length] at slots
          rw [Option.getD_some] at room
          omega

end Field

/-- Where the images of all fields lie at the offsets of the fields, the image of
the record lies. -/
theorem FieldLayout.holds_imageAll {buffer : Buffer} {offset : Nat} {fields : List FieldLayout}
    {record : RecordValue} {start stop : Nat} (tile : FieldLayout.Tile fields start stop)
    (room : offset + stop ≤ buffer.size) (fits : FieldLayout.AdmitAll fields record)
    (measured : ∀ field ∈ fields, field.element.Measured)
    (each : ∀ field ∈ fields, ∀ value, record.get? field.name = some value →
      buffer.Holds (offset + field.offset)
        (fieldImage field.element.image field.element field.count value)) :
    buffer.Holds (offset + start) (FieldLayout.imageAll fields record) := by
  induction fields generalizing start with
  | nil =>
      obtain rfl : start = stop := tile
      exact .empty room
  | cons field rest ih =>
      cases field with
      | mk name element count fieldOffset length =>
          obtain ⟨placed, sized, tile⟩ := tile
          obtain ⟨⟨value, found, fieldFits⟩, restFits⟩ := fits
          have inside := fun value admits => (measured _ List.mem_cons_self value admits).2
          have first := each _ List.mem_cons_self value found
          have others := ih tile restFits (fun other member => measured other (by simp [member]))
            (fun other member => each other (by simp [member]))
          simp only at placed sized
          simp only [placed] at first
          simp only [FieldLayout.imageAll, found, Option.getD_some]
          refine first.append ?_
          rw [length_fieldImage inside fieldFits, ← sized, Nat.add_assoc]
          exact others

theorem RecordLayout.kept {asText : Bool} {buffer : Buffer} {record : RecordLayout}
    (tiled : record.Tiled)
    (elements : ∀ field ∈ record.fields, field.element.WellFormed)
    (kept : ∀ field ∈ record.fields, field.element.Kept asText buffer) :
    (Layout.record record).Kept asText buffer := by
  intro offset value used whole normal
  obtain ⟨payload, read, rfl, rfl⟩ := Layout.read_record_eq_ok_iff.mp whole
  have measured : ∀ field ∈ record.fields, field.element.Measured :=
    fun field member => (elements field member).measured
  obtain ⟨room, -⟩ := RecordLayout.read_eq_ok_iff.mp read
  obtain ⟨-, -, each⟩ := RecordLayout.fields_of_read tiled read
  have admits := (RecordLayout.settles_of_read tiled
    (fun field member => (elements field member).settles _) read).1
  have lies : ∀ field ∈ record.fields, ∀ value, payload.get? field.name = some value →
      buffer.Holds (offset + field.offset)
        (fieldImage field.element.image field.element field.count value) := by
    intro field member value found
    obtain ⟨other, same, fieldRead⟩ := each field member
    obtain rfl := Option.some.inj (found.symm.trans same)
    have fieldNormal := RecordLayout.normalField_of_isNormal normal member
    have inside := tiled.tile.field_le member
    exact holds_fieldImage_of_readField (elements field member) (kept field member)
      (by omega) fieldRead fieldNormal
  rw [Layout.image_record]
  have tile := tiled.tile
  cases record with
  | mk name fields length =>
      exact FieldLayout.holds_imageAll tile room admits.2.2 measured lies

theorem UnionLayout.kept {asText : Bool} {buffer : Buffer} {union : UnionLayout}
    (tagged : union.Tagged)
    (kept : ∀ variant ∈ union.variants, (Layout.record variant.record).Kept asText buffer) :
    (Layout.union union).Kept asText buffer := by
  intro offset value used whole normal
  simp only [Layout.read] at whole
  obtain ⟨selected, member, payload, tag, read, rfl, rfl⟩ :=
    (UnionLayout.read_eq_ok_iff tagged).mp whole
  have found := tagged.withName?_eq_some.mpr ⟨member, rfl⟩
  have spelled :=
    ((ConstantSet.read_eq_ok_iff tagged.tags).mp (tagged.readTag_eq_ok_iff.mp tag).2).2
  have recordNormal := UnionLayout.isNormal_selected tagged normal member spelled
  have record := kept selected member _ _ _
    (Layout.read_record_eq_ok_iff.mpr ⟨payload, read, rfl, rfl⟩) recordNormal
  rw [Layout.image_record] at record
  have header : buffer.Holds offset (union.discriminator.header union.tags selected.tag) := by
    cases shape : union.discriminator with
    | key key =>
        have holds := Buffer.holds_bytes_of_readWord union.tags.width.atMostEight spelled
        simp only [UnionLayout.tagOffset, shape, Nat.add_zero] at holds
        exact holds
    | path path tagOffset =>
        have inside := record.room
        exact .empty (by omega)
  simp only [Layout.image, tagged.image_eq found]
  refine header.append ?_
  rw [Discriminator.length_header]
  exact record

/-- Nothing is lost in reading normal bytes, for every type of a resolved schema. -/
theorem Layout.WellFormed.kept {layout : Layout} (wellFormed : layout.WellFormed) (asText : Bool)
    {buffer : Buffer} : layout.Kept asText buffer := by
  induction wellFormed with
  | @scalar name scalar =>
      intro offset value used read normal
      simp only [Layout.read, Scalar.readScalar_eq, bind_eq_ok, pure_eq_ok, Prod.mk.injEq] at read
      obtain ⟨_, ⟨word, read, rfl⟩, rfl, rfl⟩ := read
      have truth : scalar = .bool → word ≤ 1 := by
        rintro rfl
        simp only [Layout.isNormal, bne_self_eq_false, Bool.false_or] at normal
        simpa using Buffer.passes_of_wordPasses normal read
      obtain ⟨bytes, length, holds, rfl⟩ := Buffer.holds_of_readWord read
      rw [Layout.image, Scalar.bytes_fromWord length truth]
      exact holds
  | @enumeration constants distinct =>
      intro offset value used read normal
      simp only [Layout.read, bind_eq_ok, pure_eq_ok, Prod.mk.injEq] at read
      obtain ⟨constant, read, rfl, rfl⟩ := read
      obtain ⟨member, read⟩ := (ConstantSet.read_eq_ok_iff distinct).mp read
      rw [Layout.image, ConstantSet.bytes_constantWord distinct member]
      exact Buffer.holds_bytes_of_readWord constants.width.atMostEight read
  | @flags constants distinct =>
      intro offset value used read normal
      obtain ⟨word, stored, -, rfl, rfl⟩ := Layout.read_flags_eq_ok_iff.mp read
      have whole : (constants.within word).mask = word := by
        simpa using Buffer.passes_of_wordPasses normal stored
      have combined := ConstantSet.combine_contained distinct word
      rw [ConstantSet.joined_inside, whole] at combined
      rw [Layout.image, ConstantSet.bytes_flagsWord combined]
      exact Buffer.holds_bytes_of_readWord constants.width.atMostEight stored
  | record tiled elements kept => exact RecordLayout.kept tiled elements kept
  | union tagged records kept => exact UnionLayout.kept tagged kept

/-- The bytes of the message between other bytes. -/
def Sample.framed : Buffer :=
  Buffer.ofList ([7] ++ messageBytes.toList ++ [7])

namespace Schema

variable {declarations : List Declaration} {schema : Schema}

/-- Strict reading of normal bytes is undone by writing, byte for byte. -/
theorem toBytes_of_strict_read (accepted : ofDeclarations declarations = .ok schema)
    {name : String} {layout : Layout} (found : schema.find? name = some layout) {asText : Bool}
    {buffer : Buffer} {offset : Nat} {value : Value} {used : Nat}
    (read : layout.read ⟨true, asText⟩ buffer offset = .ok (value, used))
    (normal : layout.isNormal asText buffer offset = true) :
    layout.toBytes value = .ok (buffer.slice offset used) := by
  have wellFormed := wellFormed_of_find? accepted found
  obtain ⟨admits, announced, -⟩ := wellFormed.settles _ offset value used read
  obtain rfl := wellFormed.length_image admits announced
  have holds := wellFormed.kept asText offset value _ read normal
  rw [wellFormed.toBytes_eq_ok_iff]
  exact ⟨admits, Buffer.ext (by rw [holds.toList_slice_eq, Buffer.toList_ofList])⟩

theorem sample_framed_message_reproduced :
    ∃ value, Sample.layout.read ⟨true, true⟩ Sample.framed 1 = .ok (value, 24) ∧
      Sample.layout.toBytes value = .ok (Sample.framed.slice 1 24) := by
  have read : Sample.layout.read ⟨true, true⟩ Sample.framed 1 =
      .ok (Sample.layout.restore true Sample.message, 24) := by decide +kernel
  have normal : Sample.layout.isNormal true Sample.framed 1 = true := by decide +kernel
  exact ⟨_, read, toBytes_of_strict_read Sample.accepted Sample.found read normal⟩

end Schema

end RecordCodec
