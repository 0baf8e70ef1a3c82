import RecordCodec.Proofs.Codec.Restore
import RecordCodec.Proofs.Codec.Write
import RecordCodec.Proofs.Schema.WellFormed
import RecordCodec.Proofs.Value.Decidable
import RecordCodec.Proofs.Value.Record

/-!
# Values that have been read

Whatever is read from any bytes is a value that the layout admits and that is
as long as the bytes that were read.  It is settled: reading its image gives it
back unchanged, although the image may differ from the bytes, in padding, behind
the end of a text, in the bits of flags, or where a truth value is not one.
-/

namespace RecordCodec

/-- What is read is admitted, has the length that was read, and is restored to itself. -/
def Layout.Settles (options : DecodeOptions) (buffer : Buffer) (layout : Layout) : Prop :=
  ∀ offset value used, layout.read options buffer offset = .ok (value, used) →
    layout.Admits value ∧ layout.encodedLength value = .ok used ∧
      layout.restore options.charsAsText value = value

theorem fieldImage_numbers {element : Layout} (isChar : element.isChar = true) (count : Nat)
    (bytes : Buffer) :
    fieldImage element.image element (some count) (TextField.numbers bytes) = bytes.toList := by
  have slot := slotLength_of_isChar isChar
  unfold Layout.isChar at isChar
  split at isChar
  · rename_i name
    have single (byte : UInt8) :
        slotImage (Layout.scalar name .char).image (Layout.scalar name .char).slotLength
          (.unsigned byte.toUInt64) = [byte] := by
      have image : Scalar.char.image (.unsigned byte.toUInt64) = .ok [byte] := by
        have small : byte.toNat < 256 := byte.toNat_lt
        simp [Scalar.image, Scalar.charImage_unsigned, small]
      simp [slotImage, Layout.image, Scalar.bytes_of_image image, slot]
    simp only [fieldImage, TextField.numbers, List.flatMap_map, single, List.flatMap_singleton']
  · cases isChar

theorem admits_numbers {element : Layout} (isChar : element.isChar = true) (bytes : Buffer) :
    FieldAdmits element.Admits element (some bytes.size) (TextField.numbers bytes) := by
  unfold Layout.isChar at isChar
  split at isChar
  · refine .inr ⟨_, rfl, by simp, ?_⟩
    intro item member
    obtain ⟨byte, -, rfl⟩ := List.mem_map.mp member
    exact .inr ⟨byte.toUInt64, rfl, byte.toNat_lt⟩
  · cases isChar

section Field

variable {options : DecodeOptions} {buffer : Buffer} {offset : Nat} {element : Layout}

theorem settles_of_readChars (isChar : element.isChar = true) {count : Nat} {value : Value}
    (read : readField options buffer (element.read options buffer) element (some count) offset =
      .ok value) :
    FieldAdmits element.Admits element (some count) value ∧
      restoreField options.charsAsText (element.restore options.charsAsText) element (some count)
        (fieldImage element.image element (some count) value) value = value := by
  simp only [readField, isChar, if_true] at read
  cases asText : options.charsAsText with
  | true =>
      simp only [asText, if_true, TextField.read, bind_eq_ok, pure_eq_ok] at read
      obtain ⟨bytes, run, rfl⟩ := read
      obtain ⟨rfl, -⟩ := Buffer.holds_of_read run
      rcases TextField.ofBytes_eq bytes with ⟨text, isText, room, clean⟩ | isNumbers
      · rw [isText]
        refine ⟨.inl ⟨isChar, text, rfl, room⟩, ?_⟩
        simp only [restoreField, isChar, if_true, fieldImage]
        exact TextField.ofBytes_filled clean _
      · rw [isNumbers]
        refine ⟨admits_numbers isChar bytes, ?_⟩
        simp only [restoreField, isChar, if_true, fieldImage_numbers isChar,
          Buffer.ofList_toList, isNumbers]
  | false =>
      simp only [asText, Bool.false_eq_true, if_false, TextField.readNumbers, bind_eq_ok,
        pure_eq_ok] at read
      obtain ⟨bytes, run, rfl⟩ := read
      obtain ⟨rfl, -⟩ := Buffer.holds_of_read run
      refine ⟨admits_numbers isChar bytes, ?_⟩
      simp [restoreField, isChar, fieldImage_numbers isChar]

variable (settles : element.Settles options buffer)

include settles

theorem settles_of_readSlot {value : Value}
    (read : readSlot options buffer (element.read options buffer) element offset = .ok value) :
    element.Admits value ∧ element.restore options.charsAsText value = value := by
  obtain ⟨used, read, -⟩ := readSlot_eq_ok_iff.mp read
  obtain ⟨admits, -, same⟩ := settles offset value used read
  exact ⟨admits, same⟩

theorem settles_of_readField {count : Option Nat} {value : Value}
    (read : readField options buffer (element.read options buffer) element count offset =
      .ok value) :
    FieldAdmits element.Admits element count value ∧
      restoreField options.charsAsText (element.restore options.charsAsText) element count
        (fieldImage element.image element count value) value = value := by
  cases count with
  | none => exact settles_of_readSlot settles read
  | some count =>
      cases isChar : element.isChar with
      | true => exact settles_of_readChars isChar read
      | false =>
          simp only [readField, isChar, Bool.false_eq_true, if_false, bind_eq_ok, pure_eq_ok,
            mapM_eq_ok] at read
          obtain ⟨-, -, items, read, rfl⟩ := read
          have each : ∀ item ∈ items, element.Admits item ∧
              element.restore options.charsAsText item = item := by
            intro item member
            obtain ⟨index, -, itemRead⟩ := exists_mem_of_forall₂ read.flip member
            exact settles_of_readSlot settles itemRead
          have length : items.length = count := by simpa using read.length_eq.symm
          refine ⟨.inr ⟨items, rfl, length, fun item member => (each item member).1⟩, ?_⟩
          have same : items.map (element.restore options.charsAsText) = items :=
            (List.map_congr_left fun item member => (each item member).2).trans (List.map_id _)
          simp [restoreField, isChar, same]

end Field

namespace RecordLayout

variable {options : DecodeOptions} {buffer : Buffer} {offset : Nat} {layout : RecordLayout}
  {record : RecordValue}

/-- A record that was read has the declared fields, each as it was read at its offset. -/
theorem fields_of_read (tiled : layout.Tiled)
    (read : RecordLayout.read options buffer layout offset = .ok record) :
    record.fields.map FieldValue.name = layout.fields.map FieldLayout.name ∧ record.Distinct ∧
      ∀ field ∈ layout.fields, ∃ value, record.get? field.name = some value ∧
        readField options buffer (field.element.read options buffer) field.element field.count
          (offset + field.offset) = .ok value := by
  obtain ⟨-, -, read⟩ := RecordLayout.read_eq_ok_iff.mp read
  have each := FieldLayout.readAll_eq_ok_iff.mp read
  have names : record.fields.map FieldValue.name = layout.fields.map FieldLayout.name :=
    map_eq_map_of_forall₂ (each.flip.imp fun _ _ both => both.1)
  have distinct : record.Distinct := by
    rw [RecordValue.Distinct, names]
    exact tiled.names
  refine ⟨names, distinct, ?_⟩
  intro field member
  obtain ⟨supplied, among, name, fieldRead⟩ := exists_mem_of_forall₂ each member
  refine ⟨supplied.value, ?_, fieldRead⟩
  rw [← name]
  exact RecordValue.get?_of_mem distinct among

/-- A record that was read is admitted and settled, given that its elements settle. -/
theorem settles_of_read (tiled : layout.Tiled)
    (settles : ∀ field ∈ layout.fields, field.element.Settles options buffer)
    (read : RecordLayout.read options buffer layout offset = .ok record) :
    layout.Admits record ∧ layout.restore options.charsAsText record = record := by
  obtain ⟨names, distinct, each⟩ := fields_of_read tiled read
  obtain ⟨-, named, -⟩ := RecordLayout.read_eq_ok_iff.mp read
  constructor
  · rw [RecordLayout.admits_iff]
    refine ⟨named, exists_declared_of_names names, fun field member => ?_⟩
    obtain ⟨value, found, fieldRead⟩ := each field member
    exact ⟨value, found, (settles_of_readField (settles field member) fieldRead).1⟩
  · have fields : FieldLayout.restoreAll options.charsAsText layout.fields record =
        record.fields := by
      rw [FieldLayout.restoreAll_eq_map, RecordValue.fields_eq_map distinct names, List.map_map]
      apply List.map_congr_left
      intro field member
      obtain ⟨value, found, fieldRead⟩ := each field member
      have same := (settles_of_readField (settles field member) fieldRead).2
      simp only [found, Option.getD_some, same, Function.comp_apply]
    cases layout with
    | mk name declared length =>
        cases record with
        | mk type values =>
            simp only at named fields
            rw [RecordLayout.restore, fields, named]

/-- The constant that is read where a path leads is the tag of the record that is read. -/
theorem Leads.tagAt?_of_read {path : List String} {tags : ConstantSet} {tagOffset : Nat}
    (leads : layout.Leads path tags tagOffset) (wellFormed : (Layout.record layout).WellFormed)
    (read : RecordLayout.read options buffer layout offset = .ok record) :
    ∃ constant, tags.read buffer (offset + tagOffset) = .ok constant ∧
      record.tagAt? path = some constant.name := by
  induction leads generalizing record offset with
  | @here layout field tags among plain shape =>
      obtain ⟨-, -, each⟩ := fields_of_read wellFormed.tiled read
      obtain ⟨value, found, fieldRead⟩ := each field among
      simp only [plain, readField, shape] at fieldRead
      obtain ⟨used, fieldRead, -⟩ := readSlot_eq_ok_iff.mp fieldRead
      simp only [Layout.read, bind_eq_ok, pure_eq_ok, Prod.mk.injEq] at fieldRead
      obtain ⟨constant, tagRead, rfl, -⟩ := fieldRead
      exact ⟨constant, tagRead, RecordValue.tagAt?_singleton.mpr found⟩
  | @through layout inner field path tags inside among plain shape deeper ih =>
      obtain ⟨-, -, each⟩ := fields_of_read wellFormed.tiled read
      obtain ⟨value, found, fieldRead⟩ := each field among
      simp only [plain, readField, shape] at fieldRead
      obtain ⟨used, fieldRead, -⟩ := readSlot_eq_ok_iff.mp fieldRead
      obtain ⟨innerRecord, innerRead, rfl, -⟩ := Layout.read_record_eq_ok_iff.mp fieldRead
      obtain ⟨constant, tagRead, tag⟩ := ih (wellFormed.inner among shape) innerRead
      rw [Nat.add_assoc] at tagRead
      exact ⟨constant, tagRead, (RecordValue.tagAt?_cons deeper.ne_nil).mpr
        ⟨innerRecord, found, tag⟩⟩

end RecordLayout

/-- The tag that selected a variant agrees with the record that was read. -/
theorem UnionLayout.Tagged.agrees_of_read {options : DecodeOptions} {buffer : Buffer}
    {union : UnionLayout} (tagged : union.Tagged)
    {selected : VariantLayout} (member : selected ∈ union.variants)
    (wellFormed : (Layout.record selected.record).WellFormed) {offset : Nat}
    (tag : union.readTag buffer offset = .ok ⟨selected.name, selected.tag⟩) {payload : RecordValue}
    (read : RecordLayout.read options buffer selected.record (offset + union.headerLength) =
      .ok payload) : union.discriminator.Agrees selected.name payload := by
  replace tag := (tagged.readTag_eq_ok_iff.mp tag).2
  cases shape : union.discriminator with
  | key key => exact True.intro
  | path path tagOffset =>
      simp only [UnionLayout.headerLength, UnionLayout.tagOffset, shape, Nat.add_zero] at tag read
      obtain ⟨constant, tagRead, found⟩ :=
        (tagged.leads member shape).tagAt?_of_read wellFormed read
      rw [tagRead] at tag
      rw [Except.ok.inj tag] at found
      exact found

/-- Every value that is read is settled, for every type of a resolved schema. -/
theorem Layout.WellFormed.settles {layout : Layout} (wellFormed : layout.WellFormed)
    (options : DecodeOptions) {buffer : Buffer} : layout.Settles options buffer := by
  induction wellFormed with
  | @scalar name scalar =>
      intro offset value used read
      simp only [Layout.read, Scalar.readScalar_eq, bind_eq_ok, pure_eq_ok, Prod.mk.injEq] at read
      obtain ⟨_, ⟨word, read, rfl⟩, rfl, rfl⟩ := read
      obtain ⟨bytes, length, -, rfl⟩ := Buffer.holds_of_readWord read
      have fits := BigEndian.toNat_word_lt (by rw [length]; exact scalar.width_le_eight)
      rw [length] at fits
      exact ⟨Scalar.admits_fromWord fits _, rfl, Scalar.fromWord_word_bytes_fromWord fits _⟩
  | @enumeration constants distinct =>
      intro offset value used read
      simp only [Layout.read, bind_eq_ok, pure_eq_ok, Prod.mk.injEq] at read
      obtain ⟨constant, read, rfl, rfl⟩ := read
      obtain ⟨member, -⟩ := (ConstantSet.read_eq_ok_iff distinct).mp read
      exact ⟨⟨constant.name, rfl, constant, member, rfl⟩, rfl, rfl⟩
  | @flags constants distinct =>
      intro offset value used read
      obtain ⟨word, -, -, rfl, rfl⟩ := Layout.read_flags_eq_ok_iff.mp read
      have combined := ConstantSet.combine_contained distinct word
      refine ⟨⟨_, rfl, ConstantSet.combine_eq_ok_iff.mp ⟨_, combined⟩⟩, rfl, ?_⟩
      rw [Layout.restore, ConstantSet.word_bytes_flagsWord distinct combined,
        ConstantSet.contained_joined_inside]
  | @record record tiled elements settles =>
      intro offset value used whole
      obtain ⟨payload, read, rfl, rfl⟩ := Layout.read_record_eq_ok_iff.mp whole
      obtain ⟨admits, same⟩ := RecordLayout.settles_of_read tiled settles read
      exact ⟨Layout.admits_record.mpr admits, rfl, congrArg Value.record same⟩
  | @union union tagged records settles =>
      intro offset value used whole
      simp only [Layout.read] at whole
      obtain ⟨selected, member, payload, tag, read, rfl, rfl⟩ :=
        (UnionLayout.read_eq_ok_iff tagged).mp whole
      have found := tagged.withName?_eq_some.mpr ⟨member, rfl⟩
      have agrees := tagged.agrees_of_read member (records selected member) tag read
      obtain ⟨admits, -, same⟩ := settles selected member _ _ _
        (Layout.read_record_eq_ok_iff.mpr ⟨payload, read, rfl, rfl⟩)
      refine ⟨⟨selected.name, payload, rfl, agrees, tagged.exists_admits_iff.mpr
        ⟨selected, member, rfl, Layout.admits_record.mp admits⟩⟩, ?_, ?_⟩
      · simp [Layout.encodedLength, found]
      · simp only [Layout.restore, Value.record.injEq] at same
        rw [Layout.restore, tagged.restore_eq found, same]

/-- What holds of values without parts, and of others if it holds of their parts. -/
structure Value.Builds (holds : Value → Prop) : Prop where
  leaf : ∀ value, value.isLeaf = true → holds value
  array : ∀ items, items.length ≤ itemLimit → (∀ item ∈ items, holds item) → holds (.array items)
  record : ∀ record : RecordValue, record.Distinct → (∀ field ∈ record.fields, holds field.value) →
    holds (.record record)
  union : ∀ type variant payload, holds (.record payload) → holds (.union type variant payload)

section Builds

variable {options : DecodeOptions} {buffer : Buffer} {offset : Nat} {holds : Value → Prop}
  (builds : Value.Builds holds)

theorem Scalar.isLeaf_fromWord (scalar : Scalar) (asText : Bool) (word : UInt64) :
    (scalar.fromWord asText word).isLeaf = true := by
  have character : (Scalar.charOfWord word).isLeaf = true := by
    unfold Scalar.charOfWord
    split
    · rfl
    · split <;> rfl
  cases scalar with
  | char => cases asText <;> first | exact character | rfl
  | _ => rfl

include builds

theorem TextField.holds_numbers {bytes : Buffer} (short : bytes.size ≤ itemLimit) :
    holds (TextField.numbers bytes) := by
  refine builds.array _ (by simpa using short) fun item member => ?_
  obtain ⟨byte, -, rfl⟩ := List.mem_map.mp member
  exact builds.leaf _ rfl

theorem TextField.holds_ofBytes {bytes : Buffer} (short : bytes.size ≤ itemLimit) :
    holds (TextField.ofBytes bytes) := by
  rcases TextField.ofBytes_eq bytes with ⟨text, isText, -, -⟩ | isNumbers
  · rw [isText]
    exact builds.leaf _ rfl
  · rw [isNumbers]
    exact TextField.holds_numbers builds short

/-- An array of characters is as short as its record, and any other has been reserved. -/
theorem holds_of_readField {element : Layout}
    (each : ∀ offset value used, element.read options buffer offset = .ok (value, used) →
      holds value) {count : Option Nat} (bounded : element.slotLength * count.getD 1 ≤ layoutLimit)
    {value : Value}
    (read : readField options buffer (element.read options buffer) element count offset =
      .ok value) : holds value := by
  have slot {offset : Nat} {value : Value}
      (read : readSlot options buffer (element.read options buffer) element offset = .ok value) :
      holds value := by
    obtain ⟨used, read, -⟩ := readSlot_eq_ok_iff.mp read
    exact each offset value used read
  cases count with
  | none => exact slot read
  | some count =>
      simp only [readField] at read
      split at read
      · rename_i isChar
        rw [slotLength_of_isChar isChar, Option.getD_some, Nat.one_mul] at bounded
        have short : count ≤ itemLimit := Nat.le_trans bounded (by decide)
        split at read
        · simp only [TextField.read, bind_eq_ok, pure_eq_ok] at read
          obtain ⟨bytes, run, rfl⟩ := read
          obtain ⟨rfl, -⟩ := Buffer.holds_of_read run
          exact TextField.holds_ofBytes builds short
        · simp only [TextField.readNumbers, bind_eq_ok, pure_eq_ok] at read
          obtain ⟨bytes, run, rfl⟩ := read
          obtain ⟨rfl, -⟩ := Buffer.holds_of_read run
          exact TextField.holds_numbers builds short
      · simp only [bind_eq_ok, pure_eq_ok, mapM_eq_ok, reserveItems_eq_ok_iff] at read
        obtain ⟨-, short, items, read, rfl⟩ := read
        have length : items.length = count := by simpa using read.length_eq.symm
        refine builds.array _ (by rwa [length]) fun item member => ?_
        obtain ⟨index, -, itemRead⟩ := exists_mem_of_forall₂ read.flip member
        exact slot itemRead

/-- What is read is built from values without parts, records that repeat no name, and lists that
memory can hold. -/
theorem Layout.WellFormed.holds_of_read {layout : Layout} (wellFormed : layout.WellFormed)
    (offset : Nat) (value : Value) (used : Nat)
    (read : layout.read options buffer offset = .ok (value, used)) : holds value := by
  induction wellFormed generalizing offset value used with
  | @scalar name scalar =>
      simp only [Layout.read, Scalar.readScalar_eq, bind_eq_ok, pure_eq_ok, Prod.mk.injEq] at read
      obtain ⟨_, ⟨word, -, rfl⟩, rfl, -⟩ := read
      exact builds.leaf _ (scalar.isLeaf_fromWord options.charsAsText word)
  | enumeration =>
      simp only [Layout.read, bind_eq_ok, pure_eq_ok, Prod.mk.injEq] at read
      obtain ⟨constant, -, rfl, -⟩ := read
      exact builds.leaf _ rfl
  | flags =>
      simp only [Layout.read, bind_eq_ok, pure_eq_ok, Prod.mk.injEq] at read
      obtain ⟨names, -, rfl, -⟩ := read
      exact builds.leaf _ rfl
  | @record record tiled elements ih =>
      obtain ⟨payload, payloadRead, rfl, -⟩ := Layout.read_record_eq_ok_iff.mp read
      obtain ⟨names, distinct, each⟩ := RecordLayout.fields_of_read tiled payloadRead
      refine builds.record payload distinct fun supplied among => ?_
      obtain ⟨field, declared, named⟩ := RecordLayout.exists_declared_of_names names supplied among
      obtain ⟨value, found, fieldRead⟩ := each field declared
      rw [named, RecordValue.get?_of_mem distinct among] at found
      have inside := tiled.tile.field_le declared
      have bounded := tiled.bounded
      rw [Option.some.inj found]
      exact holds_of_readField builds (ih field declared) (by omega) fieldRead
  | @union union tagged records ih =>
      simp only [Layout.read] at read
      obtain ⟨selected, among, payload, -, payloadRead, rfl, -⟩ :=
        (UnionLayout.read_eq_ok_iff tagged).mp read
      exact builds.union _ _ _ (ih selected among _ (.record payload) _
        (Layout.read_record_eq_ok_iff.mpr ⟨payload, payloadRead, rfl, rfl⟩))

end Builds

theorem Value.builds_namesApart : Value.Builds Value.NamesApart where
  leaf _ leaf := Value.namesApart_of_isLeaf leaf
  array _ _ each := Value.namesApart_array.mpr each
  record _ distinct each := RecordValue.namesApart_iff.mpr ⟨distinct, each⟩
  union _ _ _ apart := apart

theorem Value.builds_held : Value.Builds Value.Held where
  leaf _ leaf := Value.held_of_isLeaf leaf
  array _ short each := Value.held_array.mpr ⟨short, each⟩
  record _ _ each := RecordValue.held_iff.mpr each
  union _ _ _ held := Value.held_union.mpr held

/-- No record in what is read repeats a name. -/
theorem Layout.WellFormed.namesApart_of_read {options : DecodeOptions} {buffer : Buffer}
    {layout : Layout} (wellFormed : layout.WellFormed) (offset : Nat) (value : Value) (used : Nat)
    (read : layout.read options buffer offset = .ok (value, used)) : value.NamesApart :=
  wellFormed.holds_of_read Value.builds_namesApart offset value used read

/-- Only the header of a union may pass the limit for records. -/
theorem Layout.WellFormed.slotLength_le {layout : Layout} (wellFormed : layout.WellFormed) :
    layout.slotLength ≤ layoutLimit + 8 := by
  have word {length : Nat} (short : length ≤ 8) : length ≤ layoutLimit + 8 := by omega
  cases wellFormed with
  | @scalar _ scalar => exact word scalar.width_le_eight
  | @enumeration constants => exact word constants.width.atMostEight
  | @flags constants => exact word constants.width.atMostEight
  | record tiled => exact Nat.le_add_right_of_le tiled.bounded
  | @union union tagged records =>
      have header := union.headerLength_le
      refine UnionLayout.slotLength_le_iff.mpr ⟨word header, ?_⟩
      intro variant member
      have bounded := (records variant member).tiled.bounded
      omega

/-- The image of a value is far shorter than the greatest buffer. -/
theorem Layout.WellFormed.length_image_lt {layout : Layout} (wellFormed : layout.WellFormed)
    {value : Value} (admits : layout.Admits value) : (layout.image value).length < 2 ^ 64 := by
  have limit : layoutLimit + 8 < 2 ^ 64 := by decide
  have inside := (wellFormed.measured value admits).2
  have bounded := wellFormed.slotLength_le
  omega

namespace Sample

/-- Bytes around a message, with other bytes in its padding and behind the end of a text. -/
def received : Buffer :=
  Buffer.ofList [7, 2, 255, 254, 200, 0, 7, 1, 63, 192, 0, 0, 9, 9, 9, 0, 8, 2, 3, 104, 105, 0, 106,
    0, 107, 7]

/-- The message that is read from those bytes. -/
def receivedMessage : Value :=
  .union "Message" "Label" ⟨"Scene",
    [⟨"shift", .signed (-2)⟩, ⟨"mark", .unsigned 200⟩,
      ⟨"shapes", .array
        [.union "Shape" "Circle" ⟨"Circle",
          [⟨"head", .record ⟨"Head", [⟨"serial", .unsigned 7⟩, ⟨"kind", .constant "Circle"⟩]⟩⟩,
            ⟨"radius", .single 0x3fc00000⟩]⟩,
        .union "Shape" "Label" ⟨"Label",
          [⟨"head", .record ⟨"Head", [⟨"serial", .unsigned 8⟩, ⟨"kind", .constant "Label"⟩]⟩⟩,
            ⟨"style", .flags ["bold", "wide", "both"]⟩, ⟨"text", .text "hi"⟩]⟩]⟩]⟩

end Sample

namespace Schema

variable {declarations : List Declaration} {schema : Schema}

/-- Whatever is read from any bytes can be written again, in as many bytes, and
is read from those bytes unchanged, although they may be other ones. -/
theorem read_toBytes_of_read (accepted : ofDeclarations declarations = .ok schema)
    {name : String} {layout : Layout} (found : schema.find? name = some layout)
    {options : DecodeOptions} {buffer : Buffer} {offset : Nat}
    {value : Value} {used : Nat} (read : layout.read options buffer offset = .ok (value, used)) :
    layout.encodedLength value = .ok used ∧
      ∃ bytes, layout.toBytes value = .ok bytes ∧ bytes.size = used ∧
        layout.read ⟨true, options.charsAsText⟩ bytes 0 = .ok (value, used) := by
  have wellFormed := wellFormed_of_find? accepted found
  obtain ⟨admits, length, same⟩ := wellFormed.settles options offset value used read
  have held := wellFormed.holds_of_read Value.builds_held offset value used read
  have size : (layout.image value).length = used := by
    rw [(wellFormed.measured value admits).1] at length
    exact Except.ok.inj length
  refine ⟨length, Buffer.ofList (layout.image value),
    wellFormed.toBytes_eq_ok_iff.mpr ⟨admits, rfl⟩, by rw [Buffer.size_ofList, size], ?_⟩
  have short : (Buffer.ofList (layout.image value)).size < 2 ^ 64 := by
    rw [Buffer.size_ofList]
    exact wellFormed.length_image_lt admits
  have again := wellFormed.readable ⟨true, options.charsAsText⟩ short value admits held 0
    (Buffer.holds_ofList _)
  rw [same, size] at again
  exact again

theorem sample_received_message_read_again :
    Sample.layout.read ⟨false, true⟩ Sample.received 1 = .ok (Sample.receivedMessage, 24) ∧
      Sample.layout.encodedLength Sample.receivedMessage = .ok 24 ∧
      ∃ bytes, Sample.layout.toBytes Sample.receivedMessage = .ok bytes ∧ bytes.size = 24 ∧
        Sample.layout.read ⟨true, true⟩ bytes 0 = .ok (Sample.receivedMessage, 24) := by
  have read : Sample.layout.read ⟨false, true⟩ Sample.received 1 =
      .ok (Sample.receivedMessage, 24) := by decide +kernel
  exact ⟨read, read_toBytes_of_read Sample.accepted Sample.found read⟩

end Schema

end RecordCodec
