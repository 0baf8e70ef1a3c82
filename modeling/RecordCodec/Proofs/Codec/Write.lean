import RecordCodec.Proofs.Bytes.Buffer
import RecordCodec.Proofs.Codec.Conformity
import RecordCodec.Proofs.Codec.Image
import RecordCodec.Proofs.Schema.WellFormed

/-!
# Writing puts the image

Given room, writing a value that the layout admits puts exactly its image at
the offset, although it is done in place and field by field.  Conversely, a
value of which the writing succeeds is admitted, whatever the buffer.
-/

namespace RecordCodec

open Writing

/-- Writing an admitted value puts its image and gives its length. -/
def Layout.Writable (layout : Layout) : Prop :=
  ∀ value, layout.Admits value → ∀ offset,
    Puts (layout.write value offset) offset (layout.image value) (layout.image value).length

section Field

variable {writeElement : Value → Nat → Writing Nat} {image : Value → List UInt8}
  {admits : Value → Prop} {element : Layout}
  (writes : ∀ value, admits value → ∀ offset,
    Puts (writeElement value offset) offset (image value) (image value).length)

include writes

theorem puts_writeSlot {value : Value} (fits : admits value) (slot offset : Nat) :
    Puts (writeSlot writeElement slot value offset) offset (slotImage image slot value) () :=
  (writes value fits offset).bind (.zeros _)

theorem puts_writeElements {slot : Nat} {items : List Value}
    (each : ∀ item ∈ items, admits item)
    (lengths : ∀ item ∈ items, (slotImage image slot item).length = slot) (offset : Nat) :
    Puts (writeElements writeElement slot items offset) offset
      (items.flatMap (slotImage image slot)) () := by
  induction items generalizing offset with
  | nil => exact .pure ()
  | cons item rest ih =>
      have first := puts_writeSlot writes (each item (by simp)) slot offset
      have others := ih (fun other member => each other (by simp [member]))
        (fun other member => lengths other (by simp [member])) (offset + slot)
      rw [List.flatMap_cons]
      refine first.bind ?_
      rw [lengths item (by simp)]
      exact others

theorem puts_writeField {count : Option Nat} {value : Value}
    (inside : ∀ value, admits value → (image value).length ≤ element.slotLength)
    (fits : FieldAdmits admits element count value) (offset : Nat) :
    Puts (writeField writeElement element count value offset) offset
      (fieldImage image element count value) () := by
  cases count with
  | none => exact puts_writeSlot writes fits _ offset
  | some count =>
      rcases fits with ⟨isChar, text, rfl, room⟩ | ⟨items, rfl, rfl, each⟩
      · have capacity : TextField.requireCapacity text count = .ok () := if_pos room
        have size : text.toUTF8.data.toList.length = text.utf8ByteSize := rfl
        simp only [writeField, isChar, fieldImage, TextField.write]
        refine .check capacity (.require ?_ ((Puts.overwrite text.toUTF8).bind (.zeros _)))
        simp only [List.length_append, List.length_replicate, size]
        omega
      · simp only [writeField, fieldImage, if_true]
        exact puts_writeElements writes each
          (fun item member => length_slotImage (inside item (each item member))) offset

end Field

theorem FieldLayout.puts_writeAll {fields : List FieldLayout} {type : String}
    {record : RecordValue} {start stop : Nat} (tile : FieldLayout.Tile fields start stop)
    (fits : FieldLayout.AdmitAll fields record)
    (measured : ∀ field ∈ fields, field.element.Measured)
    (writable : ∀ field ∈ fields, field.element.Writable) (offset : Nat) :
    Puts (FieldLayout.writeAll fields type record offset) (offset + start)
      (FieldLayout.imageAll fields record) () := by
  induction fields generalizing start with
  | nil => exact .pure ()
  | cons field rest ih =>
      cases field with
      | mk name element count fieldOffset length =>
          obtain ⟨placed, sized, tile⟩ := tile
          obtain ⟨⟨value, found, fieldFits⟩, restFits⟩ := fits
          have inside := fun value admits => (measured _ List.mem_cons_self value admits).2
          have first := puts_writeField (writable _ List.mem_cons_self) inside fieldFits
            (offset + start)
          have others := ih tile restFits (fun other member => measured other (by simp [member]))
            (fun other member => writable other (by simp [member]))
          simp only at placed sized
          simp only [FieldLayout.writeAll, FieldLayout.imageAll, found, Option.getD_some, placed]
          refine .check (RecordLayout.fieldValue_eq_ok_iff.mpr found) (first.bind ?_)
          rw [length_fieldImage inside fieldFits, ← sized, Nat.add_assoc]
          exact others

theorem RecordLayout.puts_write {layout : RecordLayout} (tiled : layout.Tiled)
    (measured : ∀ field ∈ layout.fields, field.element.Measured)
    (writable : ∀ field ∈ layout.fields, field.element.Writable) {record : RecordValue}
    (admits : layout.Admits record) (offset : Nat) :
    Puts (RecordLayout.write layout record offset) offset (layout.image record) () := by
  have length := RecordLayout.length_image tiled measured admits
  have checked := RecordLayout.check_of_admits admits
  have tile := tiled.tile
  cases layout with
  | mk name fields total =>
      simp only [RecordLayout.write]
      exact .check checked (.require (Nat.le_of_eq length.symm)
        (FieldLayout.puts_writeAll tile admits.2.2 measured writable offset))

theorem UnionLayout.Tagged.write_eq {union : UnionLayout} (tagged : union.Tagged)
    {variant : String} {payload : RecordValue} {selected : VariantLayout}
    (found : union.withName? variant = some selected) (offset : Nat) :
    UnionLayout.write union variant payload offset = (do
      writeTag union variant payload offset
      RecordLayout.write selected.record payload (offset + union.headerLength)
      return union.headerLength + selected.record.length) := by
  have chosen : UnionLayout.write union variant payload offset =
      selected.member.writeMember ⟨union.name, union.discriminator, union.discriminant, []⟩
        variant payload offset := by
    cases union with
    | mk name discriminator discriminant variants =>
        apply choice_eq_of_found (fun variants => VariantLayout.writeNamed variants
          ⟨name, discriminator, discriminant, []⟩ variant payload offset) _ found
        rintro ⟨name, tag, member⟩ rest
        rfl
  rw [chosen, tagged.recorded_of_withName? found]
  rfl

/-- The constant of a variant is looked up by the name of the variant. -/
theorem UnionLayout.Tagged.valueOf_eq {union : UnionLayout} (tagged : union.Tagged)
    {selected : VariantLayout} (member : selected ∈ union.variants) :
    union.tags.valueOf selected.name = .ok selected.tag := by
  have found := tagged.tags.withName?_eq_some.mpr ⟨tagged.selected selected member, rfl⟩
  rw [ConstantSet.valueOf, found]

theorem puts_writeTag {union : UnionLayout} (tagged : union.Tagged) {selected : VariantLayout}
    (member : selected ∈ union.variants) {payload : RecordValue}
    (agrees : union.discriminator.Agrees selected.name payload) (offset : Nat) :
    Puts (writeTag union selected.name payload offset) offset
      (union.discriminator.header union.tags selected.tag) () := by
  unfold writeTag
  cases shape : union.discriminator with
  | key key =>
      refine .check tagged.expectTags_eq ?_
      rw [tagged.valueOf_eq member]
      exact .writeWord _ _
  | path fields tagOffset =>
      rw [shape] at agrees
      have nonempty := (tagged.leads member shape).ne_nil
      have checked : UnionLayout.checkTag union.name selected.name payload fields = .ok () :=
        (UnionLayout.checkTag_eq_ok_iff nonempty).mpr agrees
      have test : Puts
          (Writing.ofExcept (UnionLayout.checkTag union.name selected.name payload fields) >>=
            fun result => pure result) offset [] () :=
        .check checked (.pure ())
      rw [bind_pure] at test
      exact test

theorem ConstantSet.puts_write (set : ConstantSet) {word : Except Error UInt64}
    (known : ∃ bits, word = .ok bits) (offset : Nat) :
    Puts (set.write word offset) offset (set.bytes word) () := by
  obtain ⟨bits, rfl⟩ := known
  exact .writeWord _ _

theorem Layout.WellFormed.length_image {layout : Layout} (wellFormed : layout.WellFormed)
    {value : Value} (admits : layout.Admits value) {length : Nat}
    (announced : layout.encodedLength value = .ok length) :
    (layout.image value).length = length := by
  rw [(wellFormed.measured value admits).1] at announced
  exact Except.ok.inj announced

theorem UnionLayout.writable {union : UnionLayout} (tagged : union.Tagged)
    (records : ∀ variant ∈ union.variants, (Layout.record variant.record).WellFormed)
    (writable : ∀ variant ∈ union.variants, (Layout.record variant.record).Writable) :
    (Layout.union union).Writable := by
  intro value admits offset
  obtain ⟨variant, payload, rfl, agrees, fits⟩ := admits
  obtain ⟨selected, member, rfl, recordAdmits⟩ := tagged.exists_admits_iff.mp fits
  have found := tagged.withName?_eq_some.mpr ⟨member, rfl⟩
  have announced : (Layout.union union).encodedLength (.union union.name selected.name payload) =
      .ok (union.headerLength + selected.record.length) := by
    simp [Layout.encodedLength, found]
  have total := (Layout.WellFormed.union tagged records).length_image
    ⟨_, payload, rfl, agrees, fits⟩ announced
  have written : Puts (RecordLayout.write selected.record payload (offset + union.headerLength))
      (offset + union.headerLength) (selected.record.image payload) () := by
    have recordTotal := (records selected member).length_image
      (Layout.admits_record.mpr recordAdmits) rfl
    have whole := writable selected member _ (Layout.admits_record.mpr recordAdmits)
      (offset + union.headerLength)
    rw [recordTotal, Layout.image_record] at whole
    exact .of_andReturn whole
  rw [total]
  simp only [Layout.write, Layout.image, tagged.image_eq found]
  apply Puts.check (UnionLayout.expect_eq_ok_iff.mpr rfl)
  rw [tagged.write_eq found]
  apply (puts_writeTag tagged member agrees offset).bind
  rw [Discriminator.length_header]
  exact written.andReturn _

/-- Writing is described by the image, for every type of a resolved schema. -/
theorem Layout.WellFormed.writable {layout : Layout} (wellFormed : layout.WellFormed) :
    layout.Writable := by
  induction wellFormed with
  | @scalar name scalar =>
      intro value admits offset
      have written : Puts (scalar.write value offset) offset (scalar.bytes value) () := by
        rw [Scalar.write, Scalar.image_eq_bytes admits]
        exact .write
      rw [Layout.WellFormed.scalar.length_image admits rfl]
      simp only [Layout.write]
      exact written.andReturn _
  | @enumeration constants distinct =>
      intro value admits offset
      have known := ConstantSet.constantWord_eq_ok_iff.mpr admits
      rw [(Layout.WellFormed.enumeration distinct).length_image admits rfl]
      simp only [Layout.write]
      exact (constants.puts_write known offset).andReturn _
  | @flags constants distinct =>
      intro value admits offset
      have known := ConstantSet.flagsWord_eq_ok_iff.mpr admits
      rw [(Layout.WellFormed.flags distinct).length_image admits rfl]
      simp only [Layout.write]
      exact (constants.puts_write known offset).andReturn _
  | @record record tiled elements writable =>
      intro value admits offset
      rw [(Layout.WellFormed.record tiled elements).length_image admits rfl]
      obtain ⟨payload, rfl, admits⟩ := admits
      have measured := fun field member => (elements field member).measured
      have written := RecordLayout.puts_write tiled measured writable admits offset
      simp only [Layout.write, Layout.image_record]
      exact .check rfl (written.andReturn _)
  | union tagged records writable => exact UnionLayout.writable tagged records writable

section Field

variable {writeElement : Value → Nat → Writing Nat} {admits : Value → Prop} {element : Layout}
  (accepts : ∀ value offset length, Yields (writeElement value offset) length → admits value)

include accepts

theorem admits_of_writeSlot {slot offset : Nat} {value : Value}
    (yields : Yields (writeSlot writeElement slot value offset) ()) : admits value := by
  obtain ⟨length, written, -⟩ := yields.of_bind
  exact accepts value offset length written

theorem admits_of_writeElements {slot offset : Nat} {items : List Value}
    (yields : Yields (writeElements writeElement slot items offset) ()) :
    ∀ item ∈ items, admits item := by
  induction items generalizing offset with
  | nil => simp
  | cons item rest ih =>
      obtain ⟨_, written, others⟩ := yields.of_bind
      exact List.forall_mem_cons.mpr ⟨admits_of_writeSlot accepts written, ih others⟩

theorem fieldAdmits_of_writeField {count : Option Nat} {value : Value} {offset : Nat}
    (yields : Yields (writeField writeElement element count value offset) ()) :
    FieldAdmits admits element count value := by
  cases count with
  | none => exact admits_of_writeSlot accepts yields
  | some count =>
      simp only [writeField] at yields
      split at yields
      · rename_i text isChar
        obtain ⟨_, capacity, -⟩ := yields.of_bind
        have room := capacity.of_ofExcept
        unfold TextField.requireCapacity at room
        split at room
        · rename_i inside
          exact .inl ⟨isChar, text, rfl, inside⟩
        · cases room
      · rename_i items
        split at yields
        · rename_i length
          exact .inr ⟨items, rfl, length, admits_of_writeElements accepts yields⟩
        · exact absurd yields Yields.not_throw
      · exact absurd yields Yields.not_throw

end Field

/-- Writing succeeds only on values that the layout admits. -/
def Layout.Selective (layout : Layout) : Prop :=
  ∀ value offset length, Yields (layout.write value offset) length → layout.Admits value

theorem FieldLayout.admitAll_of_writeAll {fields : List FieldLayout} {type : String}
    {record : RecordValue} {offset : Nat}
    (selective : ∀ field ∈ fields, field.element.Selective)
    (yields : Yields (FieldLayout.writeAll fields type record offset) ()) :
    FieldLayout.AdmitAll fields record := by
  induction fields with
  | nil => exact True.intro
  | cons field rest ih =>
      cases field with
      | mk name element count fieldOffset length =>
          simp only [FieldLayout.writeAll] at yields
          obtain ⟨value, found, yields⟩ := yields.of_bind
          obtain ⟨_, written, others⟩ := yields.of_bind
          refine ⟨⟨value, RecordLayout.fieldValue_eq_ok_iff.mp found.of_ofExcept, ?_⟩,
            ih (fun other member => selective other (by simp [member])) others⟩
          exact fieldAdmits_of_writeField (selective _ List.mem_cons_self) written

theorem RecordLayout.admits_of_write {layout : RecordLayout}
    (selective : ∀ field ∈ layout.fields, field.element.Selective) {record : RecordValue}
    {offset : Nat} (yields : Yields (RecordLayout.write layout record offset) ()) :
    layout.Admits record := by
  cases layout with
  | mk name fields total =>
      simp only [RecordLayout.write] at yields
      obtain ⟨_, checked, yields⟩ := yields.of_bind
      obtain ⟨_, -, written⟩ := yields.of_bind
      obtain ⟨named, declared⟩ := RecordLayout.check_eq_ok_iff.mp checked.of_ofExcept
      exact ⟨named, declared, FieldLayout.admitAll_of_writeAll selective written⟩

/-- What holds of writing a variant, but not of failing to know one, holds of a known one. -/
theorem UnionLayout.found_of_write {union : UnionLayout} {variant : String}
    {payload : RecordValue} {offset : Nat} (holds : Writing Nat → Prop)
    (rejects : ¬holds (throw (.unknownVariant union.name variant)))
    (accepts : holds (UnionLayout.write union variant payload offset)) :
    ∃ selected, union.withName? variant = some selected := by
  cases union with
  | mk name discriminator discriminant variants =>
      apply exists_found_of_choice (fun variants => VariantLayout.writeNamed variants
        ⟨name, discriminator, discriminant, []⟩ variant payload offset) _ holds rejects accepts
      rintro ⟨name, tag, member⟩ rest differ
      exact if_neg differ

theorem agrees_of_writeTag {union : UnionLayout} (tagged : union.Tagged)
    {selected : VariantLayout} (member : selected ∈ union.variants) {payload : RecordValue}
    {offset : Nat}
    (yields : Yields (writeTag union selected.name payload offset) ()) :
    union.discriminator.Agrees selected.name payload := by
  unfold writeTag at yields
  cases shape : union.discriminator with
  | key key => exact True.intro
  | path fields tagOffset =>
      rw [shape] at yields
      have nonempty := (tagged.leads member shape).ne_nil
      exact (UnionLayout.checkTag_eq_ok_iff nonempty).mp yields.of_ofExcept

theorem ConstantSet.known_of_write {set : ConstantSet} {word : Except Error UInt64} {offset : Nat}
    (yields : Yields (set.write word offset) ()) : ∃ bits, word = .ok bits := by
  cases word with
  | ok bits => exact ⟨bits, rfl⟩
  | error error => exact absurd yields Yields.not_throw

theorem Layout.WellFormed.selective {layout : Layout} (wellFormed : layout.WellFormed) :
    layout.Selective := by
  induction wellFormed with
  | @scalar name scalar =>
      intro value offset length yields
      simp only [Layout.write] at yields
      obtain ⟨_, written, -⟩ := yields.of_bind
      unfold Scalar.write at written
      split at written
      · rename_i bytes image
        exact Scalar.image_eq_ok_iff.mp ⟨bytes, image⟩
      · exact absurd written Yields.not_throw
  | enumeration =>
      intro value offset length yields
      simp only [Layout.write] at yields
      obtain ⟨_, written, -⟩ := yields.of_bind
      exact ConstantSet.constantWord_eq_ok_iff.mp (ConstantSet.known_of_write written)
  | flags =>
      intro value offset length yields
      simp only [Layout.write] at yields
      obtain ⟨_, written, -⟩ := yields.of_bind
      exact ConstantSet.flagsWord_eq_ok_iff.mp (ConstantSet.known_of_write written)
  | @record record tiled elements selective =>
      intro value offset length yields
      simp only [Layout.write] at yields
      obtain ⟨payload, expected, yields⟩ := yields.of_bind
      obtain ⟨_, written, -⟩ := yields.of_bind
      rw [expectRecord_eq_ok_iff.mp expected.of_ofExcept, Layout.admits_record]
      exact RecordLayout.admits_of_write selective written
  | @union union tagged records selective =>
      intro value offset length yields
      simp only [Layout.write] at yields
      obtain ⟨⟨variant, payload⟩, expected, yields⟩ := yields.of_bind
      obtain ⟨selected, found⟩ :=
        UnionLayout.found_of_write (Yields · length) Yields.not_throw yields
      rw [tagged.write_eq found] at yields
      obtain ⟨member, rfl⟩ := tagged.withName?_eq_some.mp found
      obtain ⟨_, tag, yields⟩ := yields.of_bind
      refine ⟨selected.name, payload, UnionLayout.expect_eq_ok_iff.mp expected.of_ofExcept,
        agrees_of_writeTag tagged member tag,
        tagged.exists_admits_iff.mpr ⟨selected, member, rfl, ?_⟩⟩
      obtain ⟨_, written, -⟩ := yields.of_bind
      have whole : Yields ((Layout.record selected.record).write (.record payload)
          (offset + union.headerLength)) selected.record.length := by
        simp only [Layout.write]
        exact written.andReturn _
      exact Layout.admits_record.mp (selective selected member _ _ _ whole)

/-- A value has bytes exactly when the layout admits it, and they are its image. -/
theorem Layout.WellFormed.toBytes_eq_ok_iff {layout : Layout} (wellFormed : layout.WellFormed)
    {value : Value} {bytes : Buffer} :
    layout.toBytes value = .ok bytes ↔
      layout.Admits value ∧ bytes = Buffer.ofList (layout.image value) := by
  have written (admits : layout.Admits value) :
      (layout.write value 0).run (Buffer.zeros (layout.image value).length) =
        .ok ((layout.image value).length, Buffer.ofList (layout.image value)) := by
    have puts := wellFormed.writable value admits 0 (Buffer.zeros (layout.image value).length)
      (by simp)
    rw [Buffer.overwrite_zeros] at puts
    simp [Writing.run, puts]
  simp only [Layout.toBytes, bind_eq_ok, pure_eq_ok]
  constructor
  · rintro ⟨length, announced, ⟨used, result⟩, run, rfl⟩
    have admits : layout.Admits value := by
      unfold Writing.run at run
      split at run
      · rename_i ran
        exact wellFormed.selective value 0 _ ⟨_, _, ran⟩
      · cases run
    rw [(wellFormed.measured value admits).1] at announced
    obtain rfl := Except.ok.inj announced
    rw [written admits] at run
    simp at run
    exact ⟨admits, run.2.symm⟩
  · rintro ⟨admits, rfl⟩
    exact ⟨_, (wellFormed.measured value admits).1, _, written admits, rfl⟩

namespace Sample

/-- The bytes of the message. -/
def messageBytes : Buffer :=
  Buffer.ofList
    [2, 255, 254, 200, 0, 7, 1, 63, 192, 0, 0, 0, 0, 0, 0, 8, 2, 3, 104, 195, 169, 0, 0, 0]

theorem message_written : layout.toBytes message = .ok messageBytes := by decide +kernel

end Sample

end RecordCodec
