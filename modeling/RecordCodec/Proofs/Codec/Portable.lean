import RecordCodec.Proofs.Bytes.Alike
import RecordCodec.Proofs.Codec.Extent
import RecordCodec.Proofs.Codec.Settled

/-!
# Reading depends on the bytes that are read

The tag of a union is read before it is known how long the variant is, but it
lies inside every variant, and padding is tested inside of slots only.  So
reading sees nothing but the bytes that it takes, and where these lie in the
buffer shows in no value.
-/

namespace RecordCodec

/-- A value that is read from the first buffer is read wherever the second one
has the bytes that were read. -/
def Layout.Portable (options : DecodeOptions) (first second : Buffer) (layout : Layout) : Prop :=
  ∀ start other value used, layout.read options first start = .ok (value, used) →
    first.Alike start second other used → layout.read options second other = .ok (value, used)

theorem firstNonZero?_eq_none_iff {bytes : Buffer} {offset : Nat} :
    firstNonZero? bytes offset = none ↔ bytes.toList.findIdx? (· != 0) = none := by
  rw [firstNonZero?, Option.map_eq_none_iff]

section Field

variable {options : DecodeOptions} {first second : Buffer} {start other : Nat} {element : Layout}
  {value : Value}

theorem readSlot_of_alike (wellFormed : element.WellFormed)
    (portable : element.Portable options first second)
    (alike : first.Alike start second other element.slotLength)
    (read : readSlot options first (element.read options first) element start = .ok value) :
    readSlot options second (element.read options second) element other = .ok value := by
  obtain ⟨used, read, clean⟩ := readSlot_eq_ok_iff.mp read
  have inside := (wellFormed.extent_of_read read).2
  refine readSlot_eq_ok_iff.mpr ⟨used, portable _ _ _ _ read (alike.front inside), fun strict => ?_⟩
  have behind := alike.part used (element.slotLength - used) (by omega)
  rw [behind.slice_eq, firstNonZero?_eq_none_iff]
  exact firstNonZero?_eq_none_iff.mp (clean strict)

theorem readField_of_alike (wellFormed : element.WellFormed)
    (portable : element.Portable options first second) {count : Option Nat}
    (alike : first.Alike start second other (element.slotLength * count.getD 1))
    (read : readField options first (element.read options first) element count start = .ok value) :
    readField options second (element.read options second) element count other = .ok value := by
  cases count with
  | none =>
      rw [Option.getD_none, Nat.mul_one] at alike
      exact readSlot_of_alike wellFormed portable alike read
  | some count =>
      rw [Option.getD_some] at alike
      cases isChar : element.isChar with
      | true =>
          rw [slotLength_of_isChar isChar, Nat.one_mul] at alike
          simp only [readField, isChar, if_true, TextField.read, TextField.readNumbers,
            alike.read_eq] at read ⊢
          exact read
      | false =>
          simp only [readField, isChar, Bool.false_eq_true, if_false, bind_eq_ok, pure_eq_ok,
            mapM_eq_ok] at read ⊢
          obtain ⟨list, reserved, items, each, rfl⟩ := read
          have both := (List.forall₂_and_left _ _).mpr
            ⟨fun index among => List.mem_range.mp among, each⟩
          refine ⟨list, reserved, items, both.imp ?_, rfl⟩
          rintro index item ⟨bound, read⟩
          exact readSlot_of_alike wellFormed portable (alike.part _ _ (slot_le _ bound)) read

end Field

theorem FieldLayout.Tile.le_field {fields : List FieldLayout} {start stop : Nat}
    (tile : FieldLayout.Tile fields start stop) {field : FieldLayout} (member : field ∈ fields) :
    start ≤ field.offset := by
  induction fields generalizing start with
  | nil => cases member
  | cons first rest ih =>
      obtain ⟨placed, -, tile⟩ := tile
      rcases List.mem_cons.mp member with rfl | inRest
      · exact Nat.le_of_eq placed.symm
      · exact Nat.le_trans (Nat.le_add_right _ _) (ih tile inRest)

section Layouts

variable {options : DecodeOptions} {first second : Buffer}

/-- Fields that lie one behind the other are read wherever their bytes are. -/
theorem FieldLayout.readAll_of_alike {fields : List FieldLayout} {lower upper : Nat}
    (tile : FieldLayout.Tile fields lower upper)
    (elements : ∀ field ∈ fields, field.element.WellFormed)
    (portable : ∀ field ∈ fields, field.element.Portable options first second)
    {start other : Nat}
    (alike : first.Alike (start + lower) second (other + lower) (upper - lower))
    {values : List FieldValue}
    (read : FieldLayout.readAll options first fields start = .ok values) :
    FieldLayout.readAll options second fields other = .ok values := by
  rw [FieldLayout.readAll_eq_ok_iff] at read ⊢
  have both := (List.forall₂_and_left _ _).mpr ⟨fun field among => among, read⟩
  refine both.imp ?_
  rintro field value ⟨among, name, fieldRead⟩
  refine ⟨name, readField_of_alike (elements field among) (portable field among) ?_ fieldRead⟩
  have above := tile.le_field among
  have below := tile.field_le among
  have part := alike.part (field.offset - lower) (field.element.slotLength * field.count.getD 1)
    (by omega)
  rwa [Nat.add_assoc, Nat.add_assoc, Nat.add_sub_of_le above] at part

theorem RecordLayout.read_of_alike {layout : RecordLayout} (tiled : layout.Tiled)
    (elements : ∀ field ∈ layout.fields, field.element.WellFormed)
    (portable : ∀ field ∈ layout.fields, field.element.Portable options first second)
    {start other : Nat} (alike : first.Alike start second other layout.length)
    {record : RecordValue} (read : RecordLayout.read options first layout start = .ok record) :
    RecordLayout.read options second layout other = .ok record := by
  obtain ⟨-, named, read⟩ := RecordLayout.read_eq_ok_iff.mp read
  exact RecordLayout.read_eq_ok_iff.mpr ⟨alike.room, named,
    FieldLayout.readAll_of_alike tiled.tile elements portable alike read⟩

theorem UnionLayout.portable (secondSmall : second.size < 2 ^ 64)
    {union : UnionLayout} (tagged : union.Tagged)
    (records : ∀ variant ∈ union.variants, (Layout.record variant.record).WellFormed)
    (portable : ∀ variant ∈ union.variants,
      (Layout.record variant.record).Portable options first second) :
    (Layout.union union).Portable options first second := by
  intro start other value used whole alike
  simp only [Layout.read] at whole ⊢
  obtain ⟨selected, member, payload, tag, read, rfl, rfl⟩ :=
    (UnionLayout.read_eq_ok_iff tagged).mp whole
  have inside := tagged.tag_le member (records selected member)
  have room := alike.room
  have again : RecordLayout.read options second selected.record (other + union.headerLength) =
      .ok payload := by
    have moved := portable selected member _ (other + union.headerLength) _ _
      (Layout.read_record_eq_ok_iff.mpr ⟨payload, read, rfl, rfl⟩) (alike.part _ _ (Nat.le_refl _))
    obtain ⟨_, again, ⟨⟩, -⟩ := Layout.read_record_eq_ok_iff.mp moved
    exact again
  refine (UnionLayout.read_eq_ok_iff tagged).mpr ⟨selected, member, payload, ?_, again, rfl, rfl⟩
  rw [tagged.readTag_eq (by omega), ConstantSet.read, (alike.part _ _ inside).readWord_eq]
  exact (tagged.readTag_eq_ok_iff.mp tag).2

/-- Reading depends only on the bytes that are read, for every type of a resolved schema. -/
theorem Layout.WellFormed.portable {layout : Layout} (wellFormed : layout.WellFormed)
    (options : DecodeOptions) (secondSmall : second.size < 2 ^ 64) :
    layout.Portable options first second := by
  induction wellFormed with
  | @scalar name scalar =>
      intro start other value used read alike
      simp only [Layout.read, Scalar.readScalar_eq, bind_eq_ok, pure_eq_ok, Prod.mk.injEq] at read ⊢
      obtain ⟨_, ⟨word, read, rfl⟩, rfl, rfl⟩ := read
      exact ⟨_, ⟨word, alike.readWord_eq.trans read, rfl⟩, rfl, rfl⟩
  | @enumeration constants =>
      intro start other value used read alike
      simp only [Layout.read, ConstantSet.read, bind_eq_ok, pure_eq_ok, Prod.mk.injEq] at read ⊢
      obtain ⟨constant, ⟨word, read, known⟩, rfl, rfl⟩ := read
      exact ⟨constant, ⟨word, alike.readWord_eq.trans read, known⟩, rfl, rfl⟩
  | @flags constants =>
      intro start other value used read alike
      simp only [Layout.read, ConstantSet.readFlags, bind_eq_ok, pure_eq_ok, Prod.mk.injEq]
        at read ⊢
      obtain ⟨names, ⟨word, read, known⟩, rfl, rfl⟩ := read
      exact ⟨names, ⟨word, alike.readWord_eq.trans read, known⟩, rfl, rfl⟩
  | record tiled elements portable =>
      intro start other value used whole alike
      obtain ⟨payload, read, rfl, rfl⟩ := Layout.read_record_eq_ok_iff.mp whole
      have again := RecordLayout.read_of_alike tiled elements portable alike read
      exact Layout.read_record_eq_ok_iff.mpr ⟨payload, again, rfl, rfl⟩
  | union tagged records portable =>
      exact UnionLayout.portable secondSmall tagged records portable

end Layouts

/-- The bytes of the received message between bytes of another buffer. -/
def Sample.moved : Buffer :=
  Buffer.ofList ([3, 3, 3] ++ (received.slice 1 24).toList)

namespace Schema

variable {declarations : List Declaration} {schema : Schema}

/-- A value is read unchanged wherever the bytes that were read for it lie. -/
theorem read_of_same_bytes (accepted : ofDeclarations declarations = .ok schema) {name : String}
    {layout : Layout} (found : schema.find? name = some layout) {options : DecodeOptions}
    {first second : Buffer} (secondSmall : second.size < 2 ^ 64) {start other : Nat} {value : Value} {used : Nat}
    (read : layout.read options first start = .ok (value, used))
    (room : other + used ≤ second.size)
    (same : second.slice other used = first.slice start used) :
    layout.read options second other = .ok (value, used) := by
  have wellFormed := wellFormed_of_find? accepted found
  have firstRoom := (wellFormed.extent_of_read read).1
  exact wellFormed.portable options secondSmall start other value used read
    (Buffer.alike_of_slice_eq firstRoom room same)

theorem sample_received_message_read_elsewhere :
    Sample.layout.read ⟨false, true⟩ Sample.received 1 = .ok (Sample.receivedMessage, 24) ∧
      Sample.moved.slice 3 24 = Sample.received.slice 1 24 ∧
      Sample.layout.read ⟨false, true⟩ Sample.moved 3 = .ok (Sample.receivedMessage, 24) := by
  have read : Sample.layout.read ⟨false, true⟩ Sample.received 1 =
      .ok (Sample.receivedMessage, 24) := by decide +kernel
  have same : Sample.moved.slice 3 24 = Sample.received.slice 1 24 := by decide
  exact ⟨read, same,
    read_of_same_bytes Sample.accepted Sample.found (by decide) read (by decide) same⟩

end Schema

end RecordCodec
