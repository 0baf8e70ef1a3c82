import RecordCodec.Proofs.Bytes.Buffer
import RecordCodec.Proofs.Codec.Decode
import RecordCodec.Proofs.Codec.Image
import RecordCodec.Proofs.Codec.Scalar

/-!
# How far reading reaches

What is read lies inside the buffer and takes no more bytes than a slot has.
The tag of a union lies in front of the record or inside it, so it is among
the bytes of every variant.
-/

namespace RecordCodec

/-- The enumeration at the end of a path lies inside the record. -/
theorem RecordLayout.Leads.tag_le {record : RecordLayout} {path : List String}
    {tags : ConstantSet} {offset : Nat} (leads : record.Leads path tags offset)
    (wellFormed : (Layout.record record).WellFormed) :
    offset + tags.width.bytes ≤ record.length := by
  induction leads with
  | @here record field tags member plain shape =>
      have inside := wellFormed.tiled.tile.field_le member
      rw [plain, shape, Option.getD_none, Nat.mul_one] at inside
      exact inside
  | @through record inner field path tags offset member plain shape deeper ih =>
      have inside := wellFormed.tiled.tile.field_le member
      rw [plain, shape, Option.getD_none, Nat.mul_one] at inside
      have within := ih (wellFormed.inner member shape)
      have slot : (Layout.record inner).slotLength = inner.length := rfl
      omega

/-- The tag is among the bytes of every variant. -/
theorem UnionLayout.Tagged.tag_le {union : UnionLayout} (tagged : union.Tagged)
    {selected : VariantLayout} (member : selected ∈ union.variants)
    (wellFormed : (Layout.record selected.record).WellFormed) :
    union.tagOffset + union.tags.width.bytes ≤ union.headerLength + selected.record.length := by
  cases shape : union.discriminator with
  | key key =>
      simp only [tagOffset, headerLength, shape]
      omega
  | path path offset =>
      have inside := (tagged.leads member shape).tag_le wellFormed
      simp only [tagOffset, headerLength, shape]
      omega

/-- The slot of an element lies inside the slots of the array. -/
theorem slot_le (slot : Nat) {index count : Nat} (bound : index < count) :
    index * slot + slot ≤ slot * count := by
  rw [← Nat.succ_mul, Nat.mul_comm slot]
  exact Nat.mul_le_mul_right slot (Nat.succ_le_of_lt bound)

variable {options : DecodeOptions} {buffer : Buffer} {offset used : Nat} {value : Value}

theorem Buffer.room_of_readWord {width : Nat} {word : UInt64}
    (read : buffer.readWord offset width = .ok word) : offset + width ≤ buffer.size := by
  obtain ⟨bytes, rfl, holds, -⟩ := holds_of_readWord read
  exact holds.room

theorem Layout.WellFormed.extent_of_read {layout : Layout} (wellFormed : layout.WellFormed)
    (whole : layout.read options buffer offset = .ok (value, used)) :
    offset + used ≤ buffer.size ∧ used ≤ layout.slotLength := by
  cases wellFormed with
  | @scalar name scalar =>
      simp only [Layout.read, Scalar.readScalar_eq, bind_eq_ok, pure_eq_ok, Prod.mk.injEq] at whole
      obtain ⟨_, ⟨word, read, -⟩, -, rfl⟩ := whole
      exact ⟨Buffer.room_of_readWord read, Nat.le_refl _⟩
  | @enumeration constants distinct =>
      simp only [Layout.read, bind_eq_ok, pure_eq_ok, Prod.mk.injEq] at whole
      obtain ⟨constant, read, -, rfl⟩ := whole
      have word := ((ConstantSet.read_eq_ok_iff distinct).mp read).2
      exact ⟨Buffer.room_of_readWord word, Nat.le_refl _⟩
  | @flags constants distinct =>
      simp only [Layout.read, ConstantSet.readFlags, bind_eq_ok, pure_eq_ok, Prod.mk.injEq] at whole
      obtain ⟨names, ⟨word, read, -⟩, -, rfl⟩ := whole
      exact ⟨Buffer.room_of_readWord read, Nat.le_refl _⟩
  | @record record tiled elements =>
      obtain ⟨payload, read, -, rfl⟩ := Layout.read_record_eq_ok_iff.mp whole
      exact ⟨(RecordLayout.read_eq_ok_iff.mp read).1, Nat.le_refl _⟩
  | @union union tagged records =>
      obtain ⟨selected, member, payload, -, read, -, rfl⟩ :=
        (UnionLayout.read_eq_ok_iff tagged).mp whole
      have room := (RecordLayout.read_eq_ok_iff.mp read).1
      exact ⟨by omega, UnionLayout.length_le_slotLength member⟩

end RecordCodec
