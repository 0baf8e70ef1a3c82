import RecordCodec.Proofs.Codec.Bounds
import RecordCodec.Proofs.Codec.Settled

/-!
# Reading a union at any offset

The tag of a union is read first, at its offset behind the offset of the union, and what is read
there decides what becomes of the union.  The place of the tag is a word, though, and it is summed
up before any bound is tested.  Near the greatest offset the sum of a tag inside the records may
pass all words.  The program stops at this instead of reporting that the bytes are missing.
-/

namespace RecordCodec

namespace UnionLayout

/-- The bytes from a place on spell a number that is no tag of the union. -/
def UnknownAt (union : UnionLayout) (buffer : Buffer) (place : Nat) : Prop :=
  ∀ constant ∈ union.tags.constants,
    constant.value.toNat ≠ buffer.numberAt place union.tags.width.bytes

/-- How reading a union ends once its tag has selected a variant. -/
structure EndsWith (union : UnionLayout) (options : DecodeOptions) (buffer : Buffer) (offset : Nat)
    (variant : VariantLayout) : Prop where
  short : buffer.size < offset + union.headerLength + variant.record.length →
    (Layout.union union).read options buffer offset =
      .error (.outOfBounds (offset + union.headerLength) variant.record.length buffer.size)
  inBounds : offset + union.headerLength + variant.record.length ≤ buffer.size →
    FailsWith Error.InBounds ((Layout.union union).read options buffer offset)
  selects : ∀ value used, (Layout.union union).read options buffer offset = .ok (value, used) →
    used = union.headerLength + variant.record.length ∧
      ∃ payload, value = .union union.name variant.name payload

/-- How reading a union is to end, by what is there at the place of its tag.  The place is a natural
number: it is not bounded by what a word holds. -/
structure SettledAt (union : UnionLayout) (options : DecodeOptions) (buffer : Buffer)
    (offset : Nat) : Prop where
  short : buffer.size < offset + union.tagOffset + union.tags.width.bytes →
    ∃ place need, (Layout.union union).read options buffer offset =
      .error (.outOfBounds place need buffer.size)
  unknown : offset + union.tagOffset + union.tags.width.bytes ≤ buffer.size →
    union.UnknownAt buffer (offset + union.tagOffset) →
      (Layout.union union).read options buffer offset =
        .error (.unknownDiscriminant union.tags.name
          (.ofNat (buffer.numberAt (offset + union.tagOffset) union.tags.width.bytes)))
  known : offset + union.tagOffset + union.tags.width.bytes ≤ buffer.size →
    ∀ constant ∈ union.tags.constants,
      constant.value.toNat =
          buffer.numberAt (offset + union.tagOffset) union.tags.width.bytes →
        ∃ variant ∈ union.variants, variant.name = constant.name ∧
          variant.tag = constant.value ∧ union.EndsWith options buffer offset variant

variable {union : UnionLayout} (tagged : union.Tagged) (options : DecodeOptions) {buffer : Buffer}
  {offset : Nat}

include tagged

section Place

/-! What the bytes at the place of the tag come to, if this place is a word. -/

variable (below : offset + union.tagOffset < 2 ^ 64)

include below

theorem read_of_no_room (short : buffer.size < offset + union.tagOffset + union.tags.width.bytes) :
    (Layout.union union).read options buffer offset =
      .error (.outOfBounds (offset + union.tagOffset) union.tags.width.bytes buffer.size) := by
  rw [Layout.read, read_eq, tagged.readTag_eq below, ConstantSet.read,
    Buffer.readWord_eq_error short]
  rfl

variable (room : offset + union.tagOffset + union.tags.width.bytes ≤ buffer.size)

include room

theorem read_of_unknown (unknown : union.UnknownAt buffer (offset + union.tagOffset)) :
    (Layout.union union).read options buffer offset =
      .error (.unknownDiscriminant union.tags.name
        (.ofNat (buffer.numberAt (offset + union.tagOffset) union.tags.width.bytes))) := by
  have none : union.tags.withValue?
      (.ofNat (buffer.numberAt (offset + union.tagOffset) union.tags.width.bytes)) = none := by
    refine List.find?_eq_none.mpr fun constant member => ?_
    have differs := unknown constant member
    have small := buffer.numberAt_lt room union.tags.width.atMostEight
    rw [beq_iff_eq, ← UInt64.toNat_inj, UInt64.toNat_ofNat', Nat.mod_eq_of_lt small]
    exact differs
  rw [Layout.read, read_eq, tagged.readTag_eq below, ConstantSet.read, Buffer.readWord_of_room room]
  simp only [bind, Except.bind, ConstantSet.constantOfWord, none]

/-- The constant that is there selects a variant, whose record is read. -/
theorem exists_read_of_known {constant : Constant} (member : constant ∈ union.tags.constants)
    (spelled : constant.value.toNat =
      buffer.numberAt (offset + union.tagOffset) union.tags.width.bytes) :
    ∃ variant ∈ union.variants, variant.name = constant.name ∧ variant.tag = constant.value ∧
      (Layout.union union).read options buffer offset = (do
        let payload ← variant.record.read options buffer (offset + union.headerLength)
        return (.union union.name variant.name payload,
          union.headerLength + variant.record.length)) := by
  obtain ⟨variant, among, tag⟩ := tagged.complete constant member
  have name := tagged.name_eq among member tag
  have selects : union.readTag buffer offset = .ok ⟨variant.name, variant.tag⟩ := by
    rw [name, tag, tagged.readTag_eq below]
    refine (ConstantSet.read_eq_ok_iff tagged.tags).mpr ⟨member, ?_⟩
    rw [Buffer.readWord_of_room room, ← spelled, UInt64.ofNat_toNat]
  exact ⟨variant, among, name, tag, read_of_tag tagged among selects⟩

end Place

omit tagged in
/-- The bounds of the record of a variant are tested when it is read. -/
theorem endsWith_of_read {options : DecodeOptions} {variant : VariantLayout}
    (stays : (Layout.record variant.record).StaysInside options buffer)
    (read : (Layout.union union).read options buffer offset = (do
      let payload ← variant.record.read options buffer (offset + union.headerLength)
      return (.union union.name variant.name payload,
        union.headerLength + variant.record.length))) :
    union.EndsWith options buffer offset variant := by
  constructor
  · intro short
    have failed : (Layout.record variant.record).read options buffer
        (offset + union.headerLength) = .error _ := Layout.read_eq_error nofun short
    rw [read, Layout.read_record_eq_error_iff.mp failed]
    rfl
  · intro room
    rw [read]
    have inside := stays _ room
    exact FailsWith.andReturn (fun error failed =>
      inside error (Layout.read_record_eq_error_iff.mpr failed)) _
  · intro value used done
    simp only [read, bind_eq_ok, pure_eq_ok, Prod.mk.injEq] at done
    obtain ⟨payload, -, rfl, rfl⟩ := done
    exact ⟨rfl, payload, rfl⟩

end UnionLayout

namespace Schema

variable {declarations : List Declaration} {schema : Schema}

/-- As long as the place of the tag is a word, reading ends as it is to end. -/
theorem settledAt_of_word (accepted : ofDeclarations declarations = .ok schema) {name : String}
    {union : UnionLayout} (found : schema.find? name = some (.union union)) {buffer : Buffer}
    (small : buffer.size < 2 ^ 64) (options : DecodeOptions) {offset : Nat}
    (word : offset + union.tagOffset < 2 ^ 64) : union.SettledAt options buffer offset := by
  cases wellFormed_of_find? accepted found with
  | union tagged records =>
      constructor
      · intro short
        exact ⟨_, _, UnionLayout.read_of_no_room tagged options word short⟩
      · intro room unknown
        exact UnionLayout.read_of_unknown tagged options word room unknown
      · intro room constant member spelled
        obtain ⟨variant, among, name, tag, read⟩ :=
          UnionLayout.exists_read_of_known tagged options word room member spelled
        have known := find?_of_within accepted found
          (.single (List.mem_cons_of_mem _ (List.mem_map_of_mem among)))
        exact ⟨variant, among, name, tag,
          UnionLayout.endsWith_of_read (staysInside_of_find? accepted small known) read⟩

/-- Reading a union ends as it is to end at just the offsets at which the place of its tag is a
word.  At any other the program stops. -/
theorem settledAt_iff (accepted : ofDeclarations declarations = .ok schema) {name : String}
    {union : UnionLayout} (found : schema.find? name = some (.union union)) {buffer : Buffer}
    (small : buffer.size < 2 ^ 64) (options : DecodeOptions) (offset : Nat) :
    (union.SettledAt options buffer offset ↔ offset + union.tagOffset < 2 ^ 64) ∧
      (2 ^ 64 ≤ offset + union.tagOffset →
        (Layout.union union).read options buffer offset =
          .error (.panicked .offsetOverflow)) := by
  have stops (beyond : 2 ^ 64 ≤ offset + union.tagOffset) :
      (Layout.union union).read options buffer offset = .error (.panicked .offsetOverflow) := by
    cases wellFormed_of_find? accepted found with
    | union tagged => exact tagged.read_of_overflow beyond
  refine ⟨⟨fun settled => ?_, settledAt_of_word accepted found small options⟩, stops⟩
  by_contra beyond
  obtain ⟨_, _, reported⟩ := settled.short (by omega)
  rw [stops (Nat.not_lt.mp beyond)] at reported
  cases reported

/-- The tag of a shape is two bytes behind its offset. -/
theorem sample_shape_settled :
    ∃ shape, Sample.shapeLayout = .union shape ∧
      shape.SettledAt .standard (.ofList [9, 0, 8, 2]) 1 ∧
      ¬shape.SettledAt .standard (.ofList [9, 0, 8, 2]) (2 ^ 64 - 2) := by
  have found : Sample.schema.find? "Shape" = some Sample.shapeLayout := by decide +kernel
  have small : (Buffer.ofList [9, 0, 8, 2]).size < 2 ^ 64 := by decide
  have settled := settledAt_iff Sample.accepted found small .standard
  exact ⟨_, rfl, (settled 1).1.mpr (by decide), mt (settled (2 ^ 64 - 2)).1.mp (by decide)⟩

/-- There are no bytes at the place of the tag, but the program stops before it looks for them. -/
theorem shape_tag_place_overflows :
    ofDeclarations Sample.declarations = .ok Sample.schema ∧
      Sample.schema.find? "Shape" = some Sample.shapeLayout ∧
      (∃ shape, Sample.shapeLayout = .union shape ∧
        (Buffer.ofList [9, 0, 8, 2]).size <
          2 ^ 64 - 2 + shape.tagOffset + shape.tags.width.bytes) ∧
      Sample.shapeLayout.read .standard (.ofList [9, 0, 8, 2]) (2 ^ 64 - 2) =
        .error (.panicked .offsetOverflow) := by
  refine ⟨Sample.accepted, ?_, ⟨_, rfl, ?_⟩, ?_⟩
  · decide +kernel
  · decide
  · decide +kernel

end Schema

end RecordCodec
