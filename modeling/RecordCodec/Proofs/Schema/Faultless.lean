import RecordCodec.Proofs.Codec.Bounds
import RecordCodec.Proofs.Codec.Guarded.Write
import RecordCodec.Proofs.Document.Causes

/-!
# An accepted schema has no faults left

Resolving has settled what a union consists of, so the looking up of its tag and
of its members never fails.  Nothing that is done with a value meets a fault of
the schema, a slot that leaves the buffer or a buffer that is too short for what
was announced; what fails, fails because of the bytes, the value or the document.

Only reading has two more ends, and with both the program stops.  The place of a
tag may be past all words, though for no union inside another type.  And an
array may have more elements without bytes than a list can hold.
-/

namespace RecordCodec

/-- A buffer of eight bytes has room for every scalar: only its image can be missing. -/
theorem Scalar.run_write_scratch {scalar : Scalar} {value : Value} {error : Error} :
    (scalar.write value 0).run (Buffer.zeros 8) = .error error ↔
      scalar.image value = .error error := by
  unfold Scalar.write
  cases image : scalar.image value with
  | error other =>
      change Except.error other = Except.error error ↔ _
      simp
  | ok bytes =>
      have room : 0 + bytes.length ≤ (Buffer.zeros 8).size := by
        have atMostEight := scalar.width_le_eight
        rw [Scalar.length_of_image image, Buffer.size_zeros]
        omega
      simp [Writing.run, Writing.Puts.write _ room]

/-- A buffer of eight bytes has room for every word: only the word can be missing. -/
theorem ConstantSet.run_write_scratch {set : ConstantSet} {word : Except Error UInt64}
    {error : Error} :
    (set.write word 0).run (Buffer.zeros 8) = .error error ↔ word = .error error := by
  unfold ConstantSet.write
  cases word with
  | error other =>
      change Except.error other = Except.error error ↔ _
      simp
  | ok word =>
      have room : 0 + (BigEndian.bytes set.width.bytes word).length ≤ (Buffer.zeros 8).size := by
        have atMostEight := set.width.atMostEight
        rw [BigEndian.length_bytes, Buffer.size_zeros]
        omega
      simp [Writing.run, Writing.Puts.writeWord _ _ _ room]

/-- Where there is room for it, writing a value fails only because of the value. -/
theorem Layout.WellFormed.failsWith_toBytes {layout : Layout} (wellFormed : layout.WellFormed)
    (value : Value) : FailsWith Error.OfValue (layout.toBytes value) := by
  refine (layout.failsWith_encodedLength value).bind fun length announced => ?_
  have safe := (wellFormed.safe_write .io announced 0 (Buffer.zeros length) (by simp)).2
  refine FailsWith.andReturn (fun error failed => ?_) _
  unfold Writing.run at failed
  cases run : layout.write value 0 (Buffer.zeros length) with
  | ok used after => simp [run] at failed
  | error other after =>
      simp only [run] at failed
      obtain rfl := Except.error.inj failed
      exact safe other after run

/-- Why a type is not read at an offset: because of the bytes, or because the program stops. -/
inductive Layout.ReadFailure (whole : Layout) (offset : Nat) : Error → Prop
  | bytes {error : Error} (cause : error.OfBytes) : ReadFailure whole offset error
  /-- The type is a union, and the place of its tag is past all words. -/
  | place {union : UnionLayout} (same : whole = .union union)
      (beyond : 2 ^ 64 ≤ offset + union.tagOffset) :
      ReadFailure whole offset (.panicked .offsetOverflow)
  /-- A record in the type has an array of more elements than a list can hold. -/
  | list {record : RecordLayout} {field : FieldLayout} {count : Nat}
      (inside : (Layout.record record).Within whole) (member : field ∈ record.fields)
      (counted : field.count = some count) (noText : field.element.isChar = false)
      (long : itemLimit < count) : ReadFailure whole offset (.panicked .capacityOverflow)

/-- A failure of a part is one of the whole, unless the place of a tag is the cause. -/
theorem Layout.ReadFailure.of_part {part whole : Layout} {place offset : Nat} {error : Error}
    (failure : part.ReadFailure place error) (direct : part ∈ whole.parts)
    (word : ∀ union, part = .union union → place + union.tagOffset < 2 ^ 64) :
    whole.ReadFailure offset error := by
  cases failure with
  | bytes cause => exact .bytes cause
  | place same beyond => exact absurd (word _ same) (Nat.not_lt.mpr beyond)
  | list inside member counted noText long =>
      exact .list (inside.tail direct) member counted noText long

namespace Sample

/-- Records without bytes, as many as 64 bits can count. -/
def countless : List Declaration :=
  [.record "Empty" none [], .record "Many" none [⟨"all", "Empty", some 18446744073709551615⟩]]

/-- The schema with those records. -/
def countlessSchema : Schema :=
  (Schema.ofDeclarations countless).toOption.getD ⟨[], []⟩

def many : Layout :=
  .record ⟨"Many", [⟨"all", .record ⟨"Empty", [], 0⟩, some 18446744073709551615, 0, 0⟩], 0⟩

end Sample

section Reading

variable {options : DecodeOptions} {buffer : Buffer} {offset : Nat}

/-- A record fails for want of bytes, because of a list, or as an element that it has room for. -/
theorem RecordLayout.Tiled.failsWith_read {record : RecordLayout} (tiled : record.Tiled)
    (elements : ∀ field ∈ record.fields, ∀ place, place + field.element.slotLength ≤ buffer.size →
      FailsWith ((Layout.record record).ReadFailure offset)
        (field.element.read options buffer place)) :
    FailsWith ((Layout.record record).ReadFailure offset)
      ((Layout.record record).read options buffer offset) := by
  have fields (room : offset + record.length ≤ buffer.size) : ∀ field ∈ record.fields,
      FailsWith ((Layout.record record).ReadFailure offset) (readField options buffer
        (field.element.read options buffer) field.element field.count (offset + field.offset)) := by
    intro field member
    have inside := tiled.tile.field_le member
    refine failsWith_readField (fun _ _ => .bytes True.intro) ?_ ?_ ?_
    · exact fun _ error failed => .bytes (Buffer.failsWith_read _ _ error failed)
    · exact fun count counted noText =>
        failsWith_reserveItems fun long => .list .refl member counted noText long
    · intro index bound
      have slot := slot_le field.element.slotLength bound
      exact elements field member _ (by omega)
  cases record with
  | mk name fieldLayouts length =>
      rw [Layout.read, RecordLayout.read]
      refine FailsWith.andReturn (.bind ?_ fun _ passed => ?_) _
      · exact fun error failed => .bytes (Buffer.failsWith_require _ _ _ error failed)
      · have room := require_eq_ok_iff.mp passed
        exact (FieldLayout.failsWith_readAll_of_fields (fields room)).andReturn _

/-- A union fails because of its tag or as the record that the tag selects. -/
theorem UnionLayout.Tagged.failsWith_read {union : UnionLayout} (tagged : union.Tagged)
    (records : ∀ variant ∈ union.variants, FailsWith ((Layout.union union).ReadFailure offset)
      (variant.record.read options buffer (offset + union.headerLength))) :
    FailsWith ((Layout.union union).ReadFailure offset)
      ((Layout.union union).read options buffer offset) := by
  by_cases below : offset + union.tagOffset < 2 ^ 64
  · rw [Layout.read, UnionLayout.read_eq, tagged.readTag_eq below]
    refine (union.tags.failsWith_read (fun _ _ => .bytes True.intro) fun error failed =>
      .bytes (Buffer.failsWith_readWord _ _ error failed)).bind fun constant selects => ?_
    obtain ⟨declared, -⟩ := (ConstantSet.read_eq_ok_iff tagged.tags).mp selects
    obtain ⟨variant, member, same⟩ := tagged.complete constant declared
    rw [VariantLayout.readTagged_eq (tagged.withTag?_eq_some.mpr ⟨member, same⟩)
      (tagged.recorded variant member)]
    exact (records variant member).andReturn _
  · rw [tagged.read_of_overflow (Nat.not_lt.mp below)]
    exact .of_error (.place rfl (Nat.not_lt.mp below))

end Reading

namespace Schema

/-- Nothing that is done with the values of a type meets a fault of the schema. -/
structure Faultless (layout : Layout) : Prop where
  reads : ∀ options buffer offset, buffer.size < 2 ^ 64 →
    FailsWith (layout.ReadFailure offset) (layout.read options buffer offset)
  writes : ∀ value, FailsWith Error.OfValue (layout.toBytes value)
  shows : ∀ value, FailsWith Error.OfValue (layout.document value)
  rebuilds : ∀ json path, FailsWith Error.OfDocument (layout.ofDocument json path)
  /-- Every slot that is read lies in the buffer, and every tag that is read selects a record. -/
  readsInside : ∀ fault options buffer offset,
    layout.readGuarded fault options buffer offset = layout.read options buffer offset
  /-- Every slot that is written lies in a buffer that has room for the announced length. -/
  writesInside : ∀ fault value length offset buffer, layout.encodedLength value = .ok length →
    offset + length ≤ buffer.size →
      layout.writeGuarded fault value offset buffer = layout.write value offset buffer
  /-- Eight bytes have room for every scalar and every word. -/
  scratch : (∀ (scalar : Scalar) value error,
      (scalar.write value 0).run (Buffer.zeros 8) = .error error ↔
        scalar.image value = .error error) ∧
    ∀ (constants : ConstantSet) word error,
      (constants.write word 0).run (Buffer.zeros 8) = .error error ↔ word = .error error

variable {declarations : List Declaration} {schema : Schema}

section Accepted

variable (accepted : ofDeclarations declarations = .ok schema) {options : DecodeOptions}
  {buffer : Buffer} (small : buffer.size < 2 ^ 64) {name : String} {layout : Layout}
  (found : schema.find? name = some layout)

include accepted small found

/-- Where the buffer has room for the slot of a union, the place of the tag is a word. -/
theorem tagPlace_lt_of_room {place : Nat} (room : place + layout.slotLength ≤ buffer.size)
    (union : UnionLayout) (same : layout = .union union) : place + union.tagOffset < 2 ^ 64 := by
  subst same
  have inside := tag_le_slotLength accepted found
  omega

/-- Why reading fails, by what the layout is made of.  A part is read only where the record around
it has room for its slot, so only the outermost tag may be past all words. -/
theorem failsWith_read_of_find? (offset : Nat) :
    FailsWith (layout.ReadFailure offset) (layout.read options buffer offset) := by
  have wellFormed := wellFormed_of_find? accepted found
  induction wellFormed generalizing name offset with
  | scalar =>
      rw [Layout.read, Scalar.readScalar_eq]
      exact fun error failed => .bytes
        (((Buffer.failsWith_readWord _ _).andReturn _).andReturn _ error failed)
  | @enumeration set =>
      rw [Layout.read]
      exact fun error failed => .bytes
        ((set.failsWith_read (fun _ _ => True.intro) (Buffer.failsWith_readWord _ _)).andReturn _
          error failed)
  | @flags set =>
      rw [Layout.read]
      exact fun error failed => .bytes
        ((set.failsWith_readFlags (fun _ _ => True.intro)
          (Buffer.failsWith_readWord _ _)).andReturn _ error failed)
  | @record record tiled _ ih =>
      refine tiled.failsWith_read fun field member place room error failed => ?_
      have direct : field.element ∈ (Layout.record record).parts := List.mem_map_of_mem member
      have known := find?_of_within accepted found (.single direct)
      exact (ih field member known place error failed).of_part direct
        (tagPlace_lt_of_room accepted small known room)
  | @union union tagged _ ih =>
      refine tagged.failsWith_read fun variant member error failed => ?_
      have direct : .record variant.record ∈ (Layout.union union).parts :=
        List.mem_cons_of_mem _ (List.mem_map_of_mem member)
      have known := find?_of_within accepted found (.single direct)
      exact (ih variant member known _ error (Layout.read_record_eq_error_iff.mpr failed)).of_part
        direct nofun

end Accepted

/-- No type of an accepted schema has a fault left that shows only when it is used. -/
theorem faultless_of_ofDeclarations (accepted : ofDeclarations declarations = .ok schema)
    {name : String} {layout : Layout} (found : schema.find? name = some layout) :
    Faultless layout := by
  have wellFormed := wellFormed_of_find? accepted found
  exact
    { reads := fun _ _ offset small => failsWith_read_of_find? accepted small found offset
      writes := wellFormed.failsWith_toBytes
      shows := wellFormed.failsWith_document
      rebuilds := wellFormed.failsWith_ofDocument
      readsInside := fun fault options buffer offset => wellFormed.readsSafely offset
      writesInside := fun fault value length offset buffer announced room =>
        (wellFormed.safe_write _ announced offset buffer room).1
      scratch :=
        ⟨fun _ _ _ => Scalar.run_write_scratch, fun _ _ _ => ConstantSet.run_write_scratch⟩ }

theorem sample_message_faultless : Faultless Sample.layout :=
  faultless_of_ofDeclarations Sample.accepted Sample.found

/-- The program stops at the tag of a shape and at a list of empty records, although both types
are accepted and no bytes are at fault. -/
theorem read_stops_in_accepted_schemas :
    (ofDeclarations Sample.declarations = .ok Sample.schema ∧
      Sample.schema.find? "Shape" = some Sample.shapeLayout ∧
      ¬FailsWith Error.OfBytes
        (Sample.shapeLayout.read .standard (.ofList [9, 0, 8, 2]) (2 ^ 64 - 2))) ∧
    ofDeclarations Sample.countless = .ok Sample.countlessSchema ∧
      Sample.countlessSchema.find? "Many" = some Sample.many ∧
      ¬FailsWith Error.OfBytes (Sample.many.read .standard (.ofList []) 0) := by
  refine ⟨⟨Sample.accepted, ?_, fun fails => ?_⟩, eq_ok_getD ?_ _, ?_, fun fails => ?_⟩
  · decide +kernel
  · exact fails (.panicked .offsetOverflow) (by decide +kernel)
  · decide +kernel
  · decide +kernel
  · exact fails (.panicked .capacityOverflow) (by decide +kernel)

end Schema

end RecordCodec
