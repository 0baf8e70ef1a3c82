import RecordCodec.Proofs.Codec.Causes
import RecordCodec.Proofs.Codec.Extent
import RecordCodec.Proofs.Schema.Table

/-!
# Bounds are tested at the outside

A type with a fixed length is read from a buffer with that many bytes behind the offset, or it
fails right away.  Once there are as many, no part of it lacks any: fields and elements lie side
by side in the record, and a slot has room for each variant and for the tag, whichever of them
the bytes select.
-/

namespace RecordCodec

/-- Every cause but a lack of bytes. -/
def Error.InBounds : Error → Prop
  | .outOfBounds _ _ _ => False
  | _ => True

/-- Where the parts of a layout lie if it is read at an offset itself: the elements of the fields
of records, and the records of all variants of unions. -/
inductive Layout.PartAt (whole : Layout) (offset : Nat) : Layout → Nat → Prop
  | itself : PartAt whole offset whole offset
  | element {record : RecordLayout} {place : Nat} {field : FieldLayout} {index : Nat}
      (inside : PartAt whole offset (.record record) place) (member : field ∈ record.fields)
      (bound : index < field.count.getD 1) :
      PartAt whole offset field.element
        (place + field.offset + index * field.element.slotLength)
  | variant {union : UnionLayout} {place : Nat} {variant : VariantLayout}
      (inside : PartAt whole offset (.union union) place) (member : variant ∈ union.variants) :
      PartAt whole offset (.record variant.record) (place + union.headerLength)

namespace Buffer

variable {buffer : Buffer} {offset count : Nat}

theorem failsWith_require_of_room {errors : Error → Prop} {length need : Nat}
    (room : offset + need ≤ length) : FailsWith errors (Buffer.require length offset need) := by
  rw [require, if_pos room]
  exact .of_ok ()

theorem failsWith_read_of_room {errors : Error → Prop} (room : offset + count ≤ buffer.size) :
    FailsWith errors (buffer.read offset count) :=
  (failsWith_require_of_room room).andReturn _

theorem failsWith_readWord_of_room {errors : Error → Prop} (room : offset + count ≤ buffer.size) :
    FailsWith errors (buffer.readWord offset count) :=
  (failsWith_read_of_room room).andReturn _

end Buffer

section Reading

variable {options : DecodeOptions} {buffer : Buffer} {offset : Nat}

/-- A layout that is no union wants all its bytes at once. -/
theorem Layout.read_eq_error {layout : Layout} (plain : ∀ union, layout ≠ .union union)
    (short : buffer.size < offset + layout.slotLength) :
    layout.read options buffer offset =
      .error (.outOfBounds offset layout.slotLength buffer.size) := by
  cases layout with
  | scalar name scalar =>
      have short : buffer.size < offset + scalar.width := short
      rw [Layout.read, Scalar.readScalar_eq, Buffer.readWord_eq_error short]
      rfl
  | enumeration set =>
      have short : buffer.size < offset + set.width.bytes := short
      rw [Layout.read, ConstantSet.read, Buffer.readWord_eq_error short]
      rfl
  | flags set =>
      have short : buffer.size < offset + set.width.bytes := short
      rw [Layout.read, ConstantSet.readFlags, Buffer.readWord_eq_error short]
      rfl
  | record record =>
      rw [Layout.read_record_eq_error_iff]
      cases record with
      | mk name fields length =>
          have short : ¬offset + length ≤ buffer.size := Nat.not_le.mpr short
          rw [RecordLayout.read, Buffer.require, if_neg short]
          rfl
  | union union => exact absurd rfl (plain union)

/-- With a whole slot behind the offset, reading does not fail for want of bytes. -/
def Layout.StaysInside (options : DecodeOptions) (buffer : Buffer) (layout : Layout) : Prop :=
  ∀ offset, offset + layout.slotLength ≤ buffer.size →
    FailsWith Error.InBounds (layout.read options buffer offset)

theorem Layout.StaysInside.failsWith_readField {element : Layout} {count : Option Nat}
    (stays : element.StaysInside options buffer)
    (room : offset + element.slotLength * count.getD 1 ≤ buffer.size) :
    FailsWith Error.InBounds
      (readField options buffer (element.read options buffer) element count offset) := by
  apply RecordCodec.failsWith_readField
  · exact fun _ _ => True.intro
  · intro isChar
    rw [slotLength_of_isChar isChar, Nat.one_mul] at room
    exact Buffer.failsWith_read_of_room room
  · exact fun _ _ _ => failsWith_reserveItems fun _ => True.intro
  · intro index bound
    have inside := slot_le element.slotLength bound
    exact stays _ (by omega)

theorem FieldLayout.failsWith_readAll_of_fields {errors : Error → Prop} {fields : List FieldLayout}
    (each : ∀ field ∈ fields, FailsWith errors (readField options buffer
      (field.element.read options buffer) field.element field.count (offset + field.offset))) :
    FailsWith errors (FieldLayout.readAll options buffer fields offset) := by
  induction fields with
  | nil => exact .of_ok []
  | cons field rest ih =>
      have first := each field List.mem_cons_self
      have others := ih fun other member => each other (List.mem_cons_of_mem _ member)
      cases field with
      | mk name element count fieldOffset length =>
          rw [FieldLayout.readAll]
          exact first.bind fun _ _ => others.andReturn _

theorem RecordLayout.staysInside {record : RecordLayout} (tiled : record.Tiled)
    (elements : ∀ field ∈ record.fields, field.element.StaysInside options buffer) :
    (Layout.record record).StaysInside options buffer := by
  intro offset room
  have fields : ∀ field ∈ record.fields, FailsWith Error.InBounds (readField options buffer
      (field.element.read options buffer) field.element field.count (offset + field.offset)) := by
    intro field member
    have inside := tiled.tile.field_le member
    have whole : offset + record.length ≤ buffer.size := room
    exact (elements field member).failsWith_readField (by omega)
  cases record with
  | mk name fieldLayouts length =>
      rw [Layout.read, RecordLayout.read]
      exact ((Buffer.failsWith_require_of_room room).bind fun _ _ =>
        (FieldLayout.failsWith_readAll_of_fields fields).andReturn _).andReturn _

/-- The tag is read inside the slot, and so is the record, whichever the tag selects. -/
theorem UnionLayout.staysInside (small : buffer.size < 2 ^ 64) {union : UnionLayout}
    (tagged : union.Tagged)
    (tagInside : union.tagOffset + union.tags.width.bytes ≤ (Layout.union union).slotLength)
    (records : ∀ variant ∈ union.variants,
      (Layout.record variant.record).StaysInside options buffer) :
    (Layout.union union).StaysInside options buffer := by
  intro offset room
  have positive := union.tags.width.positive
  rw [Layout.read, UnionLayout.read_eq, tagged.readTag_eq (by omega)]
  refine (union.tags.failsWith_read (fun _ _ => True.intro)
    (Buffer.failsWith_readWord_of_room (by omega))).bind fun constant selects => ?_
  obtain ⟨declared, -⟩ := (ConstantSet.read_eq_ok_iff tagged.tags).mp selects
  obtain ⟨variant, member, same⟩ := tagged.complete constant declared
  rw [VariantLayout.readTagged_eq (tagged.withTag?_eq_some.mpr ⟨member, same⟩)
    (tagged.recorded variant member)]
  have fits := UnionLayout.length_le_slotLength member
  have recordRoom : offset + union.headerLength + variant.record.length ≤ buffer.size := by omega
  have record := records variant member _ recordRoom
  exact FailsWith.andReturn (fun error failed =>
    record error (Layout.read_record_eq_error_iff.mpr failed)) _

end Reading

namespace Schema

variable {declarations : List Declaration} {schema : Schema}

section Accepted

variable (accepted : ofDeclarations declarations = .ok schema)

include accepted

/-- A union with its tag inside the records has records. -/
theorem exists_variant_of_path {name : String} {union : UnionLayout}
    (found : schema.find? name = some (.union union)) {path : List String} {offset : Nat}
    (embedded : union.discriminator = .path path offset) : ∃ variant, variant ∈ union.variants := by
  rcases exists_assembled_of_find? accepted found with
    ⟨_, _, ⟨⟩⟩ | ⟨declaration, -, notAlias, parts, assembled⟩
  match declaration with
  | .primitive _ _ | .record _ _ _ => simp [Declaration.assemble] at assembled
  | .alias _ _ => cases notAlias
  | .enumeration _ _ _ isFlags =>
      cases isFlags <;> simp [Declaration.assemble] at assembled
  | .union name discriminator discriminant members =>
      simp only [Declaration.assemble, bind_eq_ok, pure_eq_ok] at assembled
      obtain ⟨made, assembled, same⟩ := assembled
      obtain rfl : made = union := Layout.union.inj same
      obtain ⟨resolved, place, tags, -, placed, built⟩ := Declaration.members_of_unionOf assembled
      have gathers := UnionLayout.gathers_of_ofMembers built
      rcases Declaration.tagOf_spec placed with
        ⟨key, _, -, rfl, -⟩ | ⟨_, _, -, -, nonempty, -⟩
      · rw [gathers.discriminator] at embedded
        cases embedded
      · apply List.exists_mem_of_ne_nil
        intro none
        have names := gathers.names
        rw [none, List.map_nil, eq_comm, List.map_eq_nil_iff] at names
        exact nonempty names

/-- The slot of a union has room for the tag. -/
theorem tag_le_slotLength {name : String} {union : UnionLayout}
    (found : schema.find? name = some (.union union)) :
    union.tagOffset + union.tags.width.bytes ≤ (Layout.union union).slotLength := by
  cases wellFormed_of_find? accepted found with
  | union tagged records =>
      cases shape : union.discriminator with
      | key key =>
          have header := (UnionLayout.slotLength_le_iff.mp (Nat.le_refl
            (Layout.union union).slotLength)).1
          simp only [UnionLayout.headerLength, shape] at header
          simp only [UnionLayout.tagOffset, shape]
          omega
      | path path offset =>
          obtain ⟨variant, member⟩ := exists_variant_of_path accepted found shape
          have inside := tagged.tag_le member (records variant member)
          exact Nat.le_trans inside (UnionLayout.length_le_slotLength member)

theorem staysInside_of_find? {options : DecodeOptions} {buffer : Buffer}
    (small : buffer.size < 2 ^ 64) {name : String} {layout : Layout}
    (found : schema.find? name = some layout) : layout.StaysInside options buffer := by
  have wellFormed := wellFormed_of_find? accepted found
  induction wellFormed generalizing name with
  | scalar =>
      intro offset room
      rw [Layout.read, Scalar.readScalar_eq]
      exact ((Buffer.failsWith_readWord_of_room room).andReturn _).andReturn _
  | @enumeration set =>
      intro offset room
      rw [Layout.read]
      exact (set.failsWith_read (fun _ _ => True.intro)
        (Buffer.failsWith_readWord_of_room room)).andReturn _
  | @flags set =>
      intro offset room
      rw [Layout.read]
      exact (set.failsWith_readFlags (fun _ _ => True.intro)
        (Buffer.failsWith_readWord_of_room room)).andReturn _
  | record tiled _ ih =>
      apply RecordLayout.staysInside tiled
      intro field member
      exact ih field member
        (find?_of_within accepted found (.single (List.mem_map_of_mem member)))
  | union tagged _ ih =>
      apply UnionLayout.staysInside small tagged (tag_le_slotLength accepted found)
      intro variant member
      exact ih variant member (find?_of_within accepted found
        (.single (List.mem_cons_of_mem _ (List.mem_map_of_mem member))))

/-- Parts are types of the schema, and they lie inside of the whole. -/
theorem inside_of_partAt {name : String} {layout part : Layout} {offset place : Nat}
    (found : schema.find? name = some layout) (lies : layout.PartAt offset part place) :
    schema.find? part.name = some part ∧
      place + part.slotLength ≤ offset + layout.slotLength := by
  induction lies with
  | itself => exact ⟨find?_of_within accepted found .refl, Nat.le_refl _⟩
  | @element record place field index _ member bound ih =>
      obtain ⟨known, room⟩ := ih
      refine ⟨find?_of_within accepted known (.single (List.mem_map_of_mem member)), ?_⟩
      have inside := (wellFormed_of_find? accepted known).tiled.tile.field_le member
      have slot := slot_le field.element.slotLength bound
      have length : (Layout.record record).slotLength = record.length := rfl
      omega
  | @variant union place variant _ member ih =>
      obtain ⟨known, room⟩ := ih
      refine ⟨find?_of_within accepted known
        (.single (List.mem_cons_of_mem _ (List.mem_map_of_mem member))), ?_⟩
      have fits := UnionLayout.length_le_slotLength member
      have length : (Layout.record variant.record).slotLength = variant.record.length := rfl
      omega

end Accepted

/-- The bounds of a type that is no union are tested once.  Either there are too few bytes for the
whole of it, and reading fails with this, or no part of it lacks any bytes, be it a field, one of
its elements, or any variant of a union. -/
theorem bounds_tested_outside (accepted : ofDeclarations declarations = .ok schema)
    {name : String} {layout : Layout} (found : schema.find? name = some layout)
    (plain : ∀ union, layout ≠ .union union) {buffer : Buffer} (small : buffer.size < 2 ^ 64)
    (options : DecodeOptions) (offset : Nat) :
    layout.lengthContract = .fixed layout.slotLength ∧
    (buffer.size < offset + layout.slotLength →
      layout.read options buffer offset =
        .error (.outOfBounds offset layout.slotLength buffer.size)) ∧
    (offset + layout.slotLength ≤ buffer.size →
      ∀ part place, layout.PartAt offset part place →
        FailsWith Error.InBounds (part.read options buffer place) ∧
        ∀ record, part = .record record → ∀ field ∈ record.fields,
          FailsWith Error.InBounds (readField options buffer (field.element.read options buffer)
            field.element field.count (place + field.offset))) := by
  refine ⟨?_, Layout.read_eq_error plain, ?_⟩
  · cases layout with
    | scalar _ _ | enumeration _ | flags _ | record _ => rfl
    | union union => exact absurd rfl (plain union)
  · intro room part place lies
    obtain ⟨known, inside⟩ := inside_of_partAt accepted found lies
    have whole : place + part.slotLength ≤ buffer.size := Nat.le_trans inside room
    refine ⟨staysInside_of_find? accepted small known place whole, ?_⟩
    rintro record rfl field member
    have element := find?_of_within accepted known (.single (List.mem_map_of_mem member))
    have within := (wellFormed_of_find? accepted known).tiled.tile.field_le member
    have length : (Layout.record record).slotLength = record.length := rfl
    exact (staysInside_of_find? accepted small element).failsWith_readField (by omega)

/-- A scene at the end of a buffer.  The second shape in it lies behind the slot of the first. -/
theorem sample_scene_bounds :
    (Layout.record Sample.scene).read .standard (Buffer.zeros 30) 8 =
      .error (.outOfBounds 8 23 30) ∧
    FailsWith Error.InBounds (Sample.shapeLayout.read .standard (Buffer.zeros 30) 20) := by
  have found : Sample.schema.find? "Scene" = some (.record Sample.scene) := by decide +kernel
  have small : (Buffer.zeros 30).size < 2 ^ 64 := by decide
  obtain ⟨-, short, -⟩ :=
    bounds_tested_outside Sample.accepted found nofun small .standard 8
  obtain ⟨-, -, inside⟩ :=
    bounds_tested_outside Sample.accepted found nofun small .standard 7
  have shapes : (⟨"shapes", Sample.shapeLayout, some 2, 3, 20⟩ : FieldLayout) ∈
      Sample.scene.fields := by simp [Sample.scene]
  have second : (Layout.record Sample.scene).PartAt 7 Sample.shapeLayout 20 :=
    .element .itself shapes (by decide : 1 < 2)
  exact ⟨short (by decide), (inside (by decide) _ _ second).1⟩

end Schema

end RecordCodec
