import RecordCodec.Proofs.Codec.Equality
import RecordCodec.Proofs.Codec.Write

/-!
# Records written as concatenations

Fields are written in place, at offsets and strides that were settled when the
record was put together.  What comes of it is a concatenation: the bytes of a
record are those of its fields in their order, and those of an array are its
slots in theirs, each as it would be written alone.
-/

namespace RecordCodec

/-- The run is a slot that holds the bytes of the value and zeros behind them. -/
def Layout.FillsSlot (layout : Layout) (value : Value) (run : List UInt8) : Prop :=
  ∃ bytes, layout.toBytes value = .ok bytes ∧
    run = bytes.toList ++ List.replicate (layout.slotLength - bytes.size) 0

/-- The bytes of a value in a field: a slot, a text that zeros fill up, or one
slot for each item. -/
def FieldLayout.Encodes (field : FieldLayout) (value : Value) (bytes : List UInt8) : Prop :=
  match field.count with
  | none => field.element.FillsSlot value bytes
  | some count =>
      (field.element.isChar = true ∧ ∃ text, value = .text text ∧ text.utf8ByteSize ≤ count ∧
        bytes = text.toUTF8.data.toList ++ List.replicate (count - text.utf8ByteSize) 0) ∨
        ∃ items runs, value = .array items ∧ items.length = count ∧
          List.Forall₂ field.element.FillsSlot items runs ∧ bytes = runs.flatten

/-- A field with a value in it and the bytes that stand for the value. -/
structure FieldPart where
  field : FieldLayout
  value : Value
  bytes : List UInt8

/-- The bytes of a record: those of its declared fields, in their order. -/
def RecordLayout.Encodes (layout : RecordLayout) (value : Value) (bytes : List UInt8) : Prop :=
  ∃ (record : RecordValue) (parts : List FieldPart), value = .record record ∧
    record.type = layout.name ∧
    (∀ field ∈ record.fields, ∃ declared ∈ layout.fields, declared.name = field.name) ∧
    parts.map FieldPart.field = layout.fields ∧
    (∀ part ∈ parts, record.get? part.field.name = some part.value ∧
      part.field.Encodes part.value part.bytes) ∧
    bytes = parts.flatMap FieldPart.bytes

theorem Layout.WellFormed.fillsSlot_iff {layout : Layout} (wellFormed : layout.WellFormed)
    {value : Value} {run : List UInt8} :
    layout.FillsSlot value run ↔
      layout.Admits value ∧ run = slotImage layout.image layout.slotLength value := by
  simp only [Layout.FillsSlot, wellFormed.toBytes_eq_ok_iff]
  constructor
  · rintro ⟨_, ⟨admits, rfl⟩, rfl⟩
    exact ⟨admits, by simp [slotImage]⟩
  · rintro ⟨admits, rfl⟩
    exact ⟨_, ⟨admits, rfl⟩, by simp [slotImage]⟩

theorem Layout.WellFormed.forall₂_fillsSlot_iff {layout : Layout} (wellFormed : layout.WellFormed)
    {items : List Value} {runs : List (List UInt8)} :
    List.Forall₂ layout.FillsSlot items runs ↔
      (∀ item ∈ items, layout.Admits item) ∧
        runs = items.map (slotImage layout.image layout.slotLength) := by
  induction items generalizing runs with
  | nil => simp
  | cons item rest ih =>
      simp only [List.forall₂_cons_left_iff, ih, wellFormed.fillsSlot_iff, List.forall_mem_cons,
        List.map_cons]
      constructor
      · rintro ⟨_, _, ⟨admits, rfl⟩, ⟨each, rfl⟩, rfl⟩
        exact ⟨⟨admits, each⟩, rfl⟩
      · rintro ⟨⟨admits, each⟩, rfl⟩
        exact ⟨_, _, ⟨admits, rfl⟩, ⟨each, rfl⟩, rfl⟩

/-- The bytes of a value in a field are its image there. -/
theorem FieldLayout.encodes_iff {field : FieldLayout} (wellFormed : field.element.WellFormed)
    {value : Value} {bytes : List UInt8} :
    field.Encodes value bytes ↔
      FieldAdmits field.element.Admits field.element field.count value ∧
        bytes = fieldImage field.element.image field.element field.count value := by
  cases counted : field.count with
  | none =>
      simp only [FieldLayout.Encodes, counted]
      exact wellFormed.fillsSlot_iff
  | some count =>
      simp only [FieldLayout.Encodes, FieldAdmits, counted, wellFormed.forall₂_fillsSlot_iff]
      constructor
      · rintro (⟨isChar, text, rfl, room, rfl⟩ | ⟨items, _, rfl, length, ⟨each, rfl⟩, rfl⟩)
        · exact ⟨.inl ⟨isChar, text, rfl, room⟩, rfl⟩
        · exact ⟨.inr ⟨items, rfl, length, each⟩, (List.flatMap_def ..).symm⟩
      · rintro ⟨⟨isChar, text, rfl, room⟩ | ⟨items, rfl, length, each⟩, rfl⟩
        · exact .inl ⟨isChar, text, rfl, room, rfl⟩
        · exact .inr ⟨items, _, rfl, length, ⟨each, rfl⟩, List.flatMap_def ..⟩

/-- The image of a record is put together from its fields, whatever their offsets are. -/
theorem RecordLayout.image_eq_of_parts {layout : RecordLayout} {record : RecordValue}
    {parts : List FieldPart} (fields : parts.map FieldPart.field = layout.fields)
    (each : ∀ part ∈ parts, part.bytes = fieldImage part.field.element.image part.field.element
      part.field.count ((record.get? part.field.name).getD default)) :
    layout.image record = parts.flatMap FieldPart.bytes := by
  rw [RecordLayout.image_eq_flatMap, ← fields, List.flatMap_map]
  exact (List.flatMap_congr each).symm

/-- What is written for a record is the concatenation of what is written for its fields. -/
theorem RecordLayout.toBytes_eq_ok_iff_encodes {layout : RecordLayout}
    (wellFormed : (Layout.record layout).WellFormed) {value : Value} {bytes : Buffer} :
    (Layout.record layout).toBytes value = .ok bytes ↔ layout.Encodes value bytes.toList := by
  rw [wellFormed.toBytes_eq_ok_iff]
  constructor
  · rintro ⟨⟨record, rfl, admits⟩, rfl⟩
    obtain ⟨named, declared, each⟩ := RecordLayout.admits_iff.mp admits
    refine ⟨record, layout.fields.map fun field =>
      ⟨field, (record.get? field.name).getD default,
        fieldImage field.element.image field.element field.count
          ((record.get? field.name).getD default)⟩, rfl, named, declared, ?_, ?_, ?_⟩
    · rw [List.map_map]
      exact List.map_id _
    · rw [List.forall_mem_map]
      intro field member
      obtain ⟨value, found, fits⟩ := each field member
      simp only [found, Option.getD_some, true_and]
      exact (FieldLayout.encodes_iff (wellFormed.element member)).mpr ⟨fits, rfl⟩
    · rw [Buffer.toList_ofList, Layout.image_record, RecordLayout.image_eq_flatMap,
        List.flatMap_map]
  · rintro ⟨record, parts, rfl, named, declared, fields, each, whole⟩
    have encoded : ∀ part ∈ parts, FieldAdmits part.field.element.Admits part.field.element
        part.field.count part.value ∧ part.bytes = fieldImage part.field.element.image
          part.field.element part.field.count part.value := by
      intro part member
      have among : part.field ∈ layout.fields := fields ▸ List.mem_map_of_mem member
      exact (FieldLayout.encodes_iff (wellFormed.element among)).mp (each part member).2
    have admits : layout.Admits record := by
      refine RecordLayout.admits_iff.mpr ⟨named, declared, ?_⟩
      rw [← fields, List.forall_mem_map]
      intro part member
      exact ⟨part.value, (each part member).1, (encoded part member).1⟩
    have image : layout.image record = parts.flatMap FieldPart.bytes := by
      apply RecordLayout.image_eq_of_parts fields
      intro part member
      rw [(each part member).1]
      exact (encoded part member).2
    refine ⟨Layout.admits_record.mpr admits, Buffer.ext ?_⟩
    rw [Buffer.toList_ofList, Layout.image_record, whole, image]

end RecordCodec
