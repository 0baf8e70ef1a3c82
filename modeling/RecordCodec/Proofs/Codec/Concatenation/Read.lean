import Mathlib.Data.List.SplitLengths
import RecordCodec.Proofs.Codec.Concatenation.Write
import RecordCodec.Proofs.Codec.Portable

/-!
# Records read from concatenations

Fields are read in place as well.  The bytes of a record fall into a part for
each field, and those of an array into slots, and what is read of each is what
would be read if it were alone.
-/

namespace RecordCodec

/-- The run is a slot from which the value is read.  Strict reading wants only
zeros behind the bytes that the value takes. -/
def Layout.ReadsSlot (options : DecodeOptions) (layout : Layout) (run : List UInt8)
    (value : Value) : Prop :=
  run.length = layout.slotLength ∧
    ∃ used, layout.read options (.ofList run) 0 = .ok (value, used) ∧
      (options.strictPadding = true → ∀ byte ∈ run.drop used, byte = 0)

/-- The value that bytes stand for in a field: that of a slot, a text, or an
item for each slot, of which no more are read than a list can hold.  Characters
are read one by one only if no text is wanted. -/
def FieldLayout.Decodes (options : DecodeOptions) (field : FieldLayout) (bytes : List UInt8)
    (value : Value) : Prop :=
  match field.count with
  | none => field.element.ReadsSlot options bytes value
  | some count =>
      if field.element.isChar = true ∧ options.charsAsText = true then
        bytes.length = count ∧ value = TextField.ofBytes (.ofList bytes)
      else
        ∃ runs items, bytes = runs.flatten ∧ runs.length = count ∧
          (field.element.isChar = false → count ≤ itemLimit) ∧
          List.Forall₂ (field.element.ReadsSlot options) runs items ∧ value = .array items

/-- The value under the name of the field, as a record holds it. -/
def FieldPart.held (part : FieldPart) : FieldValue :=
  ⟨part.field.name, part.value⟩

/-- The value that bytes stand for: the record of the type with its declared
fields, in their order. -/
def RecordLayout.Decodes (options : DecodeOptions) (layout : RecordLayout) (bytes : List UInt8)
    (value : Value) : Prop :=
  ∃ parts : List FieldPart, parts.map FieldPart.field = layout.fields ∧
    bytes = parts.flatMap FieldPart.bytes ∧
    (∀ part ∈ parts, part.field.Decodes options part.bytes part.value) ∧
    value = .record ⟨layout.name, parts.map FieldPart.held⟩

/-- Bytes that are as many as some runs of one length are such runs. -/
theorem exists_runs {size count : Nat} {bytes : List UInt8} (length : bytes.length = size * count) :
    ∃ runs : List (List UInt8), runs.length = count ∧ (∀ run ∈ runs, run.length = size) ∧
      bytes = runs.flatten := by
  have total : (List.replicate count size).sum = bytes.length := by
    simp [length, Nat.mul_comm]
  have lengths := List.map_splitLengths_length bytes _ (Nat.le_of_eq total)
  refine ⟨(List.replicate count size).splitLengths bytes, by simp, ?_,
    (List.flatten_splitLengths _ _ (Nat.le_of_eq total.symm)).symm⟩
  intro run member
  exact List.eq_of_mem_replicate (lengths ▸ List.mem_map_of_mem member)

section Slot

variable {options : DecodeOptions} {buffer : Buffer} {position : Nat} {element : Layout}

theorem readSlot_ofList_iff {run : List UInt8} (length : run.length = element.slotLength)
    {value : Value} :
    readSlot options (.ofList run) (element.read options (.ofList run)) element 0 = .ok value ↔
      element.ReadsSlot options run value := by
  have padding (used : Nat) :
      firstNonZero? ((Buffer.ofList run).slice (0 + used) (element.slotLength - used)) (0 + used) =
          none ↔ ∀ byte ∈ run.drop used, byte = 0 := by
    have whole : (run.drop used).length ≤ element.slotLength - used := by simp [length]
    rw [firstNonZero?_eq_none_iff, Buffer.toList_slice, Buffer.toList_ofList, Nat.zero_add,
      List.take_of_length_le whole, List.findIdx?_eq_none_iff]
    simp
  simp only [readSlot_eq_ok_iff, padding, Layout.ReadsSlot, length, true_and]

/-- A slot in a buffer is read as if it were alone. -/
theorem readSlot_eq_ok_iff_readsSlot (wellFormed : element.WellFormed)
    (small : buffer.size < 2 ^ 64) {run : List UInt8} (length : run.length = element.slotLength)
    (holds : buffer.Holds position run) {value : Value} :
    readSlot options buffer (element.read options buffer) element position = .ok value ↔
      element.ReadsSlot options run value := by
  have runSmall : (Buffer.ofList run).size < 2 ^ 64 := by
    have room := holds.room
    rw [Buffer.size_ofList]
    omega
  rw [← readSlot_ofList_iff length]
  constructor
  · apply readSlot_of_alike wellFormed (wellFormed.portable options runSmall)
    exact ⟨run, length, holds, Buffer.holds_ofList run⟩
  · apply readSlot_of_alike wellFormed (wellFormed.portable options small)
    exact ⟨run, length, Buffer.holds_ofList run, holds⟩

/-- Slots one behind the other are read one by one. -/
theorem readElements_eq_ok_iff (wellFormed : element.WellFormed) (small : buffer.size < 2 ^ 64)
    {runs : List (List UInt8)} (lengths : ∀ run ∈ runs, run.length = element.slotLength)
    (holds : buffer.Holds position runs.flatten) {items : List Value} :
    (List.range runs.length).mapM (fun index => readSlot options buffer
        (element.read options buffer) element (position + index * element.slotLength)) =
          .ok items ↔ List.Forall₂ (element.ReadsSlot options) runs items := by
  rw [← List.flatMap_id] at holds
  have slot (index : Nat) (bound : index < runs.length) (value : Value) :
      readSlot options buffer (element.read options buffer) element
          (position + index * element.slotLength) = .ok value ↔
        element.ReadsSlot options runs[index] value :=
    readSlot_eq_ok_iff_readsSlot wellFormed small (lengths _ (List.getElem_mem bound))
      (Buffer.Holds.flatMap lengths holds index bound)
  simp only [mapM_eq_ok, List.forall₂_iff_get, List.length_range, List.get_eq_getElem,
    List.getElem_range]
  apply and_congr_right
  intro length
  constructor
  · intro each index bound itemBound
    exact (slot index bound _).mp (each index bound itemBound)
  · intro each index bound itemBound
    exact (slot index bound _).mpr (each index bound itemBound)

/-- A character that is not wanted as a text is read as the number of its byte. -/
theorem readsSlot_char_iff (isChar : element.isChar = true)
    (single : options.charsAsText = false) {run : List UInt8} {value : Value} :
    element.ReadsSlot options run value ↔
      ∃ byte, run = [byte] ∧ value = .unsigned byte.toUInt64 := by
  have read (byte : UInt8) : element.read options (.ofList [byte]) 0 =
      .ok (.unsigned byte.toUInt64, 1) := by
    have word := (Buffer.holds_ofList [byte]).readWord_eq
    rw [Scalar.word_singleton, List.length_singleton] at word
    cases element with
    | scalar name scalar =>
        cases scalar with
        | char =>
            simp only [Layout.read, readScalar, single, word]
            rfl
        | _ => cases isChar
    | _ => cases isChar
  rw [Layout.ReadsSlot, slotLength_of_isChar isChar, List.length_eq_one_iff]
  constructor
  · rintro ⟨⟨byte, rfl⟩, used, taken, -⟩
    rw [read] at taken
    cases taken
    exact ⟨byte, rfl, rfl⟩
  · rintro ⟨byte, rfl, rfl⟩
    exact ⟨⟨byte, rfl⟩, 1, read byte, by simp⟩

theorem forall₂_readsSlot_char_iff (isChar : element.isChar = true)
    (single : options.charsAsText = false) {runs : List (List UInt8)} {items : List Value} :
    List.Forall₂ (element.ReadsSlot options) runs items ↔
      ∃ bytes : List UInt8, runs = bytes.map (fun byte => [byte]) ∧
        items = bytes.map fun byte => .unsigned byte.toUInt64 := by
  induction runs generalizing items with
  | nil => simp
  | cons run rest ih =>
      simp only [List.forall₂_cons_left_iff, readsSlot_char_iff isChar single, ih]
      constructor
      · rintro ⟨_, _, ⟨byte, rfl, rfl⟩, ⟨bytes, rfl, rfl⟩, rfl⟩
        exact ⟨byte :: bytes, rfl, rfl⟩
      · rintro ⟨bytes, same, rfl⟩
        cases bytes with
        | nil => cases same
        | cons byte bytes =>
            obtain ⟨rfl, rfl⟩ := List.cons.inj same
            exact ⟨_, _, ⟨byte, rfl, rfl⟩, ⟨bytes, rfl, rfl⟩, rfl⟩

end Slot

theorem FieldLayout.Decodes.length_eq {options : DecodeOptions} {field : FieldLayout}
    {bytes : List UInt8} {value : Value} (decodes : field.Decodes options bytes value) :
    bytes.length = field.element.slotLength * field.count.getD 1 := by
  cases counted : field.count with
  | none =>
      simp only [FieldLayout.Decodes, counted] at decodes
      rw [Option.getD_none, Nat.mul_one]
      exact decodes.1
  | some count =>
      simp only [FieldLayout.Decodes, counted] at decodes
      split at decodes
      · rename_i asText
        rw [slotLength_of_isChar asText.1, Option.getD_some, Nat.one_mul]
        exact decodes.1
      · obtain ⟨runs, items, rfl, length, -, each, -⟩ := decodes
        have slots : runs.map List.length = List.replicate count field.element.slotLength := by
          apply List.eq_replicate_iff.mpr
          refine ⟨by simpa using length, ?_⟩
          rw [List.forall_mem_map]
          intro run member
          obtain ⟨item, -, reads⟩ := exists_mem_of_forall₂ each member
          exact reads.1
        simp [slots, Nat.mul_comm]

/-- A field in a buffer is read as if it were alone. -/
theorem FieldLayout.readField_eq_ok_iff {options : DecodeOptions} {buffer : Buffer}
    {position : Nat} {field : FieldLayout} (wellFormed : field.element.WellFormed)
    (small : buffer.size < 2 ^ 64) {bytes : List UInt8}
    (length : bytes.length = field.element.slotLength * field.count.getD 1)
    (holds : buffer.Holds position bytes) {value : Value} :
    readField options buffer (field.element.read options buffer) field.element field.count
        position = .ok value ↔ field.Decodes options bytes value := by
  cases counted : field.count with
  | none =>
      rw [counted, Option.getD_none, Nat.mul_one] at length
      simp only [FieldLayout.Decodes, counted, readField]
      exact readSlot_eq_ok_iff_readsSlot wellFormed small length holds
  | some count =>
      rw [counted, Option.getD_some] at length
      cases isChar : field.element.isChar with
      | true =>
          rw [slotLength_of_isChar isChar, Nat.one_mul] at length
          have read := holds.read_eq
          rw [length] at read
          cases asText : options.charsAsText with
          | true =>
              simp [readField, FieldLayout.Decodes, counted, isChar, asText, TextField.read, read,
                length, eq_comm]
          | false =>
              have single (bytes : List UInt8) :
                  (bytes.map fun byte => [byte]).flatten = bytes :=
                List.flatMap_def.symm.trans (List.flatMap_singleton' bytes)
              simp only [readField, FieldLayout.Decodes, counted, isChar, asText,
                Bool.false_eq_true, and_false, if_true, if_false, TextField.readNumbers, read,
                bind_eq_ok, pure_eq_ok, Except.ok.injEq, exists_eq_left', TextField.numbers,
                Buffer.toList_ofList, forall₂_readsSlot_char_iff isChar asText]
              constructor
              · rintro rfl
                exact ⟨_, _, (single bytes).symm, by simpa using length, by simp,
                  ⟨bytes, rfl, rfl⟩, rfl⟩
              · rintro ⟨_, _, rfl, -, -, ⟨bytes, rfl, rfl⟩, rfl⟩
                rw [single]
      | false =>
          simp only [readField, FieldLayout.Decodes, counted, isChar, Bool.false_eq_true, if_false,
            false_and, bind_eq_ok, pure_eq_ok, reserveItems_eq_ok_iff, forall_const]
          constructor
          · rintro ⟨-, reservable, items, each, rfl⟩
            obtain ⟨runs, rfl, lengths, rfl⟩ := exists_runs length
            exact ⟨runs, items, rfl, rfl, reservable,
              (readElements_eq_ok_iff wellFormed small lengths holds).mp each, rfl⟩
          · rintro ⟨runs, items, rfl, rfl, reservable, each, rfl⟩
            have lengths : ∀ run ∈ runs, run.length = field.element.slotLength := by
              intro run member
              obtain ⟨item, -, reads⟩ := exists_mem_of_forall₂ each member
              exact reads.1
            exact ⟨(), reservable, items,
              (readElements_eq_ok_iff wellFormed small lengths holds).mpr each, rfl⟩

namespace FieldLayout.Tile

variable {fields : List FieldLayout} {start stop : Nat}

/-- Bytes as long as some fields together fall into parts, one for each field. -/
theorem exists_parts (tile : FieldLayout.Tile fields start stop) {values : List FieldValue}
    (names : values.map FieldValue.name = fields.map FieldLayout.name) {bytes : List UInt8}
    (length : start + bytes.length = stop) :
    ∃ parts : List FieldPart, parts.map FieldPart.field = fields ∧
      parts.map FieldPart.held = values ∧ bytes = parts.flatMap FieldPart.bytes ∧
      ∀ part ∈ parts, part.bytes.length = part.field.length := by
  induction fields generalizing start values bytes with
  | nil =>
      obtain rfl := List.map_eq_nil_iff.mp names
      have none : bytes = [] := by
        apply List.eq_nil_of_length_eq_zero
        have same : start = stop := tile
        omega
      exact ⟨[], rfl, rfl, none, nofun⟩
  | cons field rest ih =>
      cases values with
      | nil => cases names
      | cons value values =>
          obtain ⟨-, -, tile⟩ := tile
          obtain ⟨named, names⟩ := List.cons.inj names
          have inside := tile.le
          have behind : start + field.length + (bytes.drop field.length).length = stop := by
            rw [List.length_drop]
            omega
          obtain ⟨parts, rfl, rfl, whole, lengths⟩ := ih tile names behind
          refine ⟨⟨field, value.value, bytes.take field.length⟩ :: parts, rfl, ?_, ?_, ?_⟩
          · rw [List.map_cons, FieldPart.held, ← named]
            cases value
            rfl
          · rw [List.flatMap_cons, ← whole, List.take_append_drop]
          · refine List.forall_mem_cons.mpr ⟨?_, lengths⟩
            apply List.length_take_of_le
            omega

/-- Parts that lie one behind the other lie at the offsets of their fields. -/
theorem holds_part {parts : List FieldPart} {buffer : Buffer} {offset : Nat}
    (tile : FieldLayout.Tile (parts.map FieldPart.field) start stop)
    (lengths : ∀ part ∈ parts, part.bytes.length = part.field.length)
    (holds : buffer.Holds (offset + start) (parts.flatMap FieldPart.bytes)) :
    ∀ part ∈ parts, buffer.Holds (offset + part.field.offset) part.bytes := by
  induction parts generalizing start with
  | nil => nofun
  | cons part rest ih =>
      obtain ⟨placed, -, tile⟩ := tile
      obtain ⟨length, restLengths⟩ := List.forall_mem_cons.mp lengths
      rw [List.flatMap_cons] at holds
      refine List.forall_mem_cons.mpr ⟨placed ▸ holds.left, ih tile restLengths ?_⟩
      rw [← Nat.add_assoc, ← length]
      exact holds.right

end FieldLayout.Tile

/-- The fields of a record are read at their offsets as the parts that lie there. -/
theorem FieldLayout.readAll_eq_ok_iff_decodes {options : DecodeOptions} {buffer : Buffer}
    {offset start stop : Nat} {parts : List FieldPart}
    (tile : FieldLayout.Tile (parts.map FieldPart.field) start stop)
    (elements : ∀ part ∈ parts, part.field.element.WellFormed) (small : buffer.size < 2 ^ 64)
    (lengths : ∀ part ∈ parts, part.bytes.length = part.field.length)
    (holds : buffer.Holds (offset + start) (parts.flatMap FieldPart.bytes)) :
    FieldLayout.readAll options buffer (parts.map FieldPart.field) offset =
        .ok (parts.map FieldPart.held) ↔
      ∀ part ∈ parts, part.field.Decodes options part.bytes part.value := by
  have placed := tile.holds_part lengths holds
  rw [FieldLayout.readAll_eq_ok_iff, List.forall₂_map_left_iff, List.forall₂_map_right_iff,
    List.forall₂_same]
  refine forall₂_congr fun part member => ?_
  have length := (lengths part member).trans (tile.length_eq (List.mem_map_of_mem member))
  simp only [FieldPart.held, true_and]
  exact FieldLayout.readField_eq_ok_iff (elements part member) small length (placed part member)

/-- What is read of a record is what is read of its fields, each in its own part of the bytes. -/
theorem RecordLayout.read_eq_ok_iff_decodes {layout : RecordLayout}
    (wellFormed : (Layout.record layout).WellFormed) {options : DecodeOptions} {buffer : Buffer}
    (small : buffer.size < 2 ^ 64) {offset : Nat} {value : Value} {used : Nat} :
    (Layout.record layout).read options buffer offset = .ok (value, used) ↔
      used = layout.length ∧ offset + layout.length ≤ buffer.size ∧
        layout.Decodes options (buffer.slice offset layout.length).toList value := by
  have tile := wellFormed.tiled.tile
  have decoded {parts : List FieldPart} (fields : parts.map FieldPart.field = layout.fields)
      (lengths : ∀ part ∈ parts, part.bytes.length = part.field.length)
      (holds : buffer.Holds offset (parts.flatMap FieldPart.bytes)) :
      FieldLayout.readAll options buffer layout.fields offset =
          .ok (parts.map FieldPart.held) ↔
        ∀ part ∈ parts, part.field.Decodes options part.bytes part.value := by
    have elements : ∀ part ∈ parts, part.field.element.WellFormed := fun part member =>
      wellFormed.element (fields ▸ List.mem_map_of_mem member)
    rw [← fields] at tile ⊢
    exact FieldLayout.readAll_eq_ok_iff_decodes tile elements small lengths holds
  rw [Layout.read_record_eq_ok_iff]
  constructor
  · rintro ⟨record, read, rfl, rfl⟩
    obtain ⟨room, named, fieldsRead⟩ := RecordLayout.read_eq_ok_iff.mp read
    have names := map_eq_map_of_forall₂
      ((FieldLayout.readAll_eq_ok_iff.mp fieldsRead).flip.imp fun _ _ both => both.1)
    have length : 0 + (buffer.slice offset layout.length).toList.length = layout.length := by
      rw [Nat.zero_add, Buffer.length_toList, Buffer.size_slice room]
    obtain ⟨parts, fields, held, whole, lengths⟩ := tile.exists_parts names length
    rw [← held] at fieldsRead
    have each := (decoded fields lengths (whole ▸ Buffer.holds_slice room)).mp fieldsRead
    refine ⟨rfl, room, parts, fields, whole, each, ?_⟩
    rw [held, ← named]
    cases record
    rfl
  · rintro ⟨rfl, room, parts, fields, whole, each, rfl⟩
    have lengths : ∀ part ∈ parts, part.bytes.length = part.field.length := by
      intro part member
      have among : part.field ∈ layout.fields := fields ▸ List.mem_map_of_mem member
      exact (each part member).length_eq.trans (tile.length_eq among).symm
    have fieldsRead := (decoded fields lengths (whole ▸ Buffer.holds_slice room)).mpr each
    exact ⟨_, RecordLayout.read_eq_ok_iff.mpr ⟨room, rfl, fieldsRead⟩, rfl, rfl⟩

namespace Sample

theorem scene_found : schema.find? "Scene" = some (.record scene) := by decide +kernel

/-- The record in a union. -/
def payload : Value → Value
  | .union _ _ payload => .record payload
  | other => other

/-- The bytes of the scene in the message. -/
def sceneBytes : Buffer :=
  Buffer.ofList [255, 254, 200, 0, 7, 1, 63, 192, 0, 0, 0, 0, 0, 0, 8, 2, 3, 104, 195, 169, 0, 0, 0]

end Sample

namespace Schema

variable {declarations : List Declaration} {schema : Schema}

/-- For every record type of an accepted schema, the bytes that are written are
the concatenation of those of its fields, and the value that is read has its
declared fields, each as it is read from its own part of the bytes alone. -/
theorem record_codec_concatenates (accepted : ofDeclarations declarations = .ok schema)
    {name : String} {record : RecordLayout}
    (found : schema.find? name = some (.record record)) :
    (∀ value bytes, (Layout.record record).toBytes value = .ok bytes ↔
      record.Encodes value bytes.toList) ∧
      ∀ options, ∀ buffer : Buffer, ∀ offset value used, buffer.size < 2 ^ 64 →
        ((Layout.record record).read options buffer offset = .ok (value, used) ↔
          used = record.length ∧ offset + record.length ≤ buffer.size ∧
            record.Decodes options (buffer.slice offset record.length).toList value) := by
  have wellFormed := wellFormed_of_find? accepted found
  constructor
  · intro value bytes
    exact RecordLayout.toBytes_eq_ok_iff_encodes wellFormed
  · intro options buffer offset value used small
    exact RecordLayout.read_eq_ok_iff_decodes wellFormed small

theorem sample_scene_concatenated :
    Sample.schema.find? "Scene" = some (.record Sample.scene) ∧
      Sample.scene.Encodes (Sample.payload Sample.message) Sample.sceneBytes.toList ∧
      Sample.scene.Decodes ⟨false, true⟩ (Sample.received.slice 2 23).toList
        (Sample.payload Sample.receivedMessage) := by
  obtain ⟨writes, reads⟩ := record_codec_concatenates Sample.accepted Sample.scene_found
  have written : (Layout.record Sample.scene).toBytes (Sample.payload Sample.message) =
      .ok Sample.sceneBytes := by decide +kernel
  have read : (Layout.record Sample.scene).read ⟨false, true⟩ Sample.received 2 =
      .ok (Sample.payload Sample.receivedMessage, 23) := by decide +kernel
  obtain ⟨-, -, decodes⟩ := (reads _ _ _ _ _ (by decide)).mp read
  exact ⟨Sample.scene_found, (writes _ _).mp written, decodes⟩

end Schema

end RecordCodec
