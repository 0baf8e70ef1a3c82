import RecordCodec.Proofs.Bytes.Confined
import RecordCodec.Proofs.Codec.RoundTrip

/-!
# Encoding owns its range

Writing a value, whether or not it fits the layout, changes nothing outside the
bytes that the value is announced to take: fields write into their own places,
elements into their slots, and a variant behind its header.  Encoding has
tested that range beforehand, so it replaces exactly the range when it
succeeds, and leaves the rest of the buffer alone when it fails.
-/

namespace RecordCodec

open Writing

/-- Writing a value is confined to any range that has room for the announced
length.  A value without announced length is not written at all. -/
def Layout.Confined (layout : Layout) : Prop :=
  ∀ value length, (∀ announced, layout.encodedLength value = .ok announced → announced ≤ length) →
    ∀ offset, Writing.Confined (layout.write value offset) offset length

/-- Whatever length a value is announced to take, a slot has room for it. -/
theorem Layout.encodedLength_le {layout : Layout} {value : Value} {length : Nat}
    (announced : layout.encodedLength value = .ok length) : length ≤ layout.slotLength := by
  unfold Layout.encodedLength at announced
  split at announced
  · rename_i union type variant payload
    split at announced
    · rename_i selected found
      obtain rfl := Except.ok.inj announced
      exact UnionLayout.length_le_slotLength (List.mem_of_find?_eq_some found)
    · cases announced
  · cases announced
  · exact Nat.le_of_eq (Except.ok.inj announced).symm

theorem TextField.confined_write (text : String) (capacity offset : Nat) :
    Confined (TextField.write text capacity offset) offset capacity := by
  refine .check fun _ checked => .bind .require fun _ => .bind ?_ fun _ => .zeros _
  have room : text.utf8ByteSize ≤ capacity := by
    unfold TextField.requireCapacity at checked
    split at checked
    · assumption
    · cases checked
  exact (Confined.overwrite text.toUTF8).widen (Nat.le_refl offset)
    (Nat.add_le_add_left room offset)

section Field

variable {element : Layout} (confined : element.Confined)

include confined

theorem confined_writeSlot (value : Value) (offset : Nat) :
    Confined (writeSlot element.write element.slotLength value offset) offset
      element.slotLength :=
  .bind (confined value _ (fun _ announced => Layout.encodedLength_le announced) offset)
    fun _ => .zeros _

theorem confined_writeElements (items : List Value) (offset : Nat) :
    Confined (writeElements element.write element.slotLength items offset) offset
      (element.slotLength * items.length) := by
  induction items generalizing offset with
  | nil => exact .pure ()
  | cons item rest ih =>
      have length : element.slotLength * (item :: rest).length =
          element.slotLength + element.slotLength * rest.length := by
        rw [List.length_cons, Nat.mul_succ, Nat.add_comm]
      rw [length]
      refine .bind ((confined_writeSlot confined item offset).widen (Nat.le_refl _) ?_) fun _ =>
        (ih (offset + element.slotLength)).widen ?_ ?_
      all_goals omega

theorem confined_writeField (count : Option Nat) (value : Value) (offset : Nat) :
    Confined (writeField element.write element count value offset) offset
      (element.slotLength * count.getD 1) := by
  cases count with
  | none =>
      rw [Option.getD_none, Nat.mul_one]
      exact confined_writeSlot confined value offset
  | some count =>
      simp only [writeField, Option.getD_some]
      split
      · rename_i text isChar
        rw [slotLength_of_isChar isChar, Nat.one_mul]
        exact TextField.confined_write text count offset
      · split
        · rename_i length
          rw [← length]
          exact confined_writeElements confined _ offset
        · exact .throw _
      · exact .throw _

end Field

theorem FieldLayout.confined_writeAll {fields : List FieldLayout} {start stop : Nat}
    (tile : FieldLayout.Tile fields start stop)
    (confined : ∀ field ∈ fields, field.element.Confined) (type : String) (record : RecordValue)
    (offset : Nat) : Confined (FieldLayout.writeAll fields type record offset) offset stop := by
  induction fields generalizing start with
  | nil => exact .pure ()
  | cons field rest ih =>
      cases field with
      | mk name element count fieldOffset length =>
          obtain ⟨placed, sized, tile⟩ := tile
          have inside := tile.le
          simp only at placed sized inside
          refine .check fun value _ => .bind ?_ fun _ =>
            ih tile fun other member => confined other (List.mem_cons_of_mem _ member)
          apply (confined_writeField (confined _ List.mem_cons_self) count value
            (offset + fieldOffset)).widen
          · omega
          · simp only [← sized]
            omega

theorem RecordLayout.confined_write {layout : RecordLayout} (tiled : layout.Tiled)
    (confined : ∀ field ∈ layout.fields, field.element.Confined) (record : RecordValue)
    (offset : Nat) : Confined (RecordLayout.write layout record offset) offset layout.length := by
  have tile := tiled.tile
  cases layout with
  | mk name fields length =>
      exact .check fun _ _ => .bind .require fun _ =>
        FieldLayout.confined_writeAll tile confined name record offset

theorem ConstantSet.confined_write (set : ConstantSet) (word : Except Error UInt64) {length : Nat}
    (room : set.width.bytes ≤ length) (offset : Nat) :
    Confined (set.write word offset) offset length := by
  cases word with
  | ok word =>
      exact (Confined.writeWord _ word).widen (Nat.le_refl _) (Nat.add_le_add_left room offset)
  | error error => exact .throw error

theorem UnionLayout.Tagged.confined_writeTag {union : UnionLayout} (tagged : union.Tagged)
    (variant : String) (payload : RecordValue) (offset : Nat) :
    Confined (writeTag union variant payload offset) offset union.headerLength := by
  unfold writeTag UnionLayout.headerLength
  cases union.discriminator with
  | key key =>
      rw [tagged.expectTags_eq]
      exact ConstantSet.confined_write _ _ (Nat.le_refl _) offset
  | path fields tagOffset =>
      have test : Confined
          (Writing.ofExcept (UnionLayout.checkTag union.name variant payload fields) >>=
            fun result => pure result) offset 0 := .check fun result _ => .pure result
      rw [bind_pure] at test
      exact test

/-- Without a variant of the name, nothing is written. -/
theorem UnionLayout.confined_write_unknown {union : UnionLayout} {variant : String}
    (unknown : union.withName? variant = none) (payload : RecordValue) (offset length : Nat) :
    Confined (UnionLayout.write union variant payload offset) offset length := by
  by_contra escapes
  obtain ⟨selected, found⟩ := UnionLayout.found_of_write
    (fun action => ¬Confined action offset length) (fun escapes => escapes (.throw _)) escapes
  rw [found] at unknown
  cases unknown

theorem UnionLayout.confined {union : UnionLayout} (tagged : union.Tagged)
    (confined : ∀ variant ∈ union.variants, (Layout.record variant.record).Confined) :
    (Layout.union union).Confined := by
  intro value length room offset
  simp only [Layout.write]
  refine .check fun content expected => ?_
  obtain ⟨variant, payload⟩ := content
  obtain rfl := UnionLayout.expect_eq_ok_iff.mp expected
  cases found : union.withName? variant with
  | none => exact UnionLayout.confined_write_unknown found payload offset length
  | some selected =>
      have inside : union.headerLength + selected.record.length ≤ length := by
        apply room
        simp [Layout.encodedLength, found]
      have tag := tagged.confined_writeTag variant payload offset
      have whole := confined selected (List.mem_of_find?_eq_some found) (.record payload)
        selected.record.length (fun _ announced => Nat.le_of_eq (Except.ok.inj announced).symm)
        (offset + union.headerLength)
      have record : Confined (RecordLayout.write selected.record payload
          (offset + union.headerLength)) (offset + union.headerLength) selected.record.length := by
        simp only [Layout.write] at whole
        exact .of_andReturn whole
      rw [tagged.write_eq found]
      refine .bind (tag.widen (Nat.le_refl _) ?_) fun _ =>
        .bind (record.widen ?_ ?_) fun _ => .pure _
      all_goals omega

/-- Writing is confined to the announced length, for every type of a resolved schema. -/
theorem Layout.WellFormed.confined {layout : Layout} (wellFormed : layout.WellFormed) :
    layout.Confined := by
  induction wellFormed with
  | @scalar name scalar =>
      intro value length room offset
      have width : scalar.width ≤ length := room scalar.width rfl
      simp only [Layout.write]
      refine .bind ?_ fun _ => .pure _
      unfold Scalar.write
      split
      · rename_i bytes image
        apply (Confined.write (.ofList bytes)).widen (Nat.le_refl _)
        rw [Buffer.size_ofList, Scalar.length_of_image image]
        omega
      · exact .throw _
  | @enumeration constants _ =>
      intro value length room offset
      have width : constants.width.bytes ≤ length := room _ rfl
      exact .bind (constants.confined_write _ width offset) fun _ => .pure _
  | @flags constants _ =>
      intro value length room offset
      have width : constants.width.bytes ≤ length := room _ rfl
      exact .bind (constants.confined_write _ width offset) fun _ => .pure _
  | @record record tiled _ confined =>
      intro value length room offset
      have total : record.length ≤ length := room record.length rfl
      simp only [Layout.write]
      refine .check fun payload _ => .bind ?_ fun _ => .pure _
      exact (RecordLayout.confined_write tiled confined payload offset).widen (Nat.le_refl _)
        (Nat.add_le_add_left total offset)
  | union tagged _ confined => exact UnionLayout.confined tagged confined

/-- Encoding writes the value once it has a length and room for it, and does nothing else. -/
theorem Layout.encode_eq (layout : Layout) (value : Value) (offset : Nat) (buffer : Buffer) :
    layout.encode value offset buffer =
      match layout.encodedLength value with
      | .error error => .error error buffer
      | .ok length =>
          if offset + length ≤ buffer.size then layout.write value offset buffer
          else .error (.outOfBounds offset length buffer.size) buffer := by
  change EStateM.bind (Writing.ofExcept (layout.encodedLength value)) _ buffer = _
  cases layout.encodedLength value with
  | error error => rfl
  | ok length =>
      change EStateM.bind (Writing.require offset length) _ buffer = _
      simp only [EStateM.bind, Writing.require, Buffer.require]
      by_cases room : offset + length ≤ buffer.size <;> simp only [room, if_true, if_false] <;> rfl

theorem Layout.encode_of_room {layout : Layout} {value : Value} {offset length : Nat}
    {buffer : Buffer} (announced : layout.encodedLength value = .ok length)
    (room : offset + length ≤ buffer.size) :
    layout.encode value offset buffer = layout.write value offset buffer := by
  simp only [Layout.encode_eq, announced, if_pos room]

/-- Without a length, or without room for it, encoding fails and leaves the buffer as it is. -/
theorem Layout.encode_of_no_room {layout : Layout} {value : Value} {offset : Nat}
    {buffer : Buffer}
    (blocked : ∀ length, layout.encodedLength value = .ok length → buffer.size < offset + length) :
    ∃ error, layout.encode value offset buffer = .error error buffer := by
  cases announced : layout.encodedLength value with
  | error error => exact ⟨error, by simp only [Layout.encode_eq, announced]⟩
  | ok length =>
      have short := Nat.not_le.mpr (blocked length announced)
      exact ⟨.outOfBounds offset length buffer.size, by
        simp only [Layout.encode_eq, announced, if_neg short]⟩

theorem Layout.eq_of_encode_error {layout : Layout} {value : Value} {offset : Nat}
    {buffer after : Buffer} {error : Error}
    (blocked : ∀ length, layout.encodedLength value = .ok length → buffer.size < offset + length)
    (run : layout.encode value offset buffer = .error error after) : after = buffer := by
  obtain ⟨_, failed⟩ := Layout.encode_of_no_room blocked
  rw [failed] at run
  exact (EStateM.Result.error.inj run).2.symm

/-- If encoding succeeds, its range was announced and has room. -/
theorem Layout.room_of_encode {layout : Layout} {value : Value} {offset used : Nat}
    {buffer after : Buffer} (run : layout.encode value offset buffer = .ok used after) :
    ∃ length, layout.encodedLength value = .ok length ∧ offset + length ≤ buffer.size := by
  by_contra unannounced
  have blocked : ∀ length, layout.encodedLength value = .ok length →
      buffer.size < offset + length := by
    simpa using unannounced
  obtain ⟨error, failed⟩ := Layout.encode_of_no_room blocked
  rw [run] at failed
  cases failed

/-- Writing an admitted value where it has room replaces exactly its range by its image. -/
theorem Layout.WellFormed.encode_eq_ok_iff {layout : Layout} (wellFormed : layout.WellFormed)
    {value : Value} {offset used : Nat} {buffer after : Buffer} :
    layout.encode value offset buffer = .ok used after ↔
      layout.Admits value ∧ used = (layout.image value).length ∧ offset + used ≤ buffer.size ∧
        after = buffer.overwrite offset (.ofList (layout.image value)) := by
  constructor
  · intro run
    obtain ⟨length, announced, room⟩ := Layout.room_of_encode run
    rw [Layout.encode_of_room announced room] at run
    have admits := wellFormed.selective value offset used ⟨buffer, after, run⟩
    obtain rfl := wellFormed.length_image admits announced
    rw [wellFormed.writable value admits offset buffer room] at run
    obtain ⟨rfl, rfl⟩ := EStateM.Result.ok.inj run
    exact ⟨admits, rfl, room, rfl⟩
  · rintro ⟨admits, rfl, room, rfl⟩
    rw [Layout.encode_of_room (wellFormed.measured value admits).1 room]
    exact wellFormed.writable value admits offset buffer room

namespace Schema

variable {declarations : List Declaration} {schema : Schema}

/-- Encoding succeeds exactly on a value that has bytes and where these have
room, and then replaces exactly their range by them.  When it fails, the bytes
outside the announced range are as before, and all of them if no range is
announced or the buffer has no room for it. -/
theorem encode_owns_range (accepted : ofDeclarations declarations = .ok schema) {name : String}
    {layout : Layout} (found : schema.find? name = some layout) (value : Value) (buffer : Buffer)
    (offset : Nat) :
    ((∃ used after, layout.encode value offset buffer = .ok used after) ↔
      (∃ bytes, layout.toBytes value = .ok bytes) ∧
        ∃ length, layout.encodedLength value = .ok length ∧ offset + length ≤ buffer.size) ∧
    (∀ used after, layout.encode value offset buffer = .ok used after →
      layout.encodedLength value = .ok used ∧
        layout.toBytes value = .ok (after.slice offset used) ∧
        buffer.SameOutside after offset (offset + used)) ∧
    ∀ error after, layout.encode value offset buffer = .error error after →
      (∀ length, layout.encodedLength value = .ok length →
        buffer.SameOutside after offset (offset + length)) ∧
      ((∀ length, layout.encodedLength value = .ok length → buffer.size < offset + length) →
        after = buffer) := by
  have wellFormed := wellFormed_of_find? accepted found
  refine ⟨?_, ?_, ?_⟩
  · constructor
    · rintro ⟨used, after, run⟩
      obtain ⟨admits, -⟩ := wellFormed.encode_eq_ok_iff.mp run
      exact ⟨⟨_, wellFormed.toBytes_eq_ok_iff.mpr ⟨admits, rfl⟩⟩, Layout.room_of_encode run⟩
    · rintro ⟨⟨bytes, written⟩, length, announced, room⟩
      obtain ⟨admits, -⟩ := wellFormed.toBytes_eq_ok_iff.mp written
      have same := wellFormed.length_image admits announced
      exact ⟨_, _, wellFormed.encode_eq_ok_iff.mpr ⟨admits, rfl, by rw [same]; exact room, rfl⟩⟩
  · intro used after run
    obtain ⟨admits, rfl, room, rfl⟩ := wellFormed.encode_eq_ok_iff.mp run
    refine ⟨(wellFormed.measured value admits).1, ?_, ?_⟩
    · rw [Buffer.slice_overwrite room]
      exact wellFormed.toBytes_eq_ok_iff.mpr ⟨admits, rfl⟩
    · rw [← Buffer.size_ofList] at room ⊢
      exact Buffer.sameOutside_overwrite room
  · intro error after run
    refine ⟨fun length announced => ?_, fun blocked => ?_⟩
    · have same : ∀ other, layout.encodedLength value = .ok other → other = length := by
        intro other found
        rw [announced] at found
        exact (Except.ok.inj found).symm
      by_cases room : offset + length ≤ buffer.size
      · have outside := wellFormed.confined value length
          (fun other found => Nat.le_of_eq (same other found)) offset buffer room
        rw [Layout.encode_of_room announced room] at run
        rwa [Writing.left, run] at outside
      · have blocked : ∀ other, layout.encodedLength value = .ok other →
            buffer.size < offset + other := by
          intro other found
          rw [same other found]
          exact Nat.lt_of_not_le room
        rw [Layout.eq_of_encode_error blocked run]
        exact .refl buffer _ _
    · exact Layout.eq_of_encode_error blocked run

theorem sample_message_encoded_in_place :
    ∃ after, Sample.layout.encode Sample.message 1 (.ofList (List.replicate 26 9)) =
        .ok 24 after ∧
      Sample.layout.toBytes Sample.message = .ok (after.slice 1 24) ∧
      (Buffer.ofList (List.replicate 26 9)).SameOutside after 1 25 := by
  have announced : Sample.layout.encodedLength Sample.message = .ok 24 := by decide +kernel
  obtain ⟨succeeds, replaces, -⟩ := encode_owns_range Sample.accepted Sample.found Sample.message
    (.ofList (List.replicate 26 9)) 1
  obtain ⟨used, after, run⟩ := succeeds.mpr ⟨⟨_, Sample.message_written⟩, 24, announced, by decide⟩
  obtain ⟨same, bytes, outside⟩ := replaces used after run
  rw [announced] at same
  obtain rfl := Except.ok.inj same
  exact ⟨after, run, bytes, outside⟩

end Schema

end RecordCodec
