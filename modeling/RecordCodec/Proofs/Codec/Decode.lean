import RecordCodec.Codec.Decode
import RecordCodec.Proofs.Codec.Conformity
import RecordCodec.Proofs.Failure
import RecordCodec.Proofs.Layout.WellFormed

/-!
# When reading succeeds

Reading a record succeeds when its bytes are there and each of its fields is
read.  Reading a union succeeds when a constant is read at the place of the
tag and the record that it selects is read behind the header.
-/

namespace RecordCodec

variable {options : DecodeOptions} {buffer : Buffer} {offset : Nat}

theorem ConstantSet.read_eq_ok_iff {set : ConstantSet} (distinct : set.WellFormed)
    {constant : Constant} :
    set.read buffer offset = .ok constant ↔
      constant ∈ set.constants ∧ buffer.readWord offset set.width.bytes = .ok constant.value := by
  simp only [ConstantSet.read, bind_eq_ok, ConstantSet.constantOfWord]
  constructor
  · rintro ⟨word, read, known⟩
    split at known
    · rename_i other found
      obtain rfl := Except.ok.inj known
      obtain ⟨member, rfl⟩ := distinct.withValue?_eq_some.mp found
      exact ⟨member, read⟩
    · cases known
  · rintro ⟨member, read⟩
    refine ⟨constant.value, read, ?_⟩
    rw [distinct.withValue?_eq_some.mpr ⟨member, rfl⟩]

theorem require_eq_ok_iff {length need : Nat} {result : Unit} :
    Buffer.require length offset need = .ok result ↔ offset + need ≤ length := by
  by_cases room : offset + need ≤ length <;> simp [Buffer.require, room]

theorem reserveItems_eq_ok_iff {count : Nat} {result : Unit} :
    reserveItems count = .ok result ↔ count ≤ itemLimit := by
  by_cases short : count ≤ itemLimit <;> simp [reserveItems, short]

/-- An element is read from its slot if there is no fault in the padding behind it. -/
theorem readSlot_eq_ok_iff {readElement : Nat → Except Error (Value × Nat)} {element : Layout}
    {value : Value} :
    readSlot options buffer readElement element offset = .ok value ↔
      ∃ used, readElement offset = .ok (value, used) ∧
        (options.strictPadding = true →
          firstNonZero? (buffer.slice (offset + used) (element.slotLength - used))
            (offset + used) = none) := by
  simp only [readSlot, bind_eq_ok, Prod.exists]
  constructor
  · rintro ⟨other, used, read, tested⟩
    cases strict : options.strictPadding with
    | false =>
        obtain rfl : other = value := by simpa [strict] using tested
        exact ⟨used, read, by simp⟩
    | true =>
        cases found : firstNonZero? (buffer.slice (offset + used) (element.slotLength - used))
            (offset + used) with
        | some position => simp [strict, found] at tested
        | none =>
            obtain rfl : other = value := by simpa [strict, found] using tested
            exact ⟨used, read, fun _ => found⟩
  · rintro ⟨used, read, clean⟩
    refine ⟨value, used, read, ?_⟩
    cases strict : options.strictPadding with
    | false => simp
    | true => simp [clean strict]

/-- Each field is read at its own offset. -/
theorem FieldLayout.readAll_eq_ok_iff {fields : List FieldLayout} {values : List FieldValue} :
    FieldLayout.readAll options buffer fields offset = .ok values ↔
      List.Forall₂ (fun (field : FieldLayout) (value : FieldValue) => value.name = field.name ∧
        readField options buffer (field.element.read options buffer) field.element field.count
          (offset + field.offset) = .ok value.value) fields values := by
  induction fields generalizing values with
  | nil => rw [FieldLayout.readAll, pure_eq_ok, List.forall₂_nil_left_iff, eq_comm]
  | cons field rest ih =>
      cases field with
      | mk name element count fieldOffset length =>
          simp only [FieldLayout.readAll, bind_eq_ok, pure_eq_ok, List.forall₂_cons_left_iff, ih]
          constructor
          · rintro ⟨value, read, others, readRest, rfl⟩
            exact ⟨⟨name, value⟩, others, ⟨rfl, read⟩, readRest, rfl⟩
          · rintro ⟨⟨_, value⟩, others, ⟨rfl, read⟩, readRest, rfl⟩
            exact ⟨value, read, others, readRest, rfl⟩

theorem RecordLayout.read_eq_ok_iff {layout : RecordLayout} {record : RecordValue} :
    RecordLayout.read options buffer layout offset = .ok record ↔
      offset + layout.length ≤ buffer.size ∧ record.type = layout.name ∧
        FieldLayout.readAll options buffer layout.fields offset = .ok record.fields := by
  cases layout with
  | mk name fields length =>
      simp only [RecordLayout.read, bind_eq_ok, pure_eq_ok, require_eq_ok_iff]
      constructor
      · rintro ⟨_, room, values, read, rfl⟩
        exact ⟨room, rfl, read⟩
      · rintro ⟨room, rfl, read⟩
        exact ⟨(), room, record.fields, read, by cases record; rfl⟩

theorem Layout.read_record_eq_ok_iff {layout : RecordLayout} {value : Value} {used : Nat} :
    (Layout.record layout).read options buffer offset = .ok (value, used) ↔
      ∃ record, RecordLayout.read options buffer layout offset = .ok record ∧
        value = .record record ∧ used = layout.length := by
  simp only [Layout.read, bind_eq_ok, pure_eq_ok, Prod.mk.injEq]
  constructor
  · rintro ⟨record, read, rfl, rfl⟩
    exact ⟨record, read, rfl, rfl⟩
  · rintro ⟨record, read, rfl, rfl⟩
    exact ⟨record, read, rfl, rfl⟩

theorem Layout.read_record_eq_error_iff {layout : RecordLayout} {error : Error} :
    (Layout.record layout).read options buffer offset = .error error ↔
      layout.read options buffer offset = .error error := by
  simp only [Layout.read, bind_eq_error, pure_eq_error, and_false, exists_false, or_false]

theorem tagPosition_eq_ok_iff {tagOffset position : Nat} :
    tagPosition offset tagOffset = .ok position ↔
      offset + tagOffset < 2 ^ 64 ∧ position = offset + tagOffset := by
  unfold tagPosition
  split
  · rename_i below
    simp [below, eq_comm]
  · rename_i beyond
    simp [beyond]

/-- The tag is read at its place, unless its place cannot be told. -/
theorem UnionLayout.Tagged.readTag_eq_ok_iff {union : UnionLayout} (tagged : union.Tagged)
    {constant : Constant} :
    union.readTag buffer offset = .ok constant ↔
      offset + union.tagOffset < 2 ^ 64 ∧
        union.tags.read buffer (offset + union.tagOffset) = .ok constant := by
  simp only [UnionLayout.readTag, tagged.expectTags_eq, bind_eq_ok, Except.ok.injEq,
    exists_eq_left', tagPosition_eq_ok_iff]
  constructor
  · rintro ⟨_, ⟨below, rfl⟩, read⟩
    exact ⟨below, read⟩
  · rintro ⟨below, read⟩
    exact ⟨_, ⟨below, rfl⟩, read⟩

theorem UnionLayout.Tagged.readTag_eq {union : UnionLayout} (tagged : union.Tagged)
    (below : offset + union.tagOffset < 2 ^ 64) :
    union.readTag buffer offset = union.tags.read buffer (offset + union.tagOffset) := by
  simp only [UnionLayout.readTag, tagged.expectTags_eq, tagPosition, if_pos below]
  rfl

theorem VariantLayout.readTagged_eq {variants : List VariantLayout} {union : UnionLayout}
    {tag : UInt64} {selected : VariantLayout}
    (found : variants.find? (fun other => other.tag == tag) = some selected)
    (recorded : selected.member = .record selected.record) :
    VariantLayout.readTagged options buffer variants union tag offset = (do
      let payload ← RecordLayout.read options buffer selected.record (offset + union.headerLength)
      return (.union union.name selected.name payload,
        union.headerLength + selected.record.length)) := by
  have chosen : VariantLayout.readTagged options buffer variants union tag offset =
      selected.member.readMember options buffer union selected.name offset := by
    apply choice_eq_of_found
      (fun variants => VariantLayout.readTagged options buffer variants union tag offset) _ found
    rintro ⟨name, tag, member⟩ rest
    rfl
  rw [chosen, recorded, Layout.readMember]

theorem UnionLayout.read_eq (union : UnionLayout) :
    UnionLayout.read options buffer union offset = (do
      let constant ← union.readTag buffer offset
      VariantLayout.readTagged options buffer union.variants
        ⟨union.name, union.discriminator, union.discriminant, []⟩ constant.value offset) := by
  cases union
  rfl

/-- The program stops where the place of the tag is past all words. -/
theorem UnionLayout.Tagged.read_of_overflow {union : UnionLayout} (tagged : union.Tagged)
    (beyond : 2 ^ 64 ≤ offset + union.tagOffset) :
    (Layout.union union).read options buffer offset = .error (.panicked .offsetOverflow) := by
  have overflows : tagPosition offset union.tagOffset = .error (.panicked .offsetOverflow) :=
    if_neg (Nat.not_lt.mpr beyond)
  rw [Layout.read, UnionLayout.read_eq, UnionLayout.readTag, tagged.expectTags_eq]
  simp only [overflows, bind, Except.bind]

/-- A constant at the place of the tag selects the record that is read. -/
theorem UnionLayout.read_of_tag {union : UnionLayout} (tagged : union.Tagged)
    {selected : VariantLayout} (member : selected ∈ union.variants)
    (tag : union.readTag buffer offset = .ok ⟨selected.name, selected.tag⟩) :
    union.read options buffer offset = (do
      let payload ← selected.record.read options buffer (offset + union.headerLength)
      return (.union union.name selected.name payload,
        union.headerLength + selected.record.length)) := by
  rw [UnionLayout.read_eq, tag]
  exact VariantLayout.readTagged_eq (tagged.withTag?_eq_some.mpr ⟨member, rfl⟩)
    (tagged.recorded selected member)

/-- The tag at its place selects the record that is read behind the header. -/
theorem UnionLayout.read_eq_ok_iff {union : UnionLayout} (tagged : union.Tagged) {value : Value}
    {used : Nat} :
    UnionLayout.read options buffer union offset = .ok (value, used) ↔
      ∃ selected ∈ union.variants, ∃ payload,
        union.readTag buffer offset = .ok ⟨selected.name, selected.tag⟩ ∧
        RecordLayout.read options buffer selected.record (offset + union.headerLength) =
          .ok payload ∧
        value = .union union.name selected.name payload ∧
        used = union.headerLength + selected.record.length := by
  simp only [UnionLayout.read_eq, bind_eq_ok]
  constructor
  · rintro ⟨constant, tag, read⟩
    have known := (tagged.readTag_eq_ok_iff.mp tag).2
    have member := ((ConstantSet.read_eq_ok_iff tagged.tags).mp known).1
    obtain ⟨selected, selectedMember, tags⟩ := tagged.complete constant member
    have found := tagged.withTag?_eq_some.mpr ⟨selectedMember, tags⟩
    have name := tagged.name_eq selectedMember member tags
    have recorded := tagged.recorded selected selectedMember
    simp only [VariantLayout.readTagged_eq found recorded, bind_eq_ok, pure_eq_ok,
      Prod.mk.injEq] at read
    obtain ⟨payload, read, rfl, rfl⟩ := read
    refine ⟨selected, selectedMember, payload, ?_, read, rfl, rfl⟩
    rw [tag, tags, name]
  · rintro ⟨selected, member, payload, tag, read, rfl, rfl⟩
    have found := tagged.withTag?_eq_some.mpr ⟨member, rfl⟩
    refine ⟨_, tag, ?_⟩
    simp only [VariantLayout.readTagged_eq found (tagged.recorded selected member), bind_eq_ok,
      pure_eq_ok]
    exact ⟨payload, read, rfl⟩

end RecordCodec
