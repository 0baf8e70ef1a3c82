import RecordCodec.Proofs.Codec.Settled
import RecordCodec.Proofs.Value.Equality

/-!
# Writing and reading back

A value is lossless if its bytes tell it from all others: its texts hold no
zero character, its characters are not read as others, and its flags are all
those that their word contains.  What is read from the bytes of a lossless
value means the same as the value.
-/

namespace RecordCodec

/-- One lossless element, an array of them, or a text without the zero character. -/
def FieldLossless (lossless : Value → Prop) (element : Layout) (count : Option Nat)
    (value : Value) : Prop :=
  match count with
  | none => lossless value
  | some _ =>
      match value, element.isChar with
      | .text text, true => '\x00' ∉ text.toList
      | _, true => False
      | .array items, false => ∀ item ∈ items, lossless item
      | _, false => True

mutual
/-- The bytes of the value tell it from all others of the layout. -/
def Layout.Lossless : Layout → Value → Prop
  | .scalar _ scalar, value => scalar.Lossless value
  | .flags constants, .flags names =>
      (constants.combine names).map constants.contained = .ok names
  | .record layout, .record record => RecordLayout.Lossless layout record
  | .union layout, .union _ variant payload => UnionLayout.Lossless layout variant payload
  | _, _ => True
/-- The fields of the record are lossless. -/
def RecordLayout.Lossless : RecordLayout → RecordValue → Prop
  | ⟨_, fields, _⟩, record => FieldLayout.AllLossless fields record
/-- Whatever the record has under the names of the fields is lossless. -/
def FieldLayout.AllLossless : List FieldLayout → RecordValue → Prop
  | [], _ => True
  | ⟨name, element, count, _, _⟩ :: rest, record =>
      (match record.get? name with
        | some value => FieldLossless (fun value => Layout.Lossless element value) element count value
        | none => True) ∧
        FieldLayout.AllLossless rest record
/-- The record of the selected variant is lossless. -/
def UnionLayout.Lossless : UnionLayout → String → RecordValue → Prop
  | ⟨_, _, _, variants⟩, variant, payload => VariantLayout.LosslessNamed variants variant payload
/-- The record is lossless for the first variant with the name. -/
def VariantLayout.LosslessNamed : List VariantLayout → String → RecordValue → Prop
  | [], _, _ => True
  | ⟨name, _, member⟩ :: rest, variant, payload =>
      if name = variant then Layout.Lossless member (.record payload)
      else VariantLayout.LosslessNamed rest variant payload
end

theorem RecordLayout.Lossless.field {layout : RecordLayout} {record : RecordValue}
    (lossless : layout.Lossless record) {field : FieldLayout} (member : field ∈ layout.fields)
    {value : Value} (found : record.get? field.name = some value) :
    FieldLossless field.element.Lossless field.element field.count value := by
  cases layout with
  | mk name fields length =>
      simp only [RecordLayout.Lossless] at lossless
      induction fields with
      | nil => cases member
      | cons first rest ih =>
          cases first with
          | mk firstName element count offset firstLength =>
              obtain ⟨firstLossless, restLossless⟩ := lossless
              rcases List.mem_cons.mp member with rfl | inRest
              · rw [found] at firstLossless
                exact firstLossless
              · exact ih restLossless inRest

theorem UnionLayout.Tagged.lossless_iff {layout : UnionLayout} (tagged : layout.Tagged)
    {variant : String} {payload : RecordValue} {selected : VariantLayout}
    (found : layout.withName? variant = some selected) :
    layout.Lossless variant payload ↔ selected.record.Lossless payload := by
  have recorded : selected.record.Lossless payload =
      selected.member.Lossless (.record payload) := by
    rw [tagged.recorded_of_withName? found, Layout.Lossless]
  rw [recorded]
  cases layout with
  | mk name discriminator discriminant variants =>
      apply iff_of_eq
      apply choice_eq_of_found
        (fun variants => VariantLayout.LosslessNamed variants variant payload) _ found
      rintro ⟨name, tag, member⟩ rest
      rfl

/-- A lossless value means the same as what is read from its image. -/
def Layout.Recovers (layout : Layout) : Prop :=
  ∀ value, layout.Admits value → layout.Lossless value → value.NamesApart →
    (layout.restore true value).equal value = true

theorem equal_restoreField {element : Layout} (recovers : element.Recovers) {count : Option Nat}
    {value : Value} (fits : FieldAdmits element.Admits element count value)
    (lossless : FieldLossless element.Lossless element count value) (apart : value.NamesApart) :
    (restoreField true (element.restore true) element count
      (fieldImage element.image element count value) value).equal value = true := by
  cases count with
  | none => exact recovers value fits lossless apart
  | some count =>
      rcases fits with ⟨isChar, text, rfl, -⟩ | ⟨items, rfl, -, each⟩
      · have noZero : '\x00' ∉ text.toList := by
          simpa [FieldLossless, isChar] using lossless
        have clean : 0 ∉ text.toUTF8.data.toList := fun zero =>
          noZero (Utf8.zero_mem_of_zero_mem_toUTF8 zero)
        simp only [restoreField, isChar, if_true, fieldImage, TextField.ofBytes_filled clean]
        simp [Value.equal]
      · cases isChar : element.isChar with
        | true => simp [FieldLossless, isChar] at lossless
        | false =>
            have eachLossless : ∀ item ∈ items, element.Lossless item := by
              simpa [FieldLossless, isChar] using lossless
            have eachApart := Value.namesApart_array.mp apart
            simp only [restoreField, isChar, Bool.false_eq_true, if_false]
            exact Value.equal_array_map fun item member =>
              recovers item (each item member) (eachLossless item member) (eachApart item member)

theorem RecordLayout.equal_restore {layout : RecordLayout} (tiled : layout.Tiled)
    (recovers : ∀ field ∈ layout.fields, field.element.Recovers) {record : RecordValue}
    (admits : layout.Admits record) (lossless : layout.Lossless record)
    (apart : record.NamesApart) : (layout.restore true record).equal record = true := by
  obtain ⟨named, declared, each⟩ := RecordLayout.admits_iff.mp admits
  have restored : layout.restore true record =
      ⟨layout.name, FieldLayout.restoreAll true layout.fields record⟩ := by
    cases layout
    rfl
  rw [restored, RecordValue.equal_iff, FieldLayout.restoreAll_eq_map]
  refine ⟨named.symm, ?_, ?_⟩
  · rw [List.length_map,
      tiled.length_fields_eq admits (RecordValue.namesApart_iff.mp apart).1]
  · simp only [List.forall_mem_map]
    intro field member
    obtain ⟨value, found, fits⟩ := each field member
    refine ⟨value, found, ?_⟩
    simp only [found, Option.getD_some]
    exact equal_restoreField (recovers field member) fits (lossless.field member found)
      (apart.of_get? found)

/-- Lossless values are recovered, for every type of a resolved schema. -/
theorem Layout.WellFormed.recovers {layout : Layout} (wellFormed : layout.WellFormed) :
    layout.Recovers := by
  induction wellFormed with
  | scalar =>
      intro value admits lossless _
      exact Scalar.equal_fromWord admits lossless
  | enumeration =>
      rintro _ ⟨name, rfl, -⟩ - -
      simp [Layout.restore, Value.equal]
  | @flags constants distinct =>
      rintro _ ⟨names, rfl, declared⟩ lossless -
      obtain ⟨word, combined⟩ := ConstantSet.combine_eq_ok_iff.mpr declared
      have contained : constants.contained word = names := by
        simpa [Layout.Lossless, combined, Except.map] using lossless
      rw [Layout.restore, ConstantSet.word_bytes_flagsWord distinct combined, contained]
      simp [Value.equal]
  | @record record tiled elements recovers =>
      rintro _ ⟨payload, rfl, admits⟩ lossless apart
      rw [Layout.restore, Value.equal]
      exact RecordLayout.equal_restore tiled recovers admits lossless apart
  | @union union tagged records recovers =>
      rintro _ ⟨variant, payload, rfl, agrees, fits⟩ lossless apart
      obtain ⟨selected, member, rfl, admits⟩ := tagged.exists_admits_iff.mp fits
      have found := tagged.withName?_eq_some.mpr ⟨member, rfl⟩
      have same := recovers selected member (.record payload) (Layout.admits_record.mpr admits)
        ((tagged.lossless_iff found).mp lossless) apart
      rw [Layout.restore, Value.equal] at same
      rw [Layout.restore, tagged.restore_eq found, Value.equal, same]
      simp

namespace Sample

theorem message_namesApart : message.NamesApart := by
  simp [message, Value.NamesApart, RecordValue.NamesApart, FieldValue.AllNamesApart,
    Value.ItemsNamesApart]

theorem message_held : message.Held := by
  have leaf {value : Value} (leaf : value.isLeaf = true) := Value.held_of_isLeaf leaf
  simp only [message, Value.held_union, RecordValue.held_iff, Value.held_array,
    List.forall_mem_cons, List.not_mem_nil, false_imp_iff, implies_true, and_true]
  exact ⟨⟨by decide, ⟨leaf rfl, leaf rfl, leaf rfl⟩, ⟨leaf rfl, leaf rfl⟩, leaf rfl, leaf rfl⟩,
    leaf rfl, leaf rfl⟩

theorem message_lossless : layout.Lossless message := by
  rw [layout_eq]
  cbv
  refine ⟨.inr ⟨200, rfl, by decide⟩, ?_, trivial⟩
  intro shape member
  simp only [List.mem_cons, List.not_mem_nil, or_false] at member
  rcases member with rfl | rfl
  · cbv
  · cbv
    exact ⟨show '\x00' ∉ ['h', 'é'] by decide, trivial⟩

end Sample

namespace Schema

variable {declarations : List Declaration} {schema : Schema}

/-- What is read from the bytes of a lossless value means the same as the value. -/
theorem read_toBytes (accepted : ofDeclarations declarations = .ok schema) {name : String}
    {layout : Layout} (found : schema.find? name = some layout) {value : Value}
    (apart : value.NamesApart) (held : value.Held) {bytes : Buffer}
    (written : layout.toBytes value = .ok bytes) (lossless : layout.Lossless value) :
    ∃ again, layout.read ⟨true, true⟩ bytes 0 = .ok (again, bytes.size) ∧
      again.equal value = true := by
  have wellFormed := wellFormed_of_find? accepted found
  obtain ⟨admits, rfl⟩ := wellFormed.toBytes_eq_ok_iff.mp written
  have short : (Buffer.ofList (layout.image value)).size < 2 ^ 64 := by
    rw [Buffer.size_ofList]
    exact wellFormed.length_image_lt admits
  refine ⟨layout.restore true value, ?_, wellFormed.recovers value admits lossless apart⟩
  rw [Buffer.size_ofList]
  exact wellFormed.readable ⟨true, true⟩ short value admits held 0 (Buffer.holds_ofList _)

theorem sample_message_read_back :
    Sample.layout.toBytes Sample.message = .ok Sample.messageBytes ∧
      ∃ again, Sample.layout.read ⟨true, true⟩ Sample.messageBytes 0 =
          .ok (again, Sample.messageBytes.size) ∧ again.equal Sample.message = true :=
  ⟨Sample.message_written, read_toBytes Sample.accepted Sample.found
    Sample.message_namesApart Sample.message_held Sample.message_written Sample.message_lossless⟩

end Schema

end RecordCodec
