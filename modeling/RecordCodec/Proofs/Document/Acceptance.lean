import RecordCodec.Document.Write
import RecordCodec.Proofs.Codec.Write
import RecordCodec.Proofs.Schema.WellFormed

/-!
# Which values have a document

Showing a value makes its tests in another order than writing it does, and
without any buffer.  It succeeds on exactly the values that the layout admits,
so a value has a document exactly when it has bytes.
-/

namespace RecordCodec

/-- Exactly the values that the layout admits have a document. -/
def Layout.Documented (layout : Layout) : Prop :=
  ∀ value, (∃ json, layout.document value = .ok json) ↔ layout.Admits value

theorem Scalar.exists_document_iff {scalar : Scalar} {value : Value} :
    (∃ json, scalar.document value = .ok json) ↔ scalar.Admits value := by
  rw [← Scalar.image_eq_ok_iff]
  simp only [Scalar.document, bind_eq_ok]
  constructor
  · rintro ⟨_, bytes, image, -⟩
    exact ⟨bytes, image⟩
  · rintro ⟨bytes, image⟩
    have admits := Scalar.image_eq_ok_iff.mp ⟨bytes, image⟩
    rw [exists_comm]
    refine ⟨bytes, ?_⟩
    cases value with
    | bool | unsigned | signed | single | double | text => exact ⟨_, image, rfl⟩
    | constant | flags | array | record | union =>
        cases scalar <;> simp [Scalar.Admits, Value.integer?] at admits

namespace ConstantSet

variable {set : ConstantSet} {value : Value} {json : Json}

theorem constantDocument_eq_ok_iff :
    set.constantDocument value = .ok json ↔
      ∃ name, value = .constant name ∧ set.Declares name ∧ json = .text name := by
  simp only [constantDocument, bind_eq_ok]
  cases value with
  | constant name =>
      simp only [constantWord, pure_eq_ok, ← valueOf_eq_ok_iff]
      constructor
      · rintro ⟨word, valued, rfl⟩
        exact ⟨name, rfl, ⟨word, valued⟩, rfl⟩
      · rintro ⟨_, ⟨⟩, ⟨word, valued⟩, rfl⟩
        exact ⟨word, valued, rfl⟩
  | _ => simp [constantWord]

theorem exists_constantDocument_iff :
    (∃ json, set.constantDocument value = .ok json) ↔ (Layout.enumeration set).Admits value := by
  simp only [constantDocument_eq_ok_iff, Layout.Admits]
  constructor
  · rintro ⟨_, name, rfl, declared, rfl⟩
    exact ⟨name, rfl, declared⟩
  · rintro ⟨name, rfl, declared⟩
    exact ⟨.text name, name, rfl, declared, rfl⟩

theorem flagsDocument_eq_ok_iff :
    set.flagsDocument value = .ok json ↔
      ∃ names, value = .flags names ∧ (∀ name ∈ names, set.Declares name) ∧
        json = .ofTexts names := by
  simp only [flagsDocument, bind_eq_ok]
  cases value with
  | flags names =>
      simp only [flagsWord, pure_eq_ok, ← combine_eq_ok_iff]
      constructor
      · rintro ⟨word, combined, rfl⟩
        exact ⟨names, rfl, ⟨word, combined⟩, rfl⟩
      · rintro ⟨_, ⟨⟩, ⟨word, combined⟩, rfl⟩
        exact ⟨word, combined, rfl⟩
  | _ => simp [flagsWord]

theorem exists_flagsDocument_iff :
    (∃ json, set.flagsDocument value = .ok json) ↔ (Layout.flags set).Admits value := by
  simp only [flagsDocument_eq_ok_iff, Layout.Admits]
  constructor
  · rintro ⟨_, names, rfl, declared, rfl⟩
    exact ⟨names, rfl, declared⟩
  · rintro ⟨names, rfl, declared⟩
    exact ⟨.ofTexts names, names, rfl, declared, rfl⟩

end ConstantSet

theorem exists_fieldDocument_iff {elementDocument : Value → Except Error Json}
    {admits : Value → Prop}
    (documented : ∀ value, (∃ json, elementDocument value = .ok json) ↔ admits value)
    {element : Layout} {count : Option Nat} {value : Value} :
    (∃ json, fieldDocument elementDocument element count value = .ok json) ↔
      FieldAdmits admits element count value := by
  cases count with
  | none => exact documented value
  | some count =>
      simp only [fieldDocument, FieldAdmits]
      split
      · rename_i text isChar
        by_cases room : text.utf8ByteSize ≤ count <;>
          simp [TextField.requireCapacity, isChar, room]
      · rename_i items
        by_cases length : items.length = count
        · simp [length, ← documented, ← exists_mapM_eq_ok]
        · simp [length]
      · rename_i notArray notText
        simp only [throw_eq_ok, exists_false, false_iff]
        rintro (⟨isChar, text, rfl, -⟩ | ⟨items, rfl, -⟩)
        · exact notText text rfl isChar
        · exact notArray items rfl

theorem FieldLayout.exists_memberDocuments_iff {fields : List FieldLayout} {type : String}
    {record : RecordValue} (documented : ∀ field ∈ fields, field.element.Documented) :
    (∃ members, FieldLayout.memberDocuments fields type record = .ok members) ↔
      FieldLayout.AdmitAll fields record := by
  induction fields with
  | nil => simp [FieldLayout.memberDocuments, FieldLayout.AdmitAll]
  | cons field rest ih =>
      cases field with
      | mk name element count offset length =>
          have first (value : Value) :
              (∃ json, fieldDocument element.document element count value = .ok json) ↔
                FieldAdmits element.Admits element count value :=
            exists_fieldDocument_iff (documented _ List.mem_cons_self)
          have others := ih fun other member => documented other (by simp [member])
          simp only [FieldLayout.memberDocuments, FieldLayout.AdmitAll, bind_eq_ok, pure_eq_ok,
            RecordLayout.fieldValue_eq_ok_iff, ← first, ← others]
          constructor
          · rintro ⟨_, value, found, json, shown, members, shownRest, -⟩
            exact ⟨⟨value, found, json, shown⟩, members, shownRest⟩
          · rintro ⟨⟨value, found, json, shown⟩, members, shownRest⟩
            exact ⟨_, value, found, json, shown, members, shownRest, rfl⟩

theorem VariantLayout.documentNamed_eq {variants : List VariantLayout} {type variant : String}
    {discriminator : Discriminator} {payload : RecordValue} {selected : VariantLayout}
    (found : variants.find? (fun other => other.name == variant) = some selected)
    (recorded : selected.member = .record selected.record) :
    VariantLayout.documentNamed variants type discriminator variant payload = (do
      selected.record.check payload
      let tag ← tagMembers type variant discriminator payload
      let members ← FieldLayout.memberDocuments selected.record.fields selected.record.name payload
      return .object (JsonMember.sort (tag ++ members))) := by
  have chosen : VariantLayout.documentNamed variants type discriminator variant payload =
      selected.member.memberDocument type discriminator variant payload := by
    apply choice_eq_of_found (fun variants =>
      VariantLayout.documentNamed variants type discriminator variant payload) _ found
    rintro ⟨name, tag, member⟩ rest
    rfl
  rw [chosen, recorded]
  cases selected.record
  rw [Layout.memberDocument]

theorem VariantLayout.found_of_documentNamed {variants : List VariantLayout}
    {type variant : String} {discriminator : Discriminator} {payload : RecordValue} {json : Json}
    (shown : VariantLayout.documentNamed variants type discriminator variant payload = .ok json) :
    ∃ selected, variants.find? (fun other => other.name == variant) = some selected := by
  apply exists_found_of_choice (fun variants =>
    VariantLayout.documentNamed variants type discriminator variant payload) _ (· = .ok json) nofun
    shown
  rintro ⟨name, tag, member⟩ rest differ
  exact if_neg differ

theorem exists_tagMembers_iff {union : UnionLayout} (tagged : union.Tagged)
    {selected : VariantLayout} (member : selected ∈ union.variants) {type : String}
    {payload : RecordValue} :
    (∃ members, tagMembers type selected.name union.discriminator payload = .ok members) ↔
      union.discriminator.Agrees selected.name payload := by
  cases shape : union.discriminator with
  | key key => simp [tagMembers, Discriminator.Agrees]
  | path fields offset =>
      have nonempty := (tagged.leads member shape).ne_nil
      simp [tagMembers, Discriminator.Agrees, UnionLayout.checkTag_eq_ok_iff nonempty]

/-- The document of a record is the object of its fields. -/
theorem RecordLayout.document_eq_ok_iff {layout : RecordLayout} {value : Value} {json : Json} :
    (Layout.record layout).document value = .ok json ↔
      ∃ record members, value = .record record ∧ layout.check record = .ok () ∧
        FieldLayout.memberDocuments layout.fields layout.name record = .ok members ∧
        json = .object (JsonMember.sort members) := by
  cases layout with
  | mk name fields length =>
      simp only [Layout.document, bind_eq_ok, pure_eq_ok, expectRecord_eq_ok_iff]
      constructor
      · rintro ⟨record, rfl, _, checked, members, shown, rfl⟩
        exact ⟨record, members, rfl, checked, shown, rfl⟩
      · rintro ⟨record, members, rfl, checked, shown, rfl⟩
        exact ⟨record, rfl, (), checked, members, shown, rfl⟩

/-- The document of a union is the object of its tag and its fields. -/
theorem UnionLayout.document_eq_ok_iff {union : UnionLayout} (tagged : union.Tagged)
    {value : Value} {json : Json} :
    (Layout.union union).document value = .ok json ↔
      ∃ selected ∈ union.variants, ∃ payload tag members,
        value = .union union.name selected.name payload ∧
        selected.record.check payload = .ok () ∧
        tagMembers union.name selected.name union.discriminator payload = .ok tag ∧
        FieldLayout.memberDocuments selected.record.fields selected.record.name payload =
          .ok members ∧
        json = .object (JsonMember.sort (tag ++ members)) := by
  have unfolded : (Layout.union union).document value = (do
      let selected ← UnionLayout.expect union.name value
      VariantLayout.documentNamed union.variants union.name union.discriminator selected.1
        selected.2) := by
    cases union
    rfl
  simp only [unfolded, bind_eq_ok]
  constructor
  · rintro ⟨⟨variant, payload⟩, expected, shown⟩
    obtain ⟨selected, found⟩ := VariantLayout.found_of_documentNamed shown
    obtain ⟨member, rfl⟩ := tagged.withName?_eq_some.mp found
    simp only [VariantLayout.documentNamed_eq found (tagged.recorded selected member), bind_eq_ok,
      pure_eq_ok] at shown
    obtain ⟨_, checked, tag, tagShown, members, shown, rfl⟩ := shown
    exact ⟨selected, member, payload, tag, members, UnionLayout.expect_eq_ok_iff.mp expected,
      checked, tagShown, shown, rfl⟩
  · rintro ⟨selected, member, payload, tag, members, rfl, checked, tagShown, shown, rfl⟩
    have found := tagged.withName?_eq_some.mpr ⟨member, rfl⟩
    refine ⟨_, UnionLayout.expect_eq_ok_iff.mpr rfl, ?_⟩
    simp only [VariantLayout.documentNamed_eq found (tagged.recorded selected member), bind_eq_ok,
      pure_eq_ok]
    exact ⟨(), checked, tag, tagShown, members, shown, rfl⟩

/-- A document exists for exactly the values that a type of a resolved schema admits. -/
theorem Layout.WellFormed.documented {layout : Layout} (wellFormed : layout.WellFormed) :
    layout.Documented := by
  induction wellFormed with
  | scalar => exact fun _ => Scalar.exists_document_iff
  | enumeration => exact fun _ => ConstantSet.exists_constantDocument_iff
  | flags => exact fun _ => ConstantSet.exists_flagsDocument_iff
  | @record record tiled elements documented =>
      intro value
      have shown_iff (payload : RecordValue) :
          (∃ members, FieldLayout.memberDocuments record.fields record.name payload = .ok members) ↔
            FieldLayout.AdmitAll record.fields payload :=
        FieldLayout.exists_memberDocuments_iff documented
      constructor
      · rintro ⟨json, shown⟩
        obtain ⟨payload, members, rfl, checked, shown, -⟩ :=
          RecordLayout.document_eq_ok_iff.mp shown
        obtain ⟨named, declared⟩ := RecordLayout.check_eq_ok_iff.mp checked
        have admitted := (shown_iff payload).mp ⟨members, shown⟩
        exact ⟨payload, rfl, RecordLayout.admits_iff.mpr
          ⟨named, declared, FieldLayout.admitAll_iff.mp admitted⟩⟩
      · rintro ⟨payload, rfl, admits⟩
        obtain ⟨-, -, admitted⟩ := RecordLayout.admits_iff.mp admits
        obtain ⟨members, shown⟩ := (shown_iff payload).mpr (FieldLayout.admitAll_iff.mpr admitted)
        exact ⟨_, RecordLayout.document_eq_ok_iff.mpr ⟨payload, members, rfl,
          RecordLayout.check_of_admits admits, shown, rfl⟩⟩
  | @union union tagged records documented =>
      intro value
      constructor
      · rintro ⟨json, shown⟩
        obtain ⟨selected, member, payload, tag, members, rfl, checked, tagShown, shown, -⟩ :=
          (UnionLayout.document_eq_ok_iff tagged).mp shown
        have agrees := (exists_tagMembers_iff tagged member).mp ⟨tag, tagShown⟩
        have payloadShown := RecordLayout.document_eq_ok_iff.mpr
          ⟨payload, members, rfl, checked, shown, rfl⟩
        have admits := (documented selected member _).mp ⟨_, payloadShown⟩
        exact ⟨selected.name, payload, rfl, agrees,
          tagged.exists_admits_iff.mpr ⟨selected, member, rfl, Layout.admits_record.mp admits⟩⟩
      · rintro ⟨variant, payload, rfl, agrees, fits⟩
        obtain ⟨selected, member, rfl, admits⟩ := tagged.exists_admits_iff.mp fits
        obtain ⟨tag, tagShown⟩ : ∃ tag, tagMembers union.name selected.name union.discriminator
            payload = .ok tag := (exists_tagMembers_iff tagged member).mpr agrees
        obtain ⟨_, payloadShown⟩ :=
          (documented selected member _).mpr (Layout.admits_record.mpr admits)
        obtain ⟨_, members, ⟨⟩, checked, shown, -⟩ :=
          RecordLayout.document_eq_ok_iff.mp payloadShown
        exact ⟨_, (UnionLayout.document_eq_ok_iff tagged).mpr
          ⟨selected, member, payload, tag, members, rfl, checked, tagShown, shown, rfl⟩⟩

namespace Schema

variable {declarations : List Declaration} {schema : Schema}

/-- For every type of an accepted schema, the values that can be written and
those that can be shown are the same: exactly those that the type admits. -/
theorem exists_toBytes_iff_exists_document_iff_admits
    (accepted : ofDeclarations declarations = .ok schema) {name : String} {layout : Layout}
    (found : schema.find? name = some layout) (value : Value) :
    ((∃ bytes, layout.toBytes value = .ok bytes) ↔ layout.Admits value) ∧
      ((∃ json, layout.document value = .ok json) ↔ layout.Admits value) := by
  have wellFormed := wellFormed_of_find? accepted found
  constructor
  · simp only [wellFormed.toBytes_eq_ok_iff]
    constructor
    · rintro ⟨_, admits, -⟩
      exact admits
    · intro admits
      exact ⟨_, admits, rfl⟩
  · exact wellFormed.documented value

theorem sample_message_written_and_shown :
    Sample.layout.Admits Sample.message ∧
      Sample.layout.toBytes Sample.message = .ok Sample.messageBytes ∧
      ∃ json, Sample.layout.document Sample.message = .ok json := by
  obtain ⟨writes, shows⟩ :=
    exists_toBytes_iff_exists_document_iff_admits Sample.accepted Sample.found Sample.message
  have admits := writes.mp ⟨_, Sample.message_written⟩
  exact ⟨admits, Sample.message_written, shows.mpr admits⟩

end Schema

end RecordCodec
