import RecordCodec.Proofs.Codec.Equality
import RecordCodec.Proofs.Document.Scalar

/-!
# The documents of values that mean the same

An integer is shown as its number and a record by the names of its fields, so
documents do not tell values apart that mean the same, no more than bytes do.
-/

namespace RecordCodec

/-- Scalars that mean the same are shown alike. -/
theorem Scalar.document_eq_of_equal {scalar : Scalar} {first second : Value}
    (firstAdmits : scalar.Admits first) (secondAdmits : scalar.Admits second)
    (same : first.equal second = true) : scalar.document first = scalar.document second := by
  have numbers := Value.integer?_eq_of_equal same
  cases isNumber : first.integer? with
  | some number =>
      obtain ⟨json, shown⟩ := Scalar.exists_document_iff.mpr firstAdmits
      obtain ⟨other, otherShown⟩ := Scalar.exists_document_iff.mpr secondAdmits
      obtain ⟨_, rfl⟩ := Scalar.document_of_integer? isNumber shown
      obtain ⟨_, rfl⟩ := Scalar.document_of_integer? (numbers.symm.trans isNumber) otherShown
      rw [shown, otherShown]
  | none =>
      have plain : first.isPlain = true := by
        cases scalar with
        | unsigned | signed =>
            obtain ⟨number, integer, -⟩ := firstAdmits
            exact absurd (isNumber.symm.trans integer) nofun
        | single | double | bool =>
            obtain ⟨_, rfl⟩ := firstAdmits
            rfl
        | char =>
            rcases firstAdmits with ⟨text, rfl, -⟩ | ⟨number, rfl, -⟩
            · rfl
            · cases isNumber
      rw [Value.eq_of_equal plain same]

section Match

variable {related : Value → Value → Prop} {document : Value → Except Error Json}
  (documents : ∀ first second, related first second → document first = document second)

include documents

theorem mapM_eq_of_forall₂ {items others : List Value}
    (same : List.Forall₂ related items others) : items.mapM document = others.mapM document := by
  induction same with
  | nil => rfl
  | cons first _ ih => rw [List.mapM_cons, List.mapM_cons, documents _ _ first, ih]

/-- The documents of fields that match are the same. -/
theorem FieldMatch.fieldDocument_eq {element : Layout} {count : Option Nat} {first second : Value}
    (matched : FieldMatch related count first second) :
    fieldDocument document element count first = fieldDocument document element count second := by
  cases matched with
  | one same => exact documents _ _ same
  | text => rfl
  | items same =>
      simp only [fieldDocument, same.length_eq, mapM_eq_of_forall₂ documents same]

end Match

/-- Values that mean the same have the same document. -/
def Layout.DocumentByMeaning (layout : Layout) : Prop :=
  ∀ first second, layout.Alike first second → layout.document first = layout.document second

theorem FieldLayout.memberDocuments_cons {field : FieldLayout} {rest : List FieldLayout}
    {type : String} {record : RecordValue} {value : Value}
    (found : record.get? field.name = some value) :
    FieldLayout.memberDocuments (field :: rest) type record = (do
      let json ← fieldDocument field.element.document field.element field.count value
      return ⟨field.name, json⟩ :: (← FieldLayout.memberDocuments rest type record)) := by
  cases field
  simp only [FieldLayout.memberDocuments, RecordLayout.fieldValue, found]
  rfl

/-- The members of records that match field by field are the same. -/
theorem FieldLayout.memberDocuments_eq_of_match {fields : List FieldLayout} {type : String}
    {first second : RecordValue}
    (elements : ∀ field ∈ fields, field.element.DocumentByMeaning)
    (matched : ∀ field ∈ fields, ∃ value other, first.get? field.name = some value ∧
      second.get? field.name = some other ∧
      FieldMatch field.element.Alike field.count value other) :
    FieldLayout.memberDocuments fields type first =
      FieldLayout.memberDocuments fields type second := by
  induction fields with
  | nil => rfl
  | cons field rest ih =>
      obtain ⟨element, restElements⟩ := List.forall_mem_cons.mp elements
      obtain ⟨⟨value, other, found, otherFound, same⟩, restMatched⟩ :=
        List.forall_mem_cons.mp matched
      have document : fieldDocument field.element.document field.element field.count value =
          fieldDocument field.element.document field.element field.count other :=
        same.fieldDocument_eq element
      have members := ih restElements restMatched
      rw [FieldLayout.memberDocuments_cons found, FieldLayout.memberDocuments_cons otherFound,
        document, members]

theorem RecordLayout.memberDocuments_eq_of_equal {layout : RecordLayout}
    (elements : ∀ field ∈ layout.fields, field.element.DocumentByMeaning)
    {first second : RecordValue} (firstAdmits : layout.Admits first)
    (secondAdmits : layout.Admits second) (same : first.equal second = true) :
    FieldLayout.memberDocuments layout.fields layout.name first =
      FieldLayout.memberDocuments layout.fields layout.name second :=
  FieldLayout.memberDocuments_eq_of_match elements fun _ member =>
    RecordLayout.match_of_equal firstAdmits secondAdmits same member

theorem RecordLayout.documentByMeaning {layout : RecordLayout}
    (wellFormed : (Layout.record layout).WellFormed)
    (elements : ∀ field ∈ layout.fields, field.element.DocumentByMeaning) :
    (Layout.record layout).DocumentByMeaning := by
  rintro _ _ ⟨⟨first, rfl, firstAdmits⟩, ⟨second, rfl, secondAdmits⟩, same⟩
  obtain ⟨json, shown⟩ := (wellFormed.documented _).mpr (Layout.admits_record.mpr firstAdmits)
  obtain ⟨_, members, ⟨⟩, -, membersShown, rfl⟩ := RecordLayout.document_eq_ok_iff.mp shown
  rw [RecordLayout.memberDocuments_eq_of_equal elements firstAdmits secondAdmits same]
    at membersShown
  rw [shown]
  exact (RecordLayout.document_eq_ok_iff.mpr ⟨second, members, rfl,
    RecordLayout.check_of_admits secondAdmits, membersShown, rfl⟩).symm

theorem tagMembers_eq_of_agrees {union : UnionLayout} (tagged : union.Tagged)
    {selected : VariantLayout} (member : selected ∈ union.variants) {first second : RecordValue}
    (firstAgrees : union.discriminator.Agrees selected.name first)
    (secondAgrees : union.discriminator.Agrees selected.name second) :
    tagMembers union.name selected.name union.discriminator first =
      tagMembers union.name selected.name union.discriminator second := by
  cases shape : union.discriminator with
  | key key => rfl
  | path path offset =>
      have nonempty := (tagged.leads member shape).ne_nil
      rw [shape] at firstAgrees secondAgrees
      have firstChecked : UnionLayout.checkTag union.name selected.name first path = .ok () :=
        (UnionLayout.checkTag_eq_ok_iff nonempty).mpr firstAgrees
      have secondChecked : UnionLayout.checkTag union.name selected.name second path = .ok () :=
        (UnionLayout.checkTag_eq_ok_iff nonempty).mpr secondAgrees
      simp only [tagMembers, firstChecked, secondChecked]

theorem UnionLayout.documentByMeaning {union : UnionLayout}
    (wellFormed : (Layout.union union).WellFormed) (tagged : union.Tagged)
    (elements : ∀ variant ∈ union.variants, ∀ field ∈ variant.record.fields,
      field.element.DocumentByMeaning) : (Layout.union union).DocumentByMeaning := by
  rintro _ _ ⟨firstFits, ⟨_, second, rfl, secondAgrees, secondFits⟩, same⟩
  obtain ⟨json, shown⟩ := (wellFormed.documented _).mpr firstFits
  obtain ⟨selected, member, first, tag, members, rfl, -, tagShown, membersShown, rfl⟩ :=
    (UnionLayout.document_eq_ok_iff tagged).mp shown
  obtain ⟨_, _, ⟨⟩, firstAgrees, firstFits⟩ := firstFits
  obtain ⟨_, ⟨⟩, payloads⟩ := Value.equal_union_iff.mp same
  have firstAdmits := (tagged.admits_iff member).mp firstFits
  have secondAdmits := (tagged.admits_iff member).mp secondFits
  rw [tagMembers_eq_of_agrees tagged member firstAgrees secondAgrees] at tagShown
  rw [RecordLayout.memberDocuments_eq_of_equal (elements selected member) firstAdmits secondAdmits
    payloads] at membersShown
  rw [shown]
  exact ((UnionLayout.document_eq_ok_iff tagged).mpr ⟨selected, member, second, tag, members, rfl,
    RecordLayout.check_of_admits secondAdmits, tagShown, membersShown, rfl⟩).symm

/-- For every type of a resolved schema, the document is a matter of meaning. -/
theorem Layout.WellFormed.documentByMeaning {layout : Layout} (wellFormed : layout.WellFormed) :
    layout.DocumentByMeaning := by
  induction wellFormed using Layout.WellFormed.elements_induction with
  | scalar =>
      rintro first second ⟨firstAdmits, secondAdmits, same⟩
      exact Scalar.document_eq_of_equal firstAdmits secondAdmits same
  | enumeration | flags =>
      rintro _ second ⟨⟨_, rfl, -⟩, -, same⟩
      rw [Value.eq_of_equal rfl same]
  | record _ tiled elements ih => exact RecordLayout.documentByMeaning (.record tiled elements) ih
  | union _ tagged records ih =>
      exact UnionLayout.documentByMeaning (.union tagged records) tagged ih

namespace Sample

/-- The message with the fields of its records in another order and with every
integer that is no character of the other signedness. -/
def respelled : Value :=
  .union "Message" "Label" ⟨"Scene",
    [⟨"shift", .signed (-2)⟩, ⟨"mark", .unsigned 200⟩,
      ⟨"shapes", .array
        [.union "Shape" "Circle" ⟨"Circle",
          [⟨"head", .record ⟨"Head", [⟨"serial", .unsigned 7⟩, ⟨"kind", .constant "Circle"⟩]⟩⟩,
            ⟨"radius", .single 0x3fc00000⟩]⟩,
        .union "Shape" "Label" ⟨"Label",
          [⟨"text", .text "h\u00e9"⟩, ⟨"style", .flags ["bold", "wide", "both"]⟩,
            ⟨"head", .record ⟨"Head", [⟨"kind", .constant "Label"⟩, ⟨"serial", .signed 8⟩]⟩⟩]⟩]⟩]⟩

theorem message_equal_respelled : message.equal respelled = true := by decide +kernel

theorem respelled_written : layout.toBytes respelled = .ok messageBytes := by decide +kernel

end Sample

namespace Schema

variable {declarations : List Declaration} {schema : Schema}

/-- Values that mean the same have the same bytes and the same document,
whichever of these both have.  So neither the order of the fields nor the
signedness of an integer shows in what is put out. -/
theorem outputs_eq_of_equal (accepted : ofDeclarations declarations = .ok schema) {name : String}
    {layout : Layout} (found : schema.find? name = some layout) {first second : Value}
    (same : first.equal second = true) :
    (∀ bytes other, layout.toBytes first = .ok bytes → layout.toBytes second = .ok other →
      bytes = other) ∧
      ∀ json other, layout.document first = .ok json → layout.document second = .ok other →
        json = other := by
  have wellFormed := wellFormed_of_find? accepted found
  constructor
  · intro bytes other written otherWritten
    obtain ⟨firstAdmits, rfl⟩ := wellFormed.toBytes_eq_ok_iff.mp written
    obtain ⟨secondAdmits, rfl⟩ := wellFormed.toBytes_eq_ok_iff.mp otherWritten
    rw [wellFormed.imageByMeaning first second ⟨firstAdmits, secondAdmits, same⟩]
  · intro json other shown otherShown
    have firstAdmits := (wellFormed.documented first).mp ⟨json, shown⟩
    have secondAdmits := (wellFormed.documented second).mp ⟨other, otherShown⟩
    have documents := wellFormed.documentByMeaning first second ⟨firstAdmits, secondAdmits, same⟩
    exact Except.ok.inj (shown.symm.trans (documents.trans otherShown))

theorem sample_message_respelled :
    Sample.message.equal Sample.respelled = true ∧
      (∃ bytes, Sample.layout.toBytes Sample.message = .ok bytes ∧
        Sample.layout.toBytes Sample.respelled = .ok bytes) ∧
      ∃ json, Sample.layout.document Sample.message = .ok json ∧
        Sample.layout.document Sample.respelled = .ok json := by
  obtain ⟨sameBytes, sameDocument⟩ :=
    outputs_eq_of_equal Sample.accepted Sample.found Sample.message_equal_respelled
  obtain ⟨bytes, written⟩ : ∃ bytes, Sample.layout.toBytes Sample.respelled = .ok bytes :=
    ⟨_, Sample.respelled_written⟩
  obtain ⟨json, shown⟩ : ∃ json, Sample.layout.document Sample.message = .ok json :=
    ⟨_, eq_ok_getD (by decide +kernel) .null⟩
  obtain ⟨other, shownAgain⟩ : ∃ json, Sample.layout.document Sample.respelled = .ok json :=
    ⟨_, eq_ok_getD (by decide +kernel) .null⟩
  obtain rfl := sameBytes _ _ Sample.message_written written
  obtain rfl := sameDocument _ _ shown shownAgain
  exact ⟨Sample.message_equal_respelled, ⟨_, Sample.message_written, written⟩, _, shown, shownAgain⟩

end Schema

end RecordCodec
