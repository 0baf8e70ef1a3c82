import RecordCodec.Proofs.Codec.RoundTrip
import RecordCodec.Proofs.Document.Equality
import RecordCodec.Proofs.Value.Symmetry

/-!
# Which values that mean the same are accepted

An integer type takes its number from either signedness, and a record its
fields in any order.  Only a character wants its number unsigned: a signed
integer in its place is refused whatever its number.  Apart from such integers,
values that mean the same are accepted together, in writing as in showing.
-/

namespace RecordCodec

/-- A signed integer stands in the place of a character. -/
inductive Layout.SignedChar : Layout → Value → Prop
  | char {name : String} {number : Int64} : SignedChar (.scalar name .char) (.signed number)
  | field {layout : RecordLayout} {record : RecordValue} {field : FieldLayout} {value : Value}
      (member : field ∈ layout.fields) (plain : field.count = none)
      (found : record.get? field.name = some value) (inside : SignedChar field.element value) :
      SignedChar (.record layout) (.record record)
  | item {layout : RecordLayout} {record : RecordValue} {field : FieldLayout} {count : Nat}
      {items : List Value} {item : Value} (member : field ∈ layout.fields)
      (counted : field.count = some count) (found : record.get? field.name = some (.array items))
      (among : item ∈ items) (inside : SignedChar field.element item) :
      SignedChar (.record layout) (.record record)
  | payload {union : UnionLayout} {selected : VariantLayout} {type : String}
      {payload : RecordValue} (member : selected ∈ union.variants)
      (inside : SignedChar (.record selected.record) (.record payload)) :
      SignedChar (.union union) (.union type selected.name payload)

/-- A value with a signed integer in the place of a character is not admitted. -/
theorem Layout.SignedChar.not_admits {layout : Layout} {value : Value}
    (signed : layout.SignedChar value) (wellFormed : layout.WellFormed) :
    ¬layout.Admits value := by
  induction signed with
  | char => simp [Layout.Admits, Scalar.Admits]
  | @field layout record field value member plain found _ ih =>
      intro admits
      have fits := (Layout.admits_record.mp admits).field member found
      rw [plain] at fits
      exact ih (wellFormed.element member) fits
  | @item layout record field count items item member counted found among _ ih =>
      intro admits
      have fits := (Layout.admits_record.mp admits).field member found
      rw [counted] at fits
      rcases fits with ⟨-, text, ⟨⟩, -⟩ | ⟨_, ⟨⟩, -, eachItem⟩
      exact ih (wellFormed.element member) (eachItem item among)
  | @payload union selected type payload member _ ih =>
      rintro ⟨_, _, ⟨⟩, -, fits⟩
      cases wellFormed with
      | union tagged records =>
          have admits := (tagged.admits_iff member).mp fits
          exact ih (records selected member) (Layout.admits_record.mpr admits)

/-- A path through records that mean the same ends at the same constant. -/
theorem RecordValue.tagAt?_of_equal {first second : RecordValue} {path : List String}
    {tag : String} (same : first.equal second = true) (found : first.tagAt? path = some tag) :
    second.tagAt? path = some tag := by
  induction path generalizing first second with
  | nil => cases found
  | cons name path ih =>
      by_cases last : path = []
      · subst last
        rw [RecordValue.tagAt?_singleton] at found ⊢
        obtain ⟨other, otherFound, equal⟩ := RecordValue.get?_of_equal same found
        rw [otherFound, Value.eq_of_equal rfl equal]
      · rw [RecordValue.tagAt?_cons last] at found ⊢
        obtain ⟨inner, innerFound, deeper⟩ := found
        obtain ⟨other, otherFound, equal⟩ := RecordValue.get?_of_equal same innerFound
        obtain ⟨otherInner, rfl, innerEqual⟩ := Value.equal_record_iff.mp equal
        exact ⟨otherInner, otherFound, ih innerEqual deeper⟩

/-- With a value the layout admits what means the same and has no signed integer in
the place of a character. -/
def Layout.AdmitsByMeaning (layout : Layout) : Prop :=
  ∀ first second, layout.Admits first → first.NamesApart → first.equal second = true →
    ¬layout.SignedChar second → layout.Admits second

theorem Scalar.admits_of_equal {scalar : Scalar} {first second : Value}
    (admits : scalar.Admits first) (same : first.equal second = true)
    (unsigned : scalar = .char → ∀ number, second ≠ .signed number) : scalar.Admits second := by
  have numbers := Value.integer?_eq_of_equal same
  cases scalar with
  | unsigned width | signed width =>
      obtain ⟨number, integer, inRange⟩ := admits
      exact ⟨number, numbers.symm.trans integer, inRange⟩
  | single | double | bool =>
      obtain ⟨bits, rfl⟩ := admits
      exact ⟨bits, Value.eq_of_equal rfl same⟩
  | char =>
      rcases admits with ⟨text, rfl, short⟩ | ⟨number, rfl, small⟩
      · exact .inl ⟨text, Value.eq_of_equal rfl same, short⟩
      · cases second with
        | unsigned other =>
            obtain rfl := eq_of_beq same
            exact .inr ⟨number, rfl, small⟩
        | signed other => exact absurd rfl (unsigned rfl other)
        | _ => cases same

theorem RecordLayout.admits_of_equal {layout : RecordLayout}
    (elements : ∀ field ∈ layout.fields, field.element.AdmitsByMeaning)
    {first second : RecordValue} (admits : layout.Admits first) (apart : first.NamesApart)
    (same : first.equal second = true)
    (unsigned : ¬(Layout.record layout).SignedChar (.record second)) : layout.Admits second := by
  obtain ⟨named, declared, each⟩ := RecordLayout.admits_iff.mp admits
  have distinct := (RecordValue.namesApart_iff.mp apart).1
  refine RecordLayout.admits_iff.mpr ⟨(RecordValue.equal_iff.mp same).1.symm.trans named, ?_, ?_⟩
  · intro field member
    obtain ⟨value, found, -⟩ := RecordValue.exists_of_mem_equal distinct same member
    exact declared ⟨field.name, value⟩ (RecordValue.mem_of_get? found)
  · intro field member
    obtain ⟨value, found, fits⟩ := each field member
    obtain ⟨other, otherFound, equal⟩ := RecordValue.get?_of_equal same found
    have valueApart := apart.of_get? found
    have transfer := elements field member
    refine ⟨other, otherFound, ?_⟩
    cases counted : field.count with
    | none =>
        rw [counted] at fits
        exact transfer value other fits valueApart equal fun inside =>
          unsigned (.field member counted otherFound inside)
    | some count =>
        rw [counted] at fits
        rcases fits with ⟨isChar, text, rfl, room⟩ | ⟨items, rfl, length, eachItem⟩
        · exact .inl ⟨isChar, text, Value.eq_of_equal rfl equal, room⟩
        · obtain ⟨others, rfl, related⟩ := Value.equal_array_iff.mp equal
          refine .inr ⟨others, rfl, related.length_eq.symm.trans length, ?_⟩
          intro other among
          obtain ⟨item, itemAmong, itemEqual⟩ := exists_mem_of_forall₂ related.flip among
          exact transfer item other (eachItem item itemAmong)
            (Value.namesApart_array.mp valueApart item itemAmong) itemEqual fun inside =>
              unsigned (.item member counted otherFound among inside)

/-- For every type of a resolved schema, only characters tell signed integers apart. -/
theorem Layout.WellFormed.admitsByMeaning {layout : Layout} (wellFormed : layout.WellFormed) :
    layout.AdmitsByMeaning := by
  induction wellFormed with
  | scalar =>
      intro first second admits _ same unsigned
      apply Scalar.admits_of_equal admits same
      rintro rfl number rfl
      exact unsigned .char
  | enumeration | flags =>
      rintro first second admits - same -
      obtain ⟨names, rfl, declared⟩ := admits
      exact ⟨names, Value.eq_of_equal rfl same, declared⟩
  | record _ _ elements =>
      rintro _ value ⟨first, rfl, admits⟩ apart same unsigned
      obtain ⟨second, rfl, equal⟩ := Value.equal_record_iff.mp same
      exact Layout.admits_record.mpr
        (RecordLayout.admits_of_equal elements admits apart equal unsigned)
  | @union union tagged _ records =>
      rintro _ value ⟨variant, first, rfl, agrees, fits⟩ apart same unsigned
      obtain ⟨second, rfl, equal⟩ := Value.equal_union_iff.mp same
      obtain ⟨selected, member, rfl, admits⟩ := tagged.exists_admits_iff.mp fits
      have payload := records selected member (.record first) (.record second)
        (Layout.admits_record.mpr admits) apart equal fun inside =>
          unsigned (.payload member inside)
      refine ⟨selected.name, second, rfl, ?_, tagged.exists_admits_iff.mpr
        ⟨selected, member, rfl, Layout.admits_record.mp payload⟩⟩
      cases shape : union.discriminator with
      | key => trivial
      | path path offset =>
          rw [shape] at agrees
          exact RecordValue.tagAt?_of_equal equal agrees

namespace Sample

theorem respelled_namesApart : respelled.NamesApart := by
  simp [respelled, Value.NamesApart, RecordValue.NamesApart, FieldValue.AllNamesApart,
    Value.ItemsNamesApart]

end Sample

namespace Schema

variable {declarations : List Declaration} {schema : Schema}

/-- Values that mean the same can be written, and shown, both or neither, as
long as no signed integer stands in the place of a character.  With one there a
value can be neither written nor shown. -/
theorem accepts_iff_of_equal (accepted : ofDeclarations declarations = .ok schema) {name : String}
    {layout : Layout} (found : schema.find? name = some layout) {first second : Value}
    (firstApart : first.NamesApart) (secondApart : second.NamesApart)
    (same : first.equal second = true) :
    (¬layout.SignedChar first → ¬layout.SignedChar second →
      ((∃ bytes, layout.toBytes first = .ok bytes) ↔ ∃ bytes, layout.toBytes second = .ok bytes) ∧
        ((∃ json, layout.document first = .ok json) ↔
          ∃ json, layout.document second = .ok json)) ∧
      ∀ value, layout.SignedChar value →
        (¬∃ bytes, layout.toBytes value = .ok bytes) ∧ ¬∃ json, layout.document value = .ok json := by
  have wellFormed := wellFormed_of_find? accepted found
  simp only [wellFormed.toBytes_eq_ok_iff, wellFormed.documented _, exists_and_left, exists_eq,
    and_true]
  constructor
  · intro firstUnsigned secondUnsigned
    have together : layout.Admits first ↔ layout.Admits second := by
      constructor
      · intro admits
        exact wellFormed.admitsByMeaning first second admits firstApart same secondUnsigned
      · intro admits
        exact wellFormed.admitsByMeaning second first admits secondApart
          (Value.equal_symm firstApart same) firstUnsigned
    exact ⟨together, together⟩
  · intro value signed
    have refused := signed.not_admits wellFormed
    exact ⟨refused, refused⟩

theorem sample_message_accepted_respelled :
    Sample.message.equal Sample.respelled = true ∧
      ((∃ bytes, Sample.layout.toBytes Sample.message = .ok bytes) ↔
        ∃ bytes, Sample.layout.toBytes Sample.respelled = .ok bytes) ∧
      ((∃ json, Sample.layout.document Sample.message = .ok json) ↔
        ∃ json, Sample.layout.document Sample.respelled = .ok json) := by
  have wellFormed := wellFormed_of_find? Sample.accepted Sample.found
  have unsigned {value : Value} (written : Sample.layout.toBytes value = .ok Sample.messageBytes)
      (signed : Sample.layout.SignedChar value) : False :=
    signed.not_admits wellFormed (wellFormed.toBytes_eq_ok_iff.mp written).1
  exact ⟨Sample.message_equal_respelled, (accepts_iff_of_equal Sample.accepted Sample.found
    Sample.message_namesApart Sample.respelled_namesApart Sample.message_equal_respelled).1
      (unsigned Sample.message_written) (unsigned Sample.respelled_written)⟩

/-- The number of a character is refused only because it is signed. -/
theorem signed_char_refused :
    ofDeclarations [] = .ok (builtIn []) ∧
      (builtIn []).find? "char" = some (.scalar "char" .char) ∧
      (Value.unsigned 200).equal (.signed 200) = true ∧
      (Layout.scalar "char" .char).toBytes (.unsigned 200) = .ok (Buffer.ofList [200]) ∧
      (Layout.scalar "char" .char).toBytes (.signed 200) =
        .error (.valueMismatch .char .signedInteger) ∧
      (Layout.scalar "char" .char).document (.unsigned 200) = .ok (.ofUnsigned 200) ∧
      (Layout.scalar "char" .char).document (.signed 200) =
        .error (.valueMismatch .char .signedInteger) := by
  refine ⟨rfl, rfl, rfl, ?_, ?_, rfl, rfl⟩
  · decide +kernel
  · decide +kernel

end Schema

end RecordCodec
