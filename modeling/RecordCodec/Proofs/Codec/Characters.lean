import RecordCodec.Proofs.Codec.Padding

/-!
# Characters as texts and as numbers

Whether characters are wanted as texts or as numbers has no part in what else is
read, in how many bytes are taken, or in whether reading fails.  The texts follow
from the numbers: `Layout.asText` puts them in the places of characters and leaves
all other places as they are.
-/

namespace RecordCodec

/-- The text of a character: nothing for zero, and no text from 128 on. -/
def textOfNumber : Value → Value
  | .unsigned number =>
      if number = 0 then .text ""
      else if number < 128 then .text (String.singleton (Char.ofNat number.toNat))
      else .unsigned number
  | value => value

def byteOfNumber? : Value → Option UInt8
  | .unsigned number => some number.toUInt8
  | _ => none

/-- The text of an array of characters: the bytes in front of the first zero.
The array remains what it is if these are not UTF-8. -/
def textOfNumbers (items : List Value) : Value :=
  let bytes := items.filterMap byteOfNumber?
  match Utf8.decode? (Buffer.ofList (bytes.takeWhile (· != 0))) with
  | some text => .text text
  | none => .array items

/-- One element, an array of characters, or another array, with texts for characters. -/
def fieldAsText (asText : Value → Value) (element : Layout) (count : Option Nat) (value : Value) :
    Value :=
  match count, value with
  | none, value => asText value
  | some _, .array items =>
      if element.isChar then textOfNumbers items else .array (items.map asText)
  | some _, value => value

mutual
/-- A value of the layout whose characters are numbers, with texts in their place. -/
def Layout.asText : Layout → Value → Value
  | .scalar _ .char, value => textOfNumber value
  | .record layout, .record record => .record (RecordLayout.asText layout record)
  | .union layout, .union type variant payload =>
      .union type variant (UnionLayout.asText layout variant payload)
  | _, value => value
/-- The record with texts for the characters in its fields. -/
def RecordLayout.asText : RecordLayout → RecordValue → RecordValue
  | ⟨_, fields, _⟩, ⟨type, values⟩ => ⟨type, FieldLayout.allAsText fields values⟩
/-- The values of the fields, which are in the declared order, with texts for characters. -/
def FieldLayout.allAsText : List FieldLayout → List FieldValue → List FieldValue
  | ⟨_, element, count, _, _⟩ :: rest, ⟨name, value⟩ :: values =>
      ⟨name, fieldAsText (fun value => Layout.asText element value) element count value⟩ ::
        FieldLayout.allAsText rest values
  | _, values => values
/-- The record of the selected variant with texts for characters. -/
def UnionLayout.asText : UnionLayout → String → RecordValue → RecordValue
  | ⟨_, _, _, variants⟩, variant, payload => VariantLayout.namedAsText variants variant payload
/-- The record of the first variant with the name, with texts for characters. -/
def VariantLayout.namedAsText : List VariantLayout → String → RecordValue → RecordValue
  | [], _, payload => payload
  | ⟨name, _, member⟩ :: rest, variant, payload =>
      if name = variant then (Layout.asText member (.record payload)).record?.getD payload
      else VariantLayout.namedAsText rest variant payload
end

theorem UnionLayout.Tagged.asText_eq {union : UnionLayout} (tagged : union.Tagged)
    {variant : String} {payload : RecordValue} {selected : VariantLayout}
    (found : union.withName? variant = some selected) :
    union.asText variant payload = selected.record.asText payload := by
  have recorded : selected.record.asText payload =
      (selected.member.asText (.record payload)).record?.getD payload := by
    rw [tagged.recorded_of_withName? found, Layout.asText]
    rfl
  rw [recorded]
  cases union with
  | mk name discriminator discriminant variants =>
      apply choice_eq_of_found
        (fun variants => VariantLayout.namedAsText variants variant payload) _ found
      rintro ⟨name, tag, member⟩ rest
      rfl

theorem textOfNumbers_numbers (bytes : Buffer) :
    textOfNumbers (bytes.toList.map fun byte => .unsigned byte.toUInt64) =
      TextField.ofBytes bytes := by
  have same : (bytes.toList.map fun byte => Value.unsigned byte.toUInt64).filterMap
      byteOfNumber? = bytes.toList := by
    simp [List.filterMap_map, Function.comp_def, byteOfNumber?]
  have front : Buffer.ofList (bytes.toList.takeWhile (· != 0)) = TextField.beforeZero bytes := by
    rw [← TextField.toList_beforeZero, Buffer.ofList_toList]
  simp only [textOfNumbers, same, front, TextField.ofBytes]
  rfl

/-- What is read with texts is what is read with numbers, with texts put in. -/
def Layout.Presents (strict : Bool) (buffer : Buffer) (layout : Layout) : Prop :=
  ∀ offset, layout.read ⟨strict, true⟩ buffer offset =
    Prod.map layout.asText id <$> layout.read ⟨strict, false⟩ buffer offset

section Field

variable {strict : Bool} {buffer : Buffer} {element : Layout}
  (presents : element.Presents strict buffer)

include presents

theorem readSlot_asText (offset : Nat) :
    readSlot ⟨strict, true⟩ buffer (element.read ⟨strict, true⟩ buffer) element offset =
      element.asText <$>
        readSlot ⟨strict, false⟩ buffer (element.read ⟨strict, false⟩ buffer) element offset := by
  unfold readSlot
  rw [presents offset, bind_map_left, map_bind]
  congr
  funext result
  -- Both runs test the padding behind the same number of bytes.
  cases strict with
  | false => rfl
  | true =>
      simp only [if_true, Prod.map_fst, Prod.map_snd, id_eq]
      split <;> rfl

theorem readField_asText (count : Option Nat) (offset : Nat) :
    readField ⟨strict, true⟩ buffer (element.read ⟨strict, true⟩ buffer) element count offset =
      fieldAsText element.asText element count <$>
        readField ⟨strict, false⟩ buffer (element.read ⟨strict, false⟩ buffer) element count
          offset := by
  cases count with
  | none => exact readSlot_asText presents offset
  | some count =>
      cases isChar : element.isChar with
      | true =>
          simp only [readField, isChar, if_true, Bool.false_eq_true, if_false, TextField.read,
            TextField.readNumbers, map_bind, map_pure, fieldAsText, TextField.numbers,
            textOfNumbers_numbers]
      | false =>
          simp only [readField, isChar, Bool.false_eq_true, if_false, map_bind, map_pure,
            fieldAsText, mapM_eq_map_mapM fun index => readSlot_asText presents _, bind_map_left]

end Field

section Layouts

variable {strict : Bool} {buffer : Buffer}

theorem FieldLayout.readAll_asText {fields : List FieldLayout}
    (presents : ∀ field ∈ fields, field.element.Presents strict buffer) (offset : Nat) :
    FieldLayout.readAll ⟨strict, true⟩ buffer fields offset =
      FieldLayout.allAsText fields <$>
        FieldLayout.readAll ⟨strict, false⟩ buffer fields offset := by
  induction fields with
  | nil => rfl
  | cons field rest ih =>
      cases field with
      | mk name element count fieldOffset length =>
          have first := readField_asText (presents _ List.mem_cons_self) count (offset + fieldOffset)
          have others := ih fun field among => presents field (List.mem_cons_of_mem _ among)
          simp only [FieldLayout.readAll, first, others, map_bind, bind_map_left, map_pure,
            FieldLayout.allAsText]

theorem RecordLayout.read_asText {layout : RecordLayout}
    (presents : ∀ field ∈ layout.fields, field.element.Presents strict buffer) (offset : Nat) :
    layout.read ⟨strict, true⟩ buffer offset =
      layout.asText <$> layout.read ⟨strict, false⟩ buffer offset := by
  cases layout with
  | mk name fields length =>
      rw [RecordLayout.read, RecordLayout.read, FieldLayout.readAll_asText presents]
      simp only [map_bind, bind_map_left, map_pure]
      rfl

/-- Both runs read the same tag, which selects the same record. -/
theorem UnionLayout.presents {union : UnionLayout} (tagged : union.Tagged)
    (presents : ∀ variant ∈ union.variants, ∀ field ∈ variant.record.fields,
      field.element.Presents strict buffer) : (Layout.union union).Presents strict buffer := by
  intro offset
  simp only [Layout.read]
  cases tag : union.readTag buffer offset with
  | error error =>
      rw [UnionLayout.read_eq, UnionLayout.read_eq, tag]
      rfl
  | ok constant =>
      have known := (tagged.readTag_eq_ok_iff.mp tag).2
      have among := ((ConstantSet.read_eq_ok_iff tagged.tags).mp known).1
      obtain ⟨selected, member, tags⟩ := tagged.complete constant among
      have same : constant = ⟨selected.name, selected.tag⟩ := by
        rw [tagged.name_eq member among tags, tags]
      rw [same] at tag
      have found := tagged.withName?_eq_some.mpr ⟨member, rfl⟩
      rw [UnionLayout.read_of_tag tagged member tag, UnionLayout.read_of_tag tagged member tag,
        RecordLayout.read_asText (presents selected member), bind_map_left, map_bind]
      simp only [map_pure, Prod.map_apply, id_eq, Layout.asText, tagged.asText_eq found]

/-- Texts follow from numbers, for every type of a resolved schema. -/
theorem Layout.WellFormed.presents {layout : Layout} (wellFormed : layout.WellFormed) :
    layout.Presents strict buffer := by
  induction wellFormed using Layout.WellFormed.elements_induction with
  | scalar name scalar =>
      intro offset
      rw [Layout.read, Layout.read, Scalar.readScalar_eq, Scalar.readScalar_eq]
      simp only [map_bind, map_pure, bind_assoc, pure_bind]
      cases scalar <;> rfl
  | enumeration constants distinct =>
      intro offset
      rw [Layout.read, Layout.read, map_bind]
      rfl
  | flags constants distinct =>
      intro offset
      rw [Layout.read, Layout.read, map_bind]
      rfl
  | record record tiled elements presents =>
      intro offset
      rw [Layout.read, Layout.read, RecordLayout.read_asText presents, bind_map_left, map_bind]
      rfl
  | union union tagged records presents => exact UnionLayout.presents tagged presents

end Layouts

namespace Sample

/-- The message that is read from the received bytes with numbers for characters. -/
def receivedNumbers : Value :=
  .union "Message" "Label" ⟨"Scene",
    [⟨"shift", .signed (-2)⟩, ⟨"mark", .unsigned 200⟩,
      ⟨"shapes", .array
        [.union "Shape" "Circle" ⟨"Circle",
          [⟨"head", .record ⟨"Head", [⟨"serial", .unsigned 7⟩, ⟨"kind", .constant "Circle"⟩]⟩⟩,
            ⟨"radius", .single 0x3fc00000⟩]⟩,
        .union "Shape" "Label" ⟨"Label",
          [⟨"head", .record ⟨"Head", [⟨"serial", .unsigned 8⟩, ⟨"kind", .constant "Label"⟩]⟩⟩,
            ⟨"style", .flags ["bold", "wide", "both"]⟩,
            ⟨"text", .array ([104, 105, 0, 106, 0, 107].map .unsigned)⟩]⟩]⟩]⟩

end Sample

namespace Schema

variable {declarations : List Declaration} {schema : Schema}

/-- Reading characters as texts and reading them as numbers fail alike, or both
succeed with as many bytes, and the texts follow from the numbers. -/
theorem text_read_of_number_read (accepted : ofDeclarations declarations = .ok schema)
    {name : String} {layout : Layout} (found : schema.find? name = some layout) (strict : Bool)
    (buffer : Buffer) (offset : Nat) :
    (∃ error, layout.read ⟨strict, true⟩ buffer offset = .error error ∧
      layout.read ⟨strict, false⟩ buffer offset = .error error) ∨
    ∃ numbers used, layout.read ⟨strict, false⟩ buffer offset = .ok (numbers, used) ∧
      layout.read ⟨strict, true⟩ buffer offset = .ok (layout.asText numbers, used) := by
  have presents : layout.Presents strict buffer := (wellFormed_of_find? accepted found).presents
  specialize presents offset
  cases numbers : layout.read ⟨strict, false⟩ buffer offset with
  | error error =>
      rw [numbers] at presents
      exact .inl ⟨error, presents, rfl⟩
  | ok result =>
      rw [numbers] at presents
      exact .inr ⟨result.1, result.2, rfl, presents⟩

theorem sample_received_numbers_as_text :
    Sample.layout.read ⟨false, false⟩ Sample.received 1 = .ok (Sample.receivedNumbers, 24) ∧
      Sample.layout.asText Sample.receivedNumbers = Sample.receivedMessage ∧
      Sample.layout.read ⟨false, true⟩ Sample.received 1 = .ok (Sample.receivedMessage, 24) := by
  have read : Sample.layout.read ⟨false, false⟩ Sample.received 1 =
      .ok (Sample.receivedNumbers, 24) := by decide +kernel
  have shown : Sample.layout.asText Sample.receivedNumbers = Sample.receivedMessage := by
    decide +kernel
  refine ⟨read, shown, ?_⟩
  rcases text_read_of_number_read Sample.accepted Sample.found false Sample.received 1 with
    ⟨error, -, failed⟩ | ⟨numbers, used, numbersRead, textRead⟩
  · rw [read] at failed
    cases failed
  · obtain ⟨rfl, rfl⟩ := Prod.mk.inj (Except.ok.inj (numbersRead.symm.trans read))
    rw [textRead, shown]

end Schema

end RecordCodec
