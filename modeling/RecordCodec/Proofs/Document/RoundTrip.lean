import RecordCodec.Proofs.Document.Acceptance
import RecordCodec.Proofs.Document.Read
import RecordCodec.Proofs.Json.Decidable
import RecordCodec.Proofs.Json.Members

/-!
# Values from their own document

The members of an object come in the order of their keys and are looked up one
by one, so the fields of a record are found whatever is between them.  The tag
of a union is either one more member, under a key that no field has, or at the
end of the path that also leads to it in the payload.
-/

namespace RecordCodec

/-- The document of a value stands for a value that means the same once floats are canonical. -/
def Layout.Rebuilds (layout : Layout) : Prop :=
  ∀ value json, layout.Admits value → value.NamesApart → layout.document value = .ok json →
    ∀ path, ∃ again, layout.ofDocument json path = .ok again ∧ again.equal value.canonical = true

theorem FieldLayout.memberDocuments_eq_ok_iff {fields : List FieldLayout} {type : String}
    {record : RecordValue} {members : List JsonMember} :
    FieldLayout.memberDocuments fields type record = .ok members ↔
      List.Forall₂ (fun field member => member.key = field.name ∧
        ∃ value, record.get? field.name = some value ∧
          fieldDocument field.element.document field.element field.count value =
            .ok member.value) fields members := by
  induction fields generalizing members with
  | nil =>
      rw [FieldLayout.memberDocuments, pure_eq_ok, List.forall₂_nil_left_iff, eq_comm]
  | cons field rest ih =>
      cases field with
      | mk name element count offset length =>
          simp only [FieldLayout.memberDocuments, bind_eq_ok, pure_eq_ok,
            RecordLayout.fieldValue_eq_ok_iff, List.forall₂_cons_left_iff, ih]
          constructor
          · rintro ⟨value, found, json, shown, others, restShown, rfl⟩
            exact ⟨⟨name, json⟩, others, ⟨rfl, value, found, shown⟩, restShown, rfl⟩
          · rintro ⟨⟨_, json⟩, others, ⟨rfl, value, found, shown⟩, restShown, rfl⟩
            exact ⟨value, found, json, shown, others, restShown, rfl⟩

/-- The items of an array are rebuilt one by one. -/
theorem exists_readItems {readElement : Json → NodePath → Except Error Value}
    {items : List Value} {nodes : List Json}
    (rebuilt : List.Forall₂ (fun item node => ∀ path, ∃ again,
      readElement node path = .ok again ∧ again.equal item.canonical = true) items nodes)
    (path : NodePath) (index : Nat) :
    ∃ results, readItems readElement path index nodes = .ok results ∧
      Value.equalItems results (Value.canonicalItems items) = true := by
  induction rebuilt generalizing index with
  | nil => exact ⟨[], rfl, rfl⟩
  | @cons item node items nodes first _ ih =>
      obtain ⟨again, read, same⟩ := first (.element index :: path)
      obtain ⟨results, readRest, sameRest⟩ := ih (index + 1)
      refine ⟨again :: results, ?_, ?_⟩
      · simp [readItems, read, readRest]
      · simp [Value.equalItems, Value.canonicalItems, same, sameRest]

theorem exists_fieldOfDocument {element : Layout} (rebuilds : element.Rebuilds)
    {count : Option Nat} {value : Value} {json : Json}
    (fits : FieldAdmits element.Admits element count value) (apart : value.NamesApart)
    (shown : fieldDocument element.document element count value = .ok json) (path : NodePath) :
    ∃ again, fieldOfDocument element.ofDocument element count json path = .ok again ∧
      again.equal value.canonical = true := by
  cases count with
  | none => exact rebuilds value json fits apart shown path
  | some count =>
      rcases fits with ⟨isChar, text, rfl, room⟩ | ⟨items, rfl, length, each⟩
      · have room : TextField.requireCapacity text count = .ok () := if_pos room
        simp only [fieldDocument, isChar, room] at shown
        obtain rfl := Except.ok.inj shown
        refine ⟨.text text, ?_, ?_⟩
        · simp only [fieldOfDocument, isChar, room]
          rfl
        · simp [Value.canonical, Value.equal]
      · simp only [fieldDocument, if_pos length, bind_eq_ok, pure_eq_ok, mapM_eq_ok] at shown
        obtain ⟨nodes, nodesShown, rfl⟩ := shown
        have eachApart := Value.namesApart_array.mp apart
        have rebuilt : List.Forall₂ (fun item node => ∀ path, ∃ again,
            element.ofDocument node path = .ok again ∧ again.equal item.canonical = true)
            items nodes := by
          have both := (List.forall₂_and_left _ _).mpr
            ⟨fun item member => And.intro (each item member) (eachApart item member), nodesShown⟩
          apply both.imp
          rintro item node ⟨⟨admits, apart⟩, shown⟩
          exact rebuilds item node admits apart shown
        obtain ⟨results, read, same⟩ := exists_readItems rebuilt path 0
        refine ⟨.array results, ?_, ?_⟩
        · simp [fieldOfDocument, Json.items?, ← nodesShown.length_eq, length, read]
        · rw [Value.canonical, Value.equal]
          exact same

section Record

variable {layout : RecordLayout} {payload : RecordValue} {members all : List JsonMember}
  (shown : FieldLayout.memberDocuments layout.fields layout.name payload = .ok members)

include shown

/-- The members that show a record have the names of its fields. -/
theorem RecordLayout.keys_of_shown :
    members.map JsonMember.key = layout.fields.map FieldLayout.name := by
  apply map_eq_map_of_forall₂
  exact (FieldLayout.memberDocuments_eq_ok_iff.mp shown).flip.imp fun _ _ related => related.1

/-- Each field is shown by the member that is found under its name. -/
theorem RecordLayout.exists_shown
    (found : ∀ member ∈ members, JsonMember.find? all member.key = some member.value)
    {field : FieldLayout} (among : field ∈ layout.fields) :
    ∃ value json, payload.get? field.name = some value ∧
      JsonMember.find? all field.name = some json ∧
      fieldDocument field.element.document field.element field.count value = .ok json := by
  obtain ⟨member, inMembers, key, value, held, document⟩ :=
    exists_mem_of_forall₂ (FieldLayout.memberDocuments_eq_ok_iff.mp shown) among
  refine ⟨value, member.value, held, ?_, document⟩
  rw [← key]
  exact found member inMembers

/-- Each member that shows a record is under the name of a field. -/
theorem RecordLayout.declared_of_shown {member : JsonMember} (among : member ∈ members) :
    ∃ field ∈ layout.fields, field.name = member.key := by
  have named : member.key ∈ layout.fields.map FieldLayout.name := by
    rw [← RecordLayout.keys_of_shown shown]
    exact List.mem_map_of_mem among
  exact List.mem_map.mp named

/-- A record is rebuilt from an object that has its members and at most the discriminator key. -/
theorem RecordLayout.exists_ofDocument (tiled : layout.Tiled)
    (rebuilds : ∀ field ∈ layout.fields, field.element.Rebuilds) (admits : layout.Admits payload)
    (apart : payload.NamesApart)
    (found : ∀ member ∈ members, JsonMember.find? all member.key = some member.value)
    {key : Option String} (others : ∀ member ∈ all, member ∈ members ∨ some member.key = key)
    (path : NodePath) :
    ∃ again, layout.ofDocument key all path = .ok again ∧
      again.equal payload.canonical = true := by
  obtain ⟨named, -, -⟩ := RecordLayout.admits_iff.mp admits
  have eachRebuilt : ∀ field ∈ layout.fields, ∃ result : FieldValue,
      (∃ value, payload.get? field.name = some value ∧
        result.value.equal value.canonical = true) ∧
      result.name = field.name ∧ ∃ json, JsonMember.find? all field.name = some json ∧
        fieldOfDocument field.element.ofDocument field.element field.count json
          (.field field.name :: path) = .ok result.value := by
    intro field among
    obtain ⟨value, json, held, foundJson, document⟩ := RecordLayout.exists_shown shown found among
    obtain ⟨again, read, same⟩ := exists_fieldOfDocument (rebuilds field among)
      (admits.field among held) (apart.of_get? held) document (.field field.name :: path)
    exact ⟨⟨field.name, again⟩, ⟨value, held, same⟩, rfl, json, foundJson, read⟩
  obtain ⟨results, related⟩ := exists_forall₂_iff.mpr eachRebuilt
  refine ⟨⟨layout.name, results⟩, ?_, ?_⟩
  · have read : FieldLayout.ofDocumentAll layout.fields layout.name all path = .ok results :=
      FieldLayout.ofDocumentAll_eq_ok_iff.mpr (related.imp fun _ _ both => both.2)
    refine RecordLayout.ofDocument_eq_ok_iff.mpr ⟨fun member among => ?_, rfl, read⟩
    rcases others member among with inMembers | tag
    · exact .inr (RecordLayout.declared_of_shown shown inMembers)
    · exact .inl tag
  · rw [RecordValue.equal_iff]
    refine ⟨?_, ?_, ?_⟩
    · rw [RecordValue.type_canonical, named]
    · rw [RecordValue.fields_canonical, List.length_map, ← related.length_eq,
        tiled.length_fields_eq admits (RecordValue.namesApart_iff.mp apart).1]
    · intro result among
      obtain ⟨field, -, ⟨value, held, same⟩, name, -⟩ := exists_mem_of_forall₂ related.flip among
      refine ⟨value.canonical, ?_, same⟩
      rw [RecordValue.get?_canonical, name, held]
      rfl

end Record

theorem RecordLayout.find?_sort_shown {layout : RecordLayout} (tiled : layout.Tiled)
    {payload : RecordValue} {members : List JsonMember}
    (shown : FieldLayout.memberDocuments layout.fields layout.name payload = .ok members) :
    ∀ member ∈ members,
      JsonMember.find? (JsonMember.sort members) member.key = some member.value := by
  have distinct : (members.map JsonMember.key).Nodup := by
    rw [RecordLayout.keys_of_shown shown]
    exact tiled.names
  exact fun member among => JsonMember.find?_sort_of_mem distinct among

/-- The path to the tag in the payload leads to the name of the variant in the document. -/
theorem RecordLayout.Leads.getPath?_document {layout : RecordLayout} {path : List String}
    {tags : ConstantSet} {offset : Nat} (leads : layout.Leads path tags offset)
    (wellFormed : (Layout.record layout).WellFormed) {payload : RecordValue}
    {members all : List JsonMember}
    (shown : FieldLayout.memberDocuments layout.fields layout.name payload = .ok members)
    (found : ∀ member ∈ members, JsonMember.find? all member.key = some member.value)
    {variant : String} (agrees : payload.tagAt? path = some variant) :
    (Json.object all).getPath? path = some (.text variant) := by
  induction leads generalizing payload members all with
  | @here layout field tags among plain shape =>
      obtain ⟨value, json, held, foundJson, document⟩ :=
        RecordLayout.exists_shown shown found among
      rw [RecordValue.tagAt?_singleton, held] at agrees
      obtain rfl := Option.some.inj agrees
      rw [plain, shape] at document
      obtain ⟨_, ⟨⟩, -, rfl⟩ := ConstantSet.constantDocument_eq_ok_iff.mp document
      simp [Json.getPath?, Json.get?, Json.members?, foundJson]
  | @through layout inner field path tags offset among plain shape deeper ih =>
      obtain ⟨value, json, held, foundJson, document⟩ :=
        RecordLayout.exists_shown shown found among
      obtain ⟨record, heldRecord, innerAgrees⟩ :=
        (RecordValue.tagAt?_cons deeper.ne_nil).mp agrees
      obtain rfl : value = .record record := Option.some.inj (held.symm.trans heldRecord)
      rw [plain, shape] at document
      obtain ⟨_, innerMembers, ⟨⟩, -, innerShown, rfl⟩ :=
        RecordLayout.document_eq_ok_iff.mp document
      have innerWellFormed := wellFormed.inner among shape
      have reached := ih innerWellFormed innerShown
        (RecordLayout.find?_sort_shown innerWellFormed.tiled innerShown) innerAgrees
      simp only [Json.getPath?, List.foldlM_cons, Json.get?, Json.members?, foundJson,
        Option.bind_eq_bind, Option.bind_some]
      exact reached

theorem UnionLayout.Tagged.not_declared {union : UnionLayout} (tagged : union.Tagged) {key : String}
    (keyed : union.discriminator = .key key) {selected : VariantLayout}
    (among : selected ∈ union.variants) : ∀ field ∈ selected.record.fields, field.name ≠ key := by
  have fresh := tagged.keyed key keyed selected among
  simpa [RecordLayout.hasField] using fresh

/-- The discriminator key is besides the keys that show the payload. -/
theorem UnionLayout.Tagged.nodup_keys {union : UnionLayout} (tagged : union.Tagged) {key : String}
    (keyed : union.discriminator = .key key) {selected : VariantLayout}
    (among : selected ∈ union.variants) (tiled : selected.record.Tiled) {payload : RecordValue}
    {members : List JsonMember}
    (shown : FieldLayout.memberDocuments selected.record.fields selected.record.name payload =
      .ok members) :
    ((([⟨key, .text selected.name⟩] : List JsonMember) ++ members).map JsonMember.key).Nodup := by
  rw [List.map_append, RecordLayout.keys_of_shown shown]
  refine List.nodup_cons.mpr ⟨?_, tiled.names⟩
  intro named
  obtain ⟨field, inFields, same⟩ := List.mem_map.mp named
  exact tagged.not_declared keyed among field inFields same

/-- The object of a union has the members of its payload, besides at most the
discriminator key, and names the variant where the discriminator says. -/
theorem UnionLayout.shown_in_document {union : UnionLayout} (tagged : union.Tagged)
    {selected : VariantLayout} (among : selected ∈ union.variants)
    (wellFormed : (Layout.record selected.record).WellFormed) {payload : RecordValue}
    (agrees : union.discriminator.Agrees selected.name payload) {tag members : List JsonMember}
    (tagShown : tagMembers union.name selected.name union.discriminator payload = .ok tag)
    (shown : FieldLayout.memberDocuments selected.record.fields selected.record.name payload =
      .ok members) :
    variantNode union.discriminator (.object (JsonMember.sort (tag ++ members))) =
        some (.text selected.name) ∧
      (∀ member ∈ members,
        JsonMember.find? (JsonMember.sort (tag ++ members)) member.key = some member.value) ∧
      ∀ member ∈ JsonMember.sort (tag ++ members),
        member ∈ members ∨ some member.key = union.discriminator.key? := by
  have tiled := wellFormed.tiled
  cases shape : union.discriminator with
  | key key =>
      rw [shape] at tagShown
      obtain rfl := Except.ok.inj tagShown
      have distinct := tagged.nodup_keys shape among tiled shown
      refine ⟨?_, ?_, ?_⟩
      · exact JsonMember.find?_sort_of_mem distinct List.mem_cons_self
      · intro member inMembers
        exact JsonMember.find?_sort_of_mem distinct (List.mem_append_right _ inMembers)
      · intro member inSorted
        rcases List.mem_cons.mp (JsonMember.mem_of_mem_sort inSorted) with rfl | inMembers
        · exact .inr rfl
        · exact .inl inMembers
  | path path offset =>
      have leads := tagged.leads among shape
      rw [shape] at tagShown agrees
      simp only [tagMembers, bind_eq_ok, pure_eq_ok] at tagShown
      obtain ⟨_, -, rfl⟩ := tagShown
      have found := RecordLayout.find?_sort_shown tiled shown
      refine ⟨leads.getPath?_document wellFormed shown found agrees, found, ?_⟩
      intro member inSorted
      exact .inl (JsonMember.mem_of_mem_sort inSorted)

theorem RecordLayout.rebuilds {layout : RecordLayout} (tiled : layout.Tiled)
    (elements : ∀ field ∈ layout.fields, field.element.Rebuilds) :
    (Layout.record layout).Rebuilds := by
  rintro _ json ⟨payload, rfl, admits⟩ apart shown path
  obtain ⟨_, members, ⟨⟩, -, fieldsShown, rfl⟩ := RecordLayout.document_eq_ok_iff.mp shown
  have others : ∀ member ∈ JsonMember.sort members, member ∈ members ∨ some member.key = none :=
    fun member among => .inl (JsonMember.mem_of_mem_sort among)
  obtain ⟨again, read, same⟩ := RecordLayout.exists_ofDocument fieldsShown tiled elements admits
    apart (RecordLayout.find?_sort_shown tiled fieldsShown) others path
  refine ⟨.record again, ?_, ?_⟩
  · exact Layout.ofDocument_record_eq_ok_iff.mpr ⟨_, rfl, again, read, rfl⟩
  · rw [Value.canonical, Value.equal]
    exact same

theorem UnionLayout.rebuilds {union : UnionLayout} (tagged : union.Tagged)
    (records : ∀ variant ∈ union.variants, (Layout.record variant.record).WellFormed)
    (elements : ∀ variant ∈ union.variants, ∀ field ∈ variant.record.fields,
      field.element.Rebuilds) : (Layout.union union).Rebuilds := by
  intro value json unionAdmits apart shown path
  obtain ⟨selected, among, payload, tag, members, rfl, -, tagShown, fieldsShown, rfl⟩ :=
    (UnionLayout.document_eq_ok_iff tagged).mp shown
  obtain ⟨_, _, ⟨⟩, agrees, fits⟩ := unionAdmits
  have admits := (tagged.admits_iff among).mp fits
  obtain ⟨node, found, others⟩ := UnionLayout.shown_in_document tagged among
    (records selected among) agrees tagShown fieldsShown
  obtain ⟨again, read, equal⟩ := RecordLayout.exists_ofDocument fieldsShown
    (records selected among).tiled (elements selected among) admits apart found others path
  refine ⟨.union union.name selected.name again, ?_, ?_⟩
  · exact (UnionLayout.ofDocument_eq_ok_iff tagged).mpr
      ⟨_, rfl, selected, among, again, node, read, rfl⟩
  · rw [Value.canonical, Value.equal, equal]
    simp

/-- Values of a type of a resolved schema are rebuilt. -/
theorem Layout.WellFormed.rebuilds {layout : Layout} (wellFormed : layout.WellFormed) :
    layout.Rebuilds := by
  induction wellFormed using Layout.WellFormed.elements_induction with
  | scalar =>
      exact fun value json admits _ shown => Scalar.exists_ofDocument_document admits shown
  | enumeration =>
      rintro _ json ⟨name, rfl, declared⟩ - shown path
      obtain ⟨_, ⟨⟩, -, rfl⟩ := ConstantSet.constantDocument_eq_ok_iff.mp shown
      exact ⟨.constant name, ConstantSet.constantOfDocument_text declared path, by
        simp [Value.canonical, Value.equal]⟩
  | flags =>
      rintro _ json ⟨names, rfl, declared⟩ - shown path
      obtain ⟨_, ⟨⟩, -, rfl⟩ := ConstantSet.flagsDocument_eq_ok_iff.mp shown
      exact ⟨.flags names, ConstantSet.flagsOfDocument_ofTexts declared path, by
        simp [Value.canonical, Value.equal]⟩
  | record _ tiled _ elements => exact RecordLayout.rebuilds tiled elements
  | union _ tagged records elements => exact UnionLayout.rebuilds tagged records elements

namespace Sample

/-- The layout of a shape. -/
def shape : Layout :=
  (schema.find? "Shape").getD (.scalar "" .bool)

theorem shape_found : schema.find? "Shape" = some shape :=
  eq_some_getD (by decide +kernel) _

/-- A circle whose radius is no number, with a payload of its own. -/
def unmeasured : Value :=
  .union "Shape" "Circle" ⟨"Circle",
    [⟨"radius", .single 0xff800001⟩,
      ⟨"head", .record ⟨"Head", [⟨"kind", .constant "Circle"⟩, ⟨"serial", .signed 7⟩]⟩⟩]⟩

theorem unmeasured_namesApart : unmeasured.NamesApart := by
  simp [unmeasured, Value.NamesApart, RecordValue.NamesApart, FieldValue.AllNamesApart]

/-- The document of that circle. -/
def unmeasuredDocument : Json :=
  .object
    [⟨"head", .object [⟨"kind", .text "Circle"⟩, ⟨"serial", .ofSigned 7⟩]⟩,
      ⟨"radius", .text "NaN"⟩]

end Sample

namespace Schema

variable {declarations : List Declaration} {schema : Schema}

/-- The document of a value stands for a value that means the same once every
float that is no number is the quiet one; with only quiet ones it means the
same as the value itself. -/
theorem ofDocument_document (accepted : ofDeclarations declarations = .ok schema) {name : String}
    {layout : Layout} (found : schema.find? name = some layout) {value : Value}
    (apart : value.NamesApart) {json : Json} (shown : layout.document value = .ok json)
    (path : NodePath) :
    ∃ again, layout.ofDocument json path = .ok again ∧ again.equal value.canonical = true ∧
      (value.Quiet → again.equal value = true) := by
  have wellFormed := wellFormed_of_find? accepted found
  have admits := (wellFormed.documented value).mp ⟨json, shown⟩
  obtain ⟨again, read, same⟩ := wellFormed.rebuilds value json admits apart shown path
  refine ⟨again, read, same, ?_⟩
  intro quiet
  rwa [Value.canonical_eq_self quiet] at same

theorem sample_shape_rebuilt :
    Sample.shape.document Sample.unmeasured = .ok Sample.unmeasuredDocument ∧
      ∃ again, Sample.shape.ofDocument Sample.unmeasuredDocument [] = .ok again ∧
        again.equal Sample.unmeasured.canonical = true ∧
        (Sample.unmeasured.Quiet → again.equal Sample.unmeasured = true) := by
  have shown : Sample.shape.document Sample.unmeasured = .ok Sample.unmeasuredDocument := by
    decide +kernel
  exact ⟨shown, ofDocument_document Sample.accepted Sample.shape_found
    Sample.unmeasured_namesApart shown []⟩

end Schema

end RecordCodec
