import RecordCodec.Proofs.Document.Rounded
import RecordCodec.Proofs.Document.RoundTrip
import RecordCodec.Proofs.Json.Plain

/-!
# Documents of values from documents

Whatever a document says is in the value that it stands for.  Only declared
members are accepted, each of them is read, and all of them are shown again, so
the document of the value is the one that was read, up to the numbers at the
places of floats, which say what the floats hold.
-/

namespace RecordCodec

/-- The document of the value of a plain document is that document with its numbers rounded. -/
def Layout.Faithful (layout : Layout) : Prop :=
  ∀ json path value, json.Plain → layout.ofDocument json path = .ok value →
    layout.document value = .ok (layout.rounded JsonNumber.singleOfFloat json)

/-- Each item of an array is read, at some path. -/
theorem forall₂_of_readItems {readElement : Json → NodePath → Except Error Value} {path : NodePath}
    {index : Nat} {items : List Json} {results : List Value}
    (read : readItems readElement path index items = .ok results) :
    List.Forall₂ (fun item result => ∃ path, readElement item path = .ok result) items results := by
  induction items generalizing index results with
  | nil =>
      obtain rfl := Except.ok.inj read
      exact .nil
  | cons item rest ih =>
      simp only [readItems, bind_eq_ok, pure_eq_ok] at read
      obtain ⟨value, first, others, readRest, rfl⟩ := read
      exact .cons ⟨_, first⟩ (ih readRest)

theorem mapM_document_of_readItems {element : Layout} (faithful : element.Faithful)
    {items : List Json} (plain : Json.AllPlain items) {path : NodePath} {results : List Value}
    (read : readItems element.ofDocument path 0 items = .ok results) :
    results.mapM element.document =
      .ok (items.map (element.rounded JsonNumber.singleOfFloat)) := by
  rw [mapM_eq_ok, List.forall₂_map_right_iff]
  have both := (List.forall₂_and_left _ _).mpr
    ⟨fun item among => Json.allPlain_iff.mp plain item among, forall₂_of_readItems read⟩
  refine both.flip.imp ?_
  rintro result item ⟨itemPlain, itemPath, itemRead⟩
  exact faithful item itemPath result itemPlain itemRead

theorem fieldDocument_ofDocument {element : Layout} (faithful : element.Faithful)
    {count : Option Nat} {json : Json} (plain : json.Plain) {path : NodePath} {value : Value}
    (read : fieldOfDocument element.ofDocument element count json path = .ok value) :
    fieldDocument element.document element count value =
      .ok (roundedField (element.rounded JsonNumber.singleOfFloat) count json) := by
  cases count with
  | none => exact faithful json path value plain read
  | some count =>
      simp only [fieldOfDocument] at read
      split at read
      · rename_i text isChar
        simp only [bind_eq_ok, pure_eq_ok] at read
        obtain ⟨_, room, rfl⟩ := read
        simp only [fieldDocument, isChar, room]
        rfl
      · rename_i node _ _ _
        simp only [bind_eq_ok, orMismatch_eq_ok_iff] at read
        obtain ⟨items, isArray, read⟩ := read
        obtain rfl := Json.items?_eq_some_iff.mp isArray
        split at read
        · rename_i length
          simp only [bind_eq_ok, pure_eq_ok] at read
          obtain ⟨results, itemsRead, rfl⟩ := read
          have shown := mapM_document_of_readItems faithful plain itemsRead
          have same := (forall₂_of_readItems itemsRead).length_eq
          simp only [fieldDocument, ← same, length, if_true, shown]
          rfl
        · cases read

namespace FieldLayout

variable {toSingle : JsonNumber → UInt32} {fields : List FieldLayout} {key : String} {json : Json}

theorem roundedUnder_eq {field : FieldLayout}
    (found : fields.find? (fun other => other.name == key) = some field) :
    FieldLayout.roundedUnder toSingle fields key json =
      roundedField (field.element.rounded toSingle) field.count json := by
  apply choice_eq_of_found (fun fields => FieldLayout.roundedUnder toSingle fields key json) _ found
  rintro ⟨name, element, count, offset, length⟩ rest
  rfl

theorem roundedUnder_of_undeclared (undeclared : ∀ field ∈ fields, field.name ≠ key) :
    FieldLayout.roundedUnder toSingle fields key json = json := by
  induction fields with
  | nil => rfl
  | cons field rest ih =>
      obtain ⟨differs, others⟩ := List.forall_mem_cons.mp undeclared
      cases field
      simp only at differs
      rw [FieldLayout.roundedUnder, if_neg differs]
      exact ih others

end FieldLayout

namespace RecordLayout

variable {toSingle : JsonNumber → UInt32} {layout : RecordLayout} {members : List JsonMember}

theorem find?_rounded (key : String) :
    JsonMember.find? (layout.rounded toSingle members) key =
      (JsonMember.find? members key).map
        (FieldLayout.roundedUnder toSingle layout.fields key) := by
  cases layout with
  | mk name fields length =>
      rw [RecordLayout.rounded]
      induction members with
      | nil => rfl
      | cons member rest ih =>
          rw [List.map_cons, JsonMember.find?_cons, JsonMember.find?_cons, ih]
          by_cases same : member.key = key
          · subst same
            simp
          · simp [same]

theorem key_rounded {member : JsonMember} (among : member ∈ layout.rounded toSingle members) :
    ∃ original ∈ members, original.key = member.key := by
  cases layout with
  | mk name fields length =>
      rw [RecordLayout.rounded] at among
      obtain ⟨original, inMembers, rfl⟩ := List.mem_map.mp among
      exact ⟨original, inMembers, rfl⟩

theorem ordered_rounded (ordered : JsonMember.Ordered members) :
    JsonMember.Ordered (layout.rounded toSingle members) := by
  cases layout with
  | mk name fields length =>
      rw [RecordLayout.rounded, JsonMember.Ordered, List.pairwise_map]
      exact ordered

variable {key : Option String} {path : NodePath} {payload : RecordValue}

section Read

variable (tiled : layout.Tiled) (read : layout.ofDocument key members path = .ok payload)

include tiled read

/-- A record that was read has the declared fields, each as it was read under its name. -/
theorem fields_of_ofDocument :
    payload.fields.map FieldValue.name = layout.fields.map FieldLayout.name ∧
      ∀ field ∈ layout.fields, ∃ json value, JsonMember.find? members field.name = some json ∧
        payload.get? field.name = some value ∧
        fieldOfDocument field.element.ofDocument field.element field.count json
          (.field field.name :: path) = .ok value := by
  obtain ⟨-, -, fieldsRead⟩ := ofDocument_eq_ok_iff.mp read
  have each := FieldLayout.ofDocumentAll_eq_ok_iff.mp fieldsRead
  have names : payload.fields.map FieldValue.name = layout.fields.map FieldLayout.name :=
    map_eq_map_of_forall₂ (each.flip.imp fun _ _ both => both.1)
  have distinct : payload.Distinct := by
    rw [RecordValue.Distinct, names]
    exact tiled.names
  refine ⟨names, fun field among => ?_⟩
  obtain ⟨supplied, inPayload, name, json, found, fieldRead⟩ := exists_mem_of_forall₂ each among
  refine ⟨json, supplied.value, found, ?_, fieldRead⟩
  rw [← name]
  exact RecordValue.get?_of_mem distinct inPayload

theorem check_ofDocument : layout.check payload = .ok () := by
  obtain ⟨names, -⟩ := fields_of_ofDocument tiled read
  exact check_eq_ok_iff.mpr ⟨(ofDocument_eq_ok_iff.mp read).2.1, exists_declared_of_names names⟩

/-- Each field of a record that was read is shown as it was read, with its numbers rounded. -/
theorem exists_shown_ofDocument (faithful : ∀ field ∈ layout.fields, field.element.Faithful)
    (plain : JsonMember.AllPlain members) :
    ∃ shown, FieldLayout.memberDocuments layout.fields layout.name payload = .ok shown ∧
      ∀ member ∈ shown, JsonMember.find? (layout.rounded JsonNumber.singleOfFloat members)
        member.key = some member.value := by
  obtain ⟨-, each⟩ := fields_of_ofDocument tiled read
  have eachShown : ∀ field ∈ layout.fields, ∃ member : JsonMember,
      (member.key = field.name ∧ ∃ value, payload.get? field.name = some value ∧
        fieldDocument field.element.document field.element field.count value =
          .ok member.value) ∧
      JsonMember.find? (layout.rounded JsonNumber.singleOfFloat members) member.key =
        some member.value := by
    intro field among
    obtain ⟨json, value, found, held, fieldRead⟩ := each field among
    have shown := fieldDocument_ofDocument (faithful field among)
      (JsonMember.plain_of_find? plain found) fieldRead
    refine ⟨⟨field.name, roundedField (field.element.rounded JsonNumber.singleOfFloat)
      field.count json⟩, ⟨rfl, value, held, shown⟩, ?_⟩
    rw [find?_rounded, found, Option.map_some,
      FieldLayout.roundedUnder_eq ((find?_key_eq_some tiled.names).mpr ⟨among, rfl⟩)]
  obtain ⟨shown, related⟩ := exists_forall₂_iff.mpr eachShown
  refine ⟨shown, FieldLayout.memberDocuments_eq_ok_iff.mpr (related.imp fun _ _ both => both.1), ?_⟩
  intro member among
  obtain ⟨field, -, -, found⟩ := exists_mem_of_forall₂ related.flip among
  exact found

omit tiled in
/-- What is shown, with what else is under the key, is all that was read. -/
theorem sort_shown (ordered : JsonMember.Ordered members) {tag shown : List JsonMember}
    (fieldsShown : FieldLayout.memberDocuments layout.fields layout.name payload = .ok shown)
    (distinct : ((tag ++ shown).map JsonMember.key).Nodup)
    (found : ∀ member ∈ tag ++ shown, JsonMember.find?
      (layout.rounded JsonNumber.singleOfFloat members) member.key = some member.value)
    (tagged : ∀ name, some name = key → ∃ member ∈ tag, member.key = name) :
    JsonMember.sort (tag ++ shown) = layout.rounded JsonNumber.singleOfFloat members := by
  refine (ordered_rounded ordered).sort_eq distinct found fun other among => ?_
  obtain ⟨original, inMembers, same⟩ := key_rounded among
  rcases (ofDocument_eq_ok_iff.mp read).1 original inMembers with isKey | ⟨field, inFields, name⟩
  · obtain ⟨member, inTag, keys⟩ := tagged original.key isKey
    exact ⟨member, List.mem_append_left _ inTag, keys.trans same⟩
  · have named : field.name ∈ shown.map JsonMember.key := by
      rw [RecordLayout.keys_of_shown fieldsShown]
      exact List.mem_map_of_mem inFields
    obtain ⟨member, inShown, keys⟩ := List.mem_map.mp named
    exact ⟨member, List.mem_append_right _ inShown, keys.trans (name.trans same)⟩

end Read

/-- The document of a record that was read has the members that were read. -/
theorem faithful (tiled : layout.Tiled)
    (elements : ∀ field ∈ layout.fields, field.element.Faithful) :
    (Layout.record layout).Faithful := by
  intro json path value plain read
  obtain ⟨members, rfl, payload, payloadRead, rfl⟩ := Layout.ofDocument_record_eq_ok_iff.mp read
  obtain ⟨ordered, each⟩ := plain
  obtain ⟨shown, fieldsShown, found⟩ := exists_shown_ofDocument tiled payloadRead elements each
  have distinct : ((([] : List JsonMember) ++ shown).map JsonMember.key).Nodup := by
    rw [List.nil_append, keys_of_shown fieldsShown]
    exact tiled.names
  have sorted := sort_shown payloadRead ordered fieldsShown distinct found (by rintro _ ⟨⟩)
  refine document_eq_ok_iff.mpr
    ⟨payload, shown, rfl, check_ofDocument tiled payloadRead, fieldsShown, ?_⟩
  rw [Layout.rounded, ← sorted, List.nil_append]

/-- The name at the end of a path in a document is the constant at its end in the record. -/
theorem Leads.tagAt?_of_ofDocument {tagPath : List String} {tags : ConstantSet} {offset : Nat}
    (leads : layout.Leads tagPath tags offset) (wellFormed : (Layout.record layout).WellFormed)
    (read : layout.ofDocument key members path = .ok payload) {variant : String}
    (named : (Json.object members).getPath? tagPath = some (.text variant)) :
    payload.tagAt? tagPath = some variant := by
  induction leads generalizing key members path payload with
  | @here layout field tags among single shape =>
      obtain ⟨json, value, found, held, fieldRead⟩ :=
        (fields_of_ofDocument wellFormed.tiled read).2 field among
      rw [Json.getPath?_object_cons, found] at named
      obtain rfl := Option.some.inj named
      simp only [single, shape, fieldOfDocument, Layout.ofDocument,
        ConstantSet.constantOfDocument, bind_eq_ok, pure_eq_ok, orMismatch_eq_ok_iff] at fieldRead
      obtain ⟨_, ⟨⟩, _, _, rfl⟩ := fieldRead
      exact RecordValue.tagAt?_singleton.mpr held
  | @through layout inner field tagPath tags offset among single shape deeper ih =>
      obtain ⟨json, value, found, held, fieldRead⟩ :=
        (fields_of_ofDocument wellFormed.tiled read).2 field among
      rw [Json.getPath?_object_cons, found] at named
      rw [single, shape] at fieldRead
      obtain ⟨innerMembers, rfl, innerPayload, innerRead, rfl⟩ :=
        Layout.ofDocument_record_eq_ok_iff.mp fieldRead
      exact (RecordValue.tagAt?_cons deeper.ne_nil).mpr
        ⟨innerPayload, held, ih (wellFormed.inner among shape) innerRead named⟩

end RecordLayout

theorem VariantLayout.roundedNamed_eq {toSingle : JsonNumber → UInt32}
    {variants : List VariantLayout} {variant : String} {members : List JsonMember}
    {selected : VariantLayout}
    (found : variants.find? (fun other => other.name == variant) = some selected)
    (recorded : selected.member = .record selected.record) :
    VariantLayout.roundedNamed toSingle variants variant members =
      selected.record.rounded toSingle members := by
  have chosen : VariantLayout.roundedNamed toSingle variants variant members =
      selected.member.roundedMembers toSingle members := by
    apply choice_eq_of_found (fun variants =>
      VariantLayout.roundedNamed toSingle variants variant members) _ found
    rintro ⟨name, tag, member⟩ rest
    rfl
  rw [chosen, recorded]
  rfl

namespace UnionLayout

variable {union : UnionLayout}

/-- Besides its fields, a union that was read shows the name under its discriminator key. -/
theorem exists_tag_ofDocument (tagged : union.Tagged) {selected : VariantLayout}
    (among : selected ∈ union.variants) (wellFormed : (Layout.record selected.record).WellFormed)
    {members shown : List JsonMember} {path : NodePath} {payload : RecordValue}
    (names : variantNode union.discriminator (.object members) = some (.text selected.name))
    (read : selected.record.ofDocument union.discriminator.key? members path = .ok payload)
    (fieldsShown : FieldLayout.memberDocuments selected.record.fields selected.record.name payload =
      .ok shown) :
    ∃ tag, tagMembers union.name selected.name union.discriminator payload = .ok tag ∧
      ((tag ++ shown).map JsonMember.key).Nodup ∧
      (∀ member ∈ tag, JsonMember.find?
        (selected.record.rounded JsonNumber.singleOfFloat members) member.key =
          some member.value) ∧
      ∀ name, some name = union.discriminator.key? → ∃ member ∈ tag, member.key = name := by
  cases shape : union.discriminator with
  | key key =>
      rw [shape] at names
      refine ⟨[⟨key, .text selected.name⟩], rfl, tagged.nodup_keys shape among wellFormed.tiled
        fieldsShown, ?_, ?_⟩
      · intro member inTag
        obtain rfl := List.mem_singleton.mp inTag
        have found : JsonMember.find? members key = some (.text selected.name) := names
        rw [RecordLayout.find?_rounded, found, Option.map_some,
          FieldLayout.roundedUnder_of_undeclared (tagged.not_declared shape among)]
      · intro name isKey
        exact ⟨_, List.mem_singleton_self _, (Option.some.inj isKey).symm⟩
  | path tagPath offset =>
      have leads := tagged.leads among shape
      rw [shape] at names
      have agrees := leads.tagAt?_of_ofDocument wellFormed read names
      have checked : UnionLayout.checkTag union.name selected.name payload tagPath = .ok () :=
        (UnionLayout.checkTag_eq_ok_iff leads.ne_nil).mpr agrees
      refine ⟨[], ?_, ?_, ?_, ?_⟩
      · simp only [tagMembers, checked]
        rfl
      · rw [List.nil_append, RecordLayout.keys_of_shown fieldsShown]
        exact wellFormed.tiled.names
      · rintro _ ⟨⟩
      · rintro _ ⟨⟩

/-- The document of a union that was read has the members that were read. -/
theorem faithful (tagged : union.Tagged)
    (records : ∀ variant ∈ union.variants, (Layout.record variant.record).WellFormed)
    (elements : ∀ variant ∈ union.variants, ∀ field ∈ variant.record.fields,
      field.element.Faithful) : (Layout.union union).Faithful := by
  intro json path value plain read
  obtain ⟨members, rfl, selected, among, payload, names, payloadRead, rfl⟩ :=
    (ofDocument_eq_ok_iff tagged).mp read
  obtain ⟨ordered, each⟩ := plain
  have wellFormed := records selected among
  obtain ⟨shown, fieldsShown, found⟩ := RecordLayout.exists_shown_ofDocument wellFormed.tiled
    payloadRead (elements selected among) each
  obtain ⟨tag, tagShown, distinct, tagFound, covered⟩ :=
    exists_tag_ofDocument tagged among wellFormed names payloadRead fieldsShown
  have bothFound := List.forall_mem_append.mpr ⟨tagFound, found⟩
  have sorted := RecordLayout.sort_shown payloadRead ordered fieldsShown distinct bothFound covered
  have rounded : union.rounded JsonNumber.singleOfFloat members =
      selected.record.rounded JsonNumber.singleOfFloat members := by
    have selects := tagged.withName?_eq_some.mpr ⟨among, rfl⟩
    rw [← VariantLayout.roundedNamed_eq selects (tagged.recorded selected among)]
    cases union
    rw [UnionLayout.rounded, names]
    rfl
  refine (document_eq_ok_iff tagged).mpr ⟨selected, among, payload, tag, shown, rfl,
    RecordLayout.check_ofDocument wellFormed.tiled payloadRead, tagShown, fieldsShown, ?_⟩
  rw [Layout.rounded, rounded, sorted]

end UnionLayout

/-- Types of a resolved schema are faithful. -/
theorem Layout.WellFormed.faithful {layout : Layout} (wellFormed : layout.WellFormed) :
    layout.Faithful := by
  induction wellFormed using Layout.WellFormed.elements_induction with
  | scalar => exact fun json path value _ read => Scalar.document_ofDocument read
  | enumeration => exact fun json path value _ read => ConstantSet.constantDocument_ofDocument read
  | flags => exact fun json path value _ read => ConstantSet.flagsDocument_ofDocument read
  | record _ tiled _ elements => exact RecordLayout.faithful tiled elements
  | union _ tagged records elements => exact UnionLayout.faithful tagged records elements

namespace Sample

/-- A document of a message, its members in an order of their own.  No float
holds a tenth, the radius of the circle. -/
def written : Json :=
  .object
    [⟨"shift", .ofSigned (-2)⟩, ⟨"content", .text "Label"⟩,
      ⟨"shapes", .array
        [.object
          [⟨"radius", .number (.float 0x3fb999999999999a (by decide))⟩,
            ⟨"head", .object [⟨"serial", .ofUnsigned 7⟩, ⟨"kind", .text "Circle"⟩]⟩],
          .object
            [⟨"text", .text "h\u00e9"⟩, ⟨"style", .ofTexts ["wide", "bold"]⟩,
              ⟨"head", .object [⟨"kind", .text "Label"⟩, ⟨"serial", .ofUnsigned 8⟩]⟩]]⟩,
      ⟨"mark", .ofUnsigned 200⟩]

/-- The message that the document stands for. -/
def sent : Value :=
  (layout.ofDocument written.normalize []).toOption.getD (.bool false)

theorem sent_read : layout.ofDocument written.normalize [] = .ok sent :=
  eq_ok_getD (by decide +kernel) _

/-- An integer that is nearer to the 32-bit float above it, just past halfway,
and that rounds to halfway in 64 bits. -/
def pastHalfway : JsonNumber :=
  .integer (2 ^ 53 + 2 ^ 29 + 1) (by decide)

end Sample

namespace Schema

variable {declarations : List Declaration} {schema : Schema}

/-- A value that stands for a document can be written, and its document is the
one that was read: the same keys, lengths, texts, truth values and integers at
every node.  Only the numbers at the places of floats are rounded, for a 32-bit
float by way of a 64-bit one. -/
theorem document_eq_rounded (accepted : ofDeclarations declarations = .ok schema) {name : String}
    {layout : Layout} (found : schema.find? name = some layout) {written : Json}
    {path : NodePath} {value : Value}
    (read : layout.ofDocument written.normalize path = .ok value) :
    (∃ bytes, layout.toBytes value = .ok bytes) ∧
      layout.document value =
        .ok (layout.rounded JsonNumber.singleOfFloat written.normalize) := by
  have wellFormed := wellFormed_of_find? accepted found
  have shown := wellFormed.faithful _ _ _ written.plain_normalize read
  have admits := (wellFormed.documented value).mp ⟨_, shown⟩
  exact ⟨⟨_, wellFormed.toBytes_eq_ok_iff.mpr ⟨admits, rfl⟩⟩, shown⟩

theorem sample_message_document_mirrored :
    Sample.layout.ofDocument Sample.written.normalize [] = .ok Sample.sent ∧
      (∃ bytes, Sample.layout.toBytes Sample.sent = .ok bytes) ∧
      Sample.layout.document Sample.sent =
        .ok (Sample.layout.rounded JsonNumber.singleOfFloat Sample.written.normalize) :=
  ⟨Sample.sent_read, document_eq_rounded Sample.accepted Sample.found Sample.sent_read⟩

/-- The number at the place of a 32-bit float need not be replaced by the nearest such float. -/
theorem past_halfway_rounded_down :
    ofDeclarations [] = .ok (builtIn []) ∧
      (builtIn []).find? "f32" = some (.scalar "f32" .single) ∧
      (Layout.scalar "f32" .single).ofDocument (Json.number Sample.pastHalfway).normalize [] =
        .ok (.single 0x5a000000) ∧
      JsonNumber.nearestSingle Sample.pastHalfway = 0x5a000001 ∧
      (Layout.scalar "f32" .single).document (.single 0x5a000000) ≠
        .ok ((Layout.scalar "f32" .single).rounded JsonNumber.nearestSingle
          (Json.number Sample.pastHalfway).normalize) := by
  have halfway : singleOfDouble Sample.pastHalfway.toFloat = 0x5a000000 := by decide +kernel
  have nearest : JsonNumber.nearestSingle Sample.pastHalfway = 0x5a000001 := by decide +kernel
  have below : JsonNumber.ofFloat? (Binary.widen 0x5a000000) =
      some (.float 0x4340000000000000 (by decide)) := by decide +kernel
  have above : JsonNumber.ofFloat? (Binary.widen 0x5a000001) =
      some (.float 0x4340000020000000 (by decide)) := by decide +kernel
  refine ⟨rfl, rfl, ?_, nearest, ?_⟩
  · rw [← halfway]
    rfl
  · have shown : (Layout.scalar "f32" .single).document (.single 0x5a000000) =
        .ok (floatDocument (Binary.widen 0x5a000000)) := rfl
    have claimed : (Layout.scalar "f32" .single).rounded JsonNumber.nearestSingle
        (Json.number Sample.pastHalfway).normalize = singleDocument 0x5a000001 :=
      congrArg singleDocument nearest
    rw [shown, claimed, floatDocument, below, singleDocument, above]
    simp

end Schema

end RecordCodec
