import RecordCodec.Proofs.Codec.Extent
import RecordCodec.Proofs.Document.Admitted
import RecordCodec.Proofs.Schema.Table

/-!
# Tags inside records

The path of a union leads to its enumeration in the record of every variant, and
to the same place in all of them.  So reading finds the tag there before it knows
which record to read, and a document shows it there, and in whatever value comes
of either the tag that a union has inside names the variant that was selected.
-/

namespace RecordCodec

/-- Each field of an admitted record is a declared one, whose element admits it. -/
theorem RecordLayout.Admits.exists_declared {layout : RecordLayout} {record : RecordValue}
    (admits : layout.Admits record) (apart : record.NamesApart) {field : FieldValue}
    (member : field ∈ record.fields) :
    ∃ declared ∈ layout.fields, field.value.NamesApart ∧
      FieldAdmits declared.element.Admits declared.element declared.count field.value := by
  obtain ⟨distinct, each⟩ := RecordValue.namesApart_iff.mp apart
  obtain ⟨declared, among, named⟩ := (admits_iff.mp admits).2.1 field member
  have found := RecordValue.get?_of_mem distinct member
  rw [← named] at found
  exact ⟨declared, among, each field member, admits.field among found⟩

/-- Only the layouts of records and unions admit values that are made of others. -/
theorem Layout.shape_of_admits {layout : Layout} {value : Value} (admits : layout.Admits value) :
    value.isLeaf = true ∨
      (∃ declared payload, layout = .record declared ∧ value = .record payload ∧
        declared.Admits payload) ∨
      ∃ outer variant payload, layout = .union outer ∧ value = .union outer.name variant payload ∧
        outer.discriminator.Agrees variant payload ∧ outer.Admits variant payload := by
  cases layout with
  | scalar => exact .inl (Scalar.isLeaf_of_admits admits)
  | enumeration | flags =>
      obtain ⟨_, rfl, -⟩ := admits
      exact .inl rfl
  | record declared =>
      obtain ⟨payload, rfl, fits⟩ := admits
      exact .inr (.inl ⟨declared, payload, rfl, rfl, fits⟩)
  | union outer =>
      obtain ⟨variant, payload, rfl, agrees, fits⟩ := admits
      exact .inr (.inr ⟨outer, variant, payload, rfl, rfl, agrees, fits⟩)

namespace Layout

theorem eq_record_of_admits {layout : Layout} {payload : RecordValue}
    (admits : layout.Admits (.record payload)) :
    ∃ declared, layout = .record declared ∧ declared.Admits payload := by
  rcases shape_of_admits admits with leaf | ⟨declared, _, rfl, same, fits⟩ | ⟨_, _, _, -, same, -⟩
  · cases leaf
  · obtain rfl := Value.record.inj same
    exact ⟨declared, rfl, fits⟩
  · cases same

theorem eq_union_of_admits {layout : Layout} {type variant : String} {payload : RecordValue}
    (admits : layout.Admits (.union type variant payload)) :
    ∃ outer, layout = .union outer ∧ outer.name = type ∧
      outer.discriminator.Agrees variant payload ∧ outer.Admits variant payload := by
  rcases shape_of_admits admits with leaf | ⟨_, _, -, same, -⟩ | ⟨outer, _, _, rfl, same, facts⟩
  · cases leaf
  · cases same
  · obtain ⟨rfl, rfl, rfl⟩ := Value.union.inj same
    exact ⟨outer, rfl, rfl, facts⟩

theorem not_admits_array {layout : Layout} {items : List Value} :
    ¬layout.Admits (.array items) := by
  intro admits
  rcases shape_of_admits admits with leaf | ⟨_, _, -, same, -⟩ | ⟨_, _, _, -, same, -⟩
  · cases leaf
  · cases same
  · cases same

end Layout

theorem FieldAdmits.shape {admits : Value → Prop} {element : Layout} {count : Option Nat}
    {value : Value} (fits : FieldAdmits admits element count value) :
    admits value ∨ (∃ text, value = .text text) ∨
      ∃ items, value = .array items ∧ ∀ item ∈ items, admits item := by
  cases count with
  | none => exact .inl fits
  | some count =>
      rcases fits with ⟨-, text, isText, -⟩ | ⟨items, isArray, -, each⟩
      · exact .inr (.inl ⟨text, isText⟩)
      · exact .inr (.inr ⟨items, isArray, each⟩)

/-- A union value inside what a field admits is admitted by a layout inside its element. -/
theorem exists_union_of_inside {element : Layout} (wellFormed : element.WellFormed)
    {count : Option Nat} {value : Value} {type variant : String} {payload : RecordValue}
    (inside : (Value.union type variant payload).Inside value) (apart : value.NamesApart)
    (admits : FieldAdmits element.Admits element count value) :
    ∃ union, (Layout.union union).Within element ∧ union.name = type ∧
      union.discriminator.Agrees variant payload ∧ union.Admits variant payload := by
  -- The induction goes down the value; the layout of the part changes with it.
  induction inside generalizing element count with
  | refl =>
      rcases admits.shape with single | ⟨_, ⟨⟩⟩ | ⟨_, ⟨⟩, -⟩
      obtain ⟨union, rfl, facts⟩ := Layout.eq_union_of_admits single
      exact ⟨union, .refl, facts⟩
  | @item item items member _ ih =>
      rcases admits.shape with single | ⟨_, ⟨⟩⟩ | ⟨_, ⟨rfl⟩, each⟩
      · exact absurd single Layout.not_admits_array
      · exact @ih element wellFormed none (Value.namesApart_array.mp apart item member)
          (each item member)
  | @field field record member _ ih =>
      rcases admits.shape with single | ⟨_, ⟨⟩⟩ | ⟨_, ⟨⟩, -⟩
      obtain ⟨layout, rfl, fits⟩ := Layout.eq_record_of_admits single
      obtain ⟨declared, among, fieldApart, fieldFits⟩ := fits.exists_declared apart member
      obtain ⟨union, within, facts⟩ := ih (wellFormed.element among) fieldApart fieldFits
      exact ⟨union, within.tail (List.mem_map_of_mem among), facts⟩
  | @payload _ _ field outerPayload member _ ih =>
      rcases admits.shape with single | ⟨_, ⟨⟩⟩ | ⟨_, ⟨⟩, -⟩
      obtain ⟨outer, rfl, -, -, fits⟩ := Layout.eq_union_of_admits single
      cases wellFormed with
      | union tagged records =>
          obtain ⟨selected, chosen, -, fits⟩ := tagged.exists_admits_iff.mp fits
          obtain ⟨declared, among, fieldApart, fieldFits⟩ := fits.exists_declared apart member
          obtain ⟨union, within, facts⟩ :=
            ih ((records selected chosen).element among) fieldApart fieldFits
          have part : Layout.record selected.record ∈ (Layout.union outer).parts :=
            List.mem_cons_of_mem _ (List.mem_map_of_mem chosen)
          exact ⟨union, (within.tail (List.mem_map_of_mem among)).tail part, facts⟩

namespace Schema

variable {declarations : List Declaration} {schema : Schema}

/-- In every union with its tag inside, the path leads to the tag at one place of all records, and
what is read from bytes or from a document has the name of the variant there. -/
theorem embedded_tags_agree (accepted : ofDeclarations declarations = .ok schema) :
    (∀ union path offset, .union union ∈ schema.table → union.discriminator = .path path offset →
      schema.find? union.tags.name = some (.enumeration union.tags) ∧
      ∀ variant ∈ union.variants, variant.record.Leads path union.tags union.tagOffset ∧
        union.tagOffset + union.tags.width.bytes ≤ variant.record.length) ∧
    ∀ name layout value, schema.find? name = some layout → layout.Yields value →
      ∀ type variant payload, (Value.union type variant payload).Inside value →
        ∃ union, schema.find? type = some (.union union) ∧
          ∀ path offset, union.discriminator = .path path offset →
            UnionLayout.checkTag type variant payload path = .ok () ∧
              payload.tagAt? path = some variant := by
  have distinct := distinct_of_ofDeclarations accepted
  constructor
  · intro union path offset member shape
    have found := distinct.find?_of_mem member
    refine ⟨find?_of_within accepted found (.single List.mem_cons_self), ?_⟩
    intro variant among
    cases wellFormed_of_find? accepted found with
    | union tagged records =>
        have leads := tagged.leads among shape
        have inside := leads.tag_le (records variant among)
        simp only [UnionLayout.tagOffset, shape]
        exact ⟨leads, inside⟩
  · intro name layout value found yields type variant payload inside
    have wellFormed := wellFormed_of_find? accepted found
    obtain ⟨admits, apart⟩ := yields.admits wellFormed
    obtain ⟨union, within, rfl, agrees, fits⟩ := @exists_union_of_inside layout wellFormed none
      value type variant payload inside apart admits
    have known := find?_of_within accepted found within
    refine ⟨union, known, fun path offset shape => ?_⟩
    rw [shape] at agrees
    cases wellFormed_of_find? accepted known with
    | union tagged records =>
        obtain ⟨selected, among, -⟩ := tagged.exists_admits_iff.mp fits
        have nonempty := (tagged.leads among shape).ne_nil
        exact ⟨(UnionLayout.checkTag_eq_ok_iff nonempty).mpr agrees, agrees⟩

end Schema

namespace Sample

/-- The first shape in the message that is read from the bytes. -/
def receivedCircle : RecordValue :=
  ⟨"Circle",
    [⟨"head", .record ⟨"Head", [⟨"serial", .unsigned 7⟩, ⟨"kind", .constant "Circle"⟩]⟩⟩,
      ⟨"radius", .single 0x3fc00000⟩]⟩

theorem receivedCircle_inside :
    (Value.union "Shape" "Circle" receivedCircle).Inside receivedMessage :=
  .payload (List.mem_cons_of_mem _ (List.mem_cons_of_mem _ List.mem_cons_self))
    (.item List.mem_cons_self .refl)

end Sample

theorem Schema.sample_embedded_tags_agree :
    (∃ shape, Sample.shapeLayout = .union shape ∧
      ∀ variant ∈ shape.variants, variant.record.Leads ["head", "kind"] Sample.kinds 2 ∧
        2 + shape.tags.width.bytes ≤ variant.record.length) ∧
    ∃ union, Sample.schema.find? "Shape" = some (.union union) ∧
      ∀ path offset, union.discriminator = .path path offset →
        UnionLayout.checkTag "Shape" "Circle" Sample.receivedCircle path = .ok () ∧
          Sample.receivedCircle.tagAt? path = some "Circle" := by
  obtain ⟨places, values⟩ := embedded_tags_agree Sample.accepted
  have listed : Sample.shapeLayout ∈ Sample.schema.table := by decide +kernel
  have read : Sample.layout.read ⟨false, true⟩ Sample.received 1 =
      .ok (Sample.receivedMessage, 24) := by decide +kernel
  refine ⟨⟨_, rfl, (places _ ["head", "kind"] 2 listed rfl).2⟩, ?_⟩
  exact values "Message" Sample.layout _ Sample.found (.read read) _ _ _
    Sample.receivedCircle_inside

end RecordCodec
