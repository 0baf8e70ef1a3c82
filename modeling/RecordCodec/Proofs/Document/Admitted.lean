import RecordCodec.Proofs.Codec.Settled
import RecordCodec.Proofs.Document.Faithful

/-!
# Values from documents are values of the layout

A document may name a constant that is not declared or have a number that is too
large, but each part is tested when it is read.  So whatever a document stands
for is a value that the layout admits, like whatever is read from bytes.  The
fields of a record are taken in the declared order, so none of them is repeated.
-/

namespace RecordCodec

/-- The layout admits what a document stands for, and no record in it repeats a name. -/
def Layout.Delivers (layout : Layout) : Prop :=
  ∀ json path value, layout.ofDocument json path = .ok value →
    layout.Admits value ∧ value.NamesApart

theorem Scalar.isLeaf_of_admits {scalar : Scalar} {value : Value}
    (admits : scalar.Admits value) : value.isLeaf = true := by
  cases value with
  | array | record | union =>
      cases scalar <;> simp [Scalar.Admits, Value.integer?] at admits
  | _ => rfl

theorem Scalar.delivers (name : String) (scalar : Scalar) :
    (Layout.scalar name scalar).Delivers := by
  intro json path value read
  simp only [Layout.ofDocument, Scalar.ofDocument, bind_eq_ok, pure_eq_ok] at read
  obtain ⟨_, -, bytes, image, rfl⟩ := read
  have admits := Scalar.image_eq_ok_iff.mp ⟨bytes, image⟩
  exact ⟨admits, Value.namesApart_of_isLeaf (Scalar.isLeaf_of_admits admits)⟩

theorem ConstantSet.delivers (set : ConstantSet) :
    (Layout.enumeration set).Delivers ∧ (Layout.flags set).Delivers := by
  constructor
  · intro json path value read
    simp only [Layout.ofDocument, constantOfDocument, bind_eq_ok, pure_eq_ok] at read
    obtain ⟨name, -, word, known, rfl⟩ := read
    exact ⟨constantWord_eq_ok_iff.mp ⟨word, known⟩, True.intro⟩
  · intro json path value read
    simp only [Layout.ofDocument, flagsOfDocument, bind_eq_ok, pure_eq_ok] at read
    obtain ⟨items, -, names, -, word, known, rfl⟩ := read
    exact ⟨flagsWord_eq_ok_iff.mp ⟨word, known⟩, True.intro⟩

theorem delivers_fieldOfDocument {element : Layout} (delivers : element.Delivers)
    {count : Option Nat} {json : Json} {path : NodePath} {value : Value}
    (read : fieldOfDocument element.ofDocument element count json path = .ok value) :
    FieldAdmits element.Admits element count value ∧ value.NamesApart := by
  cases count with
  | none => exact delivers json path value read
  | some count =>
      simp only [fieldOfDocument] at read
      split at read
      · rename_i text isChar
        simp only [bind_eq_ok, pure_eq_ok, TextField.requireCapacity] at read
        obtain ⟨_, room, rfl⟩ := read
        split at room
        · rename_i fits
          exact ⟨.inl ⟨isChar, text, rfl, fits⟩, True.intro⟩
        · cases room
      · simp only [bind_eq_ok, orMismatch_eq_ok_iff] at read
        obtain ⟨items, -, read⟩ := read
        split at read
        · rename_i length
          simp only [bind_eq_ok, pure_eq_ok] at read
          obtain ⟨results, itemsRead, rfl⟩ := read
          have related := forall₂_of_readItems itemsRead
          have each : ∀ result ∈ results, element.Admits result ∧ result.NamesApart := by
            intro result among
            obtain ⟨item, -, itemPath, itemRead⟩ := exists_mem_of_forall₂ related.flip among
            exact delivers item itemPath result itemRead
          exact ⟨.inr ⟨results, rfl, related.length_eq.symm.trans length,
              fun result among => (each result among).1⟩,
            Value.namesApart_array.mpr fun result among => (each result among).2⟩
        · cases read

/-- A record is read from an object field by field, whatever else is under the key. -/
theorem RecordLayout.delivers {layout : RecordLayout} (tiled : layout.Tiled)
    (elements : ∀ field ∈ layout.fields, field.element.Delivers) {key : Option String}
    {members : List JsonMember} {path : NodePath} {payload : RecordValue}
    (read : layout.ofDocument key members path = .ok payload) :
    layout.Admits payload ∧ payload.NamesApart := by
  obtain ⟨names, each⟩ := fields_of_ofDocument tiled read
  have fits : ∀ field ∈ layout.fields, ∃ value, payload.get? field.name = some value ∧
      FieldAdmits field.element.Admits field.element field.count value ∧ value.NamesApart := by
    intro field among
    obtain ⟨json, value, -, held, fieldRead⟩ := each field among
    exact ⟨value, held, delivers_fieldOfDocument (elements field among) fieldRead⟩
  constructor
  · refine admits_iff.mpr ⟨(ofDocument_eq_ok_iff.mp read).2.1, exists_declared_of_names names, ?_⟩
    intro field among
    obtain ⟨value, held, admits, -⟩ := fits field among
    exact ⟨value, held, admits⟩
  · refine RecordValue.namesApart_of_get? tiled.names names (List.forall_mem_map.mpr ?_)
    intro field among
    obtain ⟨value, held, -, apart⟩ := fits field among
    exact ⟨value, held, apart⟩

/-- The tag that a document shows inside a union is the constant that the payload has there. -/
theorem UnionLayout.Tagged.agrees_of_ofDocument {union : UnionLayout} (tagged : union.Tagged)
    {selected : VariantLayout} (among : selected ∈ union.variants)
    (wellFormed : (Layout.record selected.record).WellFormed) {members : List JsonMember}
    {path : NodePath} {payload : RecordValue}
    (names : variantNode union.discriminator (.object members) = some (.text selected.name))
    (read : selected.record.ofDocument union.discriminator.key? members path = .ok payload) :
    union.discriminator.Agrees selected.name payload := by
  cases shape : union.discriminator with
  | key key => exact True.intro
  | path tagPath offset =>
      rw [shape] at names
      exact (tagged.leads among shape).tagAt?_of_ofDocument wellFormed read names

theorem Layout.WellFormed.delivers {layout : Layout} (wellFormed : layout.WellFormed) :
    layout.Delivers := by
  induction wellFormed using Layout.WellFormed.elements_induction with
  | scalar name scalar => exact scalar.delivers name
  | enumeration constants => exact constants.delivers.1
  | flags constants => exact constants.delivers.2
  | record record tiled elements ih =>
      intro json path value read
      obtain ⟨members, -, payload, payloadRead, rfl⟩ := Layout.ofDocument_record_eq_ok_iff.mp read
      obtain ⟨admits, apart⟩ := RecordLayout.delivers tiled ih payloadRead
      exact ⟨Layout.admits_record.mpr admits, apart⟩
  | union union tagged records ih =>
      intro json path value read
      obtain ⟨members, -, selected, among, payload, names, payloadRead, rfl⟩ :=
        (UnionLayout.ofDocument_eq_ok_iff tagged).mp read
      obtain ⟨admits, apart⟩ :=
        RecordLayout.delivers (records selected among).tiled (ih selected among) payloadRead
      have agrees := tagged.agrees_of_ofDocument among (records selected among) names payloadRead
      exact ⟨⟨selected.name, payload, rfl, agrees,
        tagged.exists_admits_iff.mpr ⟨selected, among, rfl, admits⟩⟩, apart⟩

/-- A value of the layout comes from bytes at some offset, or from a document. -/
inductive Layout.Yields (layout : Layout) (value : Value) : Prop
  | read {options : DecodeOptions} {buffer : Buffer} {offset used : Nat}
      (read : layout.read options buffer offset = .ok (value, used))
  | document {json : Json} {path : NodePath} (read : layout.ofDocument json path = .ok value)

theorem Layout.Yields.admits {layout : Layout} (wellFormed : layout.WellFormed) {value : Value}
    (yields : layout.Yields value) : layout.Admits value ∧ value.NamesApart := by
  cases yields with
  | read read =>
      obtain ⟨admits, -⟩ := wellFormed.settles _ _ value _ read
      exact ⟨admits, wellFormed.namesApart_of_read _ value _ read⟩
  | document read => exact wellFormed.delivers _ _ value read

end RecordCodec
