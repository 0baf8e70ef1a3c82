import RecordCodec.Proofs.Document.Scalar
import RecordCodec.Proofs.Json.Nodes
import RecordCodec.Proofs.Layout.WellFormed

/-!
# When a document stands for a value

A record is read from an object that has its fields and no others, and a union
from an object that names one of its variants and has the fields of its record.
Beside them the object may have the key under which a union names the variant.
-/

namespace RecordCodec

theorem requireDeclared_eq_ok_iff {type : String} {fields : List FieldLayout}
    {key : Option String} {members : List JsonMember} {result : Unit} :
    requireDeclared type fields key members = .ok result ↔
      ∀ member ∈ members, some member.key = key ∨ ∃ field ∈ fields, field.name = member.key := by
  unfold requireDeclared
  split
  · rename_i member unexpected
    have undeclared := List.find?_some unexpected
    simp only [Bool.and_eq_true, bne_iff_ne, List.all_eq_true] at undeclared
    simp only [reduceCtorEq, false_iff, not_forall]
    refine ⟨member, List.mem_of_find?_eq_some unexpected, ?_⟩
    rintro (isKey | ⟨field, among, same⟩)
    · exact undeclared.1 isKey
    · exact undeclared.2 field among same
  · rename_i missing
    simp only [true_iff]
    intro member among
    have declared := List.find?_eq_none.mp missing member among
    simp only [Bool.and_eq_true, bne_iff_ne, List.all_eq_true, not_and_or, not_not, not_forall]
      at declared
    rcases declared with isKey | ⟨field, inFields, same⟩
    · exact .inl isKey
    · exact .inr ⟨field, inFields, same⟩

theorem FieldLayout.ofDocumentAll_eq_ok_iff {fields : List FieldLayout} {type : String}
    {members : List JsonMember} {path : NodePath} {results : List FieldValue} :
    FieldLayout.ofDocumentAll fields type members path = .ok results ↔
      List.Forall₂ (fun field result => result.name = field.name ∧
        ∃ json, JsonMember.find? members field.name = some json ∧
          fieldOfDocument field.element.ofDocument field.element field.count json
            (.field field.name :: path) = .ok result.value) fields results := by
  induction fields generalizing results with
  | nil =>
      rw [FieldLayout.ofDocumentAll, pure_eq_ok, List.forall₂_nil_left_iff, eq_comm]
  | cons field rest ih =>
      cases field with
      | mk name element count offset length =>
          simp only [FieldLayout.ofDocumentAll, List.forall₂_cons_left_iff, ← ih]
          cases JsonMember.find? members name with
          | none => simp
          | some json =>
              simp only [bind_eq_ok, pure_eq_ok, Option.some.injEq, exists_eq_left']
              constructor
              · rintro ⟨value, shown, others, restShown, rfl⟩
                exact ⟨⟨name, value⟩, others, ⟨rfl, shown⟩, restShown, rfl⟩
              · rintro ⟨⟨_, value⟩, others, ⟨rfl, shown⟩, restShown, rfl⟩
                exact ⟨value, shown, others, restShown, rfl⟩

theorem RecordLayout.ofDocument_eq_ok_iff {layout : RecordLayout} {key : Option String}
    {members : List JsonMember} {path : NodePath} {payload : RecordValue} :
    layout.ofDocument key members path = .ok payload ↔
      (∀ member ∈ members, some member.key = key ∨
        ∃ field ∈ layout.fields, field.name = member.key) ∧
      payload.type = layout.name ∧
      FieldLayout.ofDocumentAll layout.fields layout.name members path = .ok payload.fields := by
  cases layout with
  | mk name fields length =>
      simp only [RecordLayout.ofDocument, bind_eq_ok, pure_eq_ok, requireDeclared_eq_ok_iff]
      constructor
      · rintro ⟨_, declared, values, read, rfl⟩
        exact ⟨declared, rfl, read⟩
      · rintro ⟨declared, rfl, read⟩
        exact ⟨(), declared, payload.fields, read, by cases payload; rfl⟩

theorem Layout.ofDocument_record_eq_ok_iff {layout : RecordLayout} {json : Json} {path : NodePath}
    {value : Value} :
    (Layout.record layout).ofDocument json path = .ok value ↔
      ∃ members, json = .object members ∧ ∃ payload,
        layout.ofDocument none members path = .ok payload ∧ value = .record payload := by
  simp only [Layout.ofDocument, bind_eq_ok, pure_eq_ok, orMismatch_eq_ok_iff,
    Json.members?_eq_some_iff]
  constructor
  · rintro ⟨members, rfl, payload, read, rfl⟩
    exact ⟨members, rfl, payload, read, rfl⟩
  · rintro ⟨members, rfl, payload, read, rfl⟩
    exact ⟨members, rfl, payload, read, rfl⟩

theorem VariantLayout.ofDocumentNamed_eq {variants : List VariantLayout} {type variant : String}
    {key : Option String} {members : List JsonMember} {path : NodePath}
    {selected : VariantLayout}
    (found : variants.find? (fun other => other.name == variant) = some selected)
    (recorded : selected.member = .record selected.record) :
    VariantLayout.ofDocumentNamed variants type variant key members path = (do
      return .union type selected.name (← selected.record.ofDocument key members path)) := by
  have chosen : VariantLayout.ofDocumentNamed variants type variant key members path =
      selected.member.ofMemberDocument type selected.name key members path := by
    apply choice_eq_of_found (fun variants =>
      VariantLayout.ofDocumentNamed variants type variant key members path) _ found
    rintro ⟨name, tag, member⟩ rest
    by_cases chosen : name = variant
    · subst chosen
      rfl
    · simp only [VariantLayout.ofDocumentNamed, if_neg chosen]
  rw [chosen, recorded]
  rfl

theorem VariantLayout.found_of_ofDocumentNamed {variants : List VariantLayout}
    {type variant : String} {key : Option String} {members : List JsonMember} {path : NodePath}
    {value : Value}
    (read : VariantLayout.ofDocumentNamed variants type variant key members path = .ok value) :
    ∃ selected, variants.find? (fun other => other.name == variant) = some selected := by
  apply exists_found_of_choice (fun variants =>
    VariantLayout.ofDocumentNamed variants type variant key members path) _ (· = .ok value)
    nofun read
  rintro ⟨name, tag, member⟩ rest differ
  exact if_neg differ

/-- A union is read as the record of the variant that the document names. -/
theorem UnionLayout.ofDocument_eq_ok_iff {union : UnionLayout} (tagged : union.Tagged)
    {json : Json} {path : NodePath} {value : Value} :
    (Layout.union union).ofDocument json path = .ok value ↔
      ∃ members, json = .object members ∧ ∃ selected ∈ union.variants, ∃ payload,
        variantNode union.discriminator (.object members) = some (.text selected.name) ∧
        selected.record.ofDocument union.discriminator.key? members path = .ok payload ∧
        value = .union union.name selected.name payload := by
  have unfolded : (Layout.union union).ofDocument json path = (do
      let members ← orMismatch path .object json.members?
      let variant ← orMismatch (.field union.discriminator.label :: path) .variantName
        ((variantNode union.discriminator json).bind Json.text?)
      VariantLayout.ofDocumentNamed union.variants union.name variant union.discriminator.key?
        members path) := by
    cases union
    rfl
  simp only [unfolded, bind_eq_ok, orMismatch_eq_ok_iff, Option.bind_eq_some_iff]
  constructor
  · rintro ⟨members, isObject, variant, ⟨node, names, isText⟩, read⟩
    obtain ⟨selected, found⟩ := VariantLayout.found_of_ofDocumentNamed read
    obtain ⟨among, rfl⟩ := tagged.withName?_eq_some.mp found
    simp only [VariantLayout.ofDocumentNamed_eq found (tagged.recorded selected among), bind_eq_ok,
      pure_eq_ok] at read
    obtain ⟨payload, payloadRead, rfl⟩ := read
    obtain rfl := Json.members?_eq_some_iff.mp isObject
    obtain rfl := Json.text?_eq_some_iff.mp isText
    exact ⟨members, rfl, selected, among, payload, names, payloadRead, rfl⟩
  · rintro ⟨members, rfl, selected, among, payload, names, payloadRead, rfl⟩
    have found := tagged.withName?_eq_some.mpr ⟨among, rfl⟩
    refine ⟨members, rfl, selected.name, ⟨_, names, rfl⟩, ?_⟩
    simp only [VariantLayout.ofDocumentNamed_eq found (tagged.recorded selected among), bind_eq_ok,
      pure_eq_ok]
    exact ⟨payload, payloadRead, rfl⟩

end RecordCodec
