import RecordCodec.Proofs.Codec.Admits
import RecordCodec.Proofs.Layout.WellFormed
import RecordCodec.Proofs.Value.Record

/-!
# What the shared tests accept

Writing a value and showing its document make the same tests of records and
unions.  Each test succeeds exactly on the corresponding part of
`Layout.Admits`.
-/

namespace RecordCodec

theorem RecordLayout.check_eq_ok_iff {layout : RecordLayout} {record : RecordValue}
    {result : Unit} :
    layout.check record = .ok result ↔
      record.type = layout.name ∧
        ∀ field ∈ record.fields, ∃ declared ∈ layout.fields, declared.name = field.name := by
  unfold RecordLayout.check
  by_cases named : record.type = layout.name
  · rw [if_pos named]
    split
    · rename_i field found
      have undeclared := List.find?_some found
      simp only [List.all_eq_true, bne_iff_ne] at undeclared
      simp only [reduceCtorEq, false_iff, not_and, not_forall]
      refine fun _ => ⟨field, List.mem_of_find?_eq_some found, ?_⟩
      rintro ⟨declared, member, same⟩
      exact undeclared declared member same
    · rename_i missing
      simp only [named, true_and, true_iff]
      intro field member
      simpa using List.find?_eq_none.mp missing field member
  · simp [named]

theorem RecordLayout.check_of_admits {layout : RecordLayout} {record : RecordValue}
    (admits : layout.Admits record) : layout.check record = .ok () := by
  obtain ⟨named, declared, -⟩ := RecordLayout.admits_iff.mp admits
  exact RecordLayout.check_eq_ok_iff.mpr ⟨named, declared⟩

/-- A union whose variants have distinct names holds under each of them what its record does. -/
theorem UnionLayout.Tagged.admits_iff {union : UnionLayout} (tagged : union.Tagged)
    {selected : VariantLayout} (member : selected ∈ union.variants) {payload : RecordValue} :
    union.Admits selected.name payload ↔ selected.record.Admits payload := by
  rw [tagged.exists_admits_iff]
  constructor
  · rintro ⟨other, otherMember, names, admits⟩
    obtain rfl : other = selected := eq_of_key_eq tagged.names otherMember member names
    exact admits
  · intro admits
    exact ⟨selected, member, rfl, admits⟩

/-- An admitted record that repeats no name has exactly the declared fields. -/
theorem RecordLayout.Tiled.length_fields_eq {layout : RecordLayout} (tiled : layout.Tiled)
    {record : RecordValue} (admits : layout.Admits record) (distinct : record.Distinct) :
    record.fields.length = layout.fields.length := by
  obtain ⟨-, declared, each⟩ := RecordLayout.admits_iff.mp admits
  have present : ∀ name ∈ layout.fields.map FieldLayout.name,
      ∃ value, record.get? name = some value := by
    rw [List.forall_mem_map]
    intro field member
    obtain ⟨value, found, -⟩ := each field member
    exact ⟨value, found⟩
  rw [RecordValue.length_fields_eq distinct tiled.names
    (fun field member => List.mem_map.mpr (declared field member)) present, List.length_map]

theorem RecordLayout.fieldValue_eq_ok_iff {type : String} {record : RecordValue} {name : String}
    {value : Value} :
    RecordLayout.fieldValue type record name = .ok value ↔ record.get? name = some value := by
  unfold RecordLayout.fieldValue
  cases record.get? name <;> simp

theorem expectRecord_eq_ok_iff {value : Value} {record : RecordValue} :
    expectRecord value = .ok record ↔ value = .record record := by
  cases value <;> simp [expectRecord]

theorem UnionLayout.expect_eq_ok_iff {name : String} {value : Value} {variant : String}
    {payload : RecordValue} :
    UnionLayout.expect name value = .ok (variant, payload) ↔
      value = .union name variant payload := by
  cases value with
  | union type other record =>
      by_cases same : type = name <;> simp [UnionLayout.expect, same]
  | _ => simp [UnionLayout.expect]

/-- The tag is looked up as an enumeration, which it is. -/
theorem UnionLayout.Tagged.expectTags_eq {union : UnionLayout} (tagged : union.Tagged) :
    union.expectTags = .ok union.tags := by
  rw [UnionLayout.expectTags, tagged.enumerated]

/-- The test of an embedded tag looks at the constant that ends the path. -/
theorem UnionLayout.checkTag_eq_ok_iff {type variant : String} {record : RecordValue}
    {path : List String} {result : Unit} (nonempty : path ≠ []) :
    UnionLayout.checkTag type variant record path = .ok result ↔
      record.tagAt? path = some variant := by
  induction path generalizing record with
  | nil => exact absurd rfl nonempty
  | cons name rest ih =>
      cases rest with
      | nil =>
          simp only [UnionLayout.checkTag, RecordValue.tagAt?]
          rcases record.get? name with _ | value
          · simp
          · cases value with
            | constant found => by_cases same : found = variant <;> simp [same]
            | _ => simp
      | cons next rest =>
          simp only [UnionLayout.checkTag, RecordValue.tagAt?]
          rcases record.get? name with _ | value
          · simp
          · cases value with
            | record inner => exact ih (by simp)
            | _ => simp [Value.record?]

end RecordCodec
