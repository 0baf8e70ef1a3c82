import Mathlib.Data.List.Perm.Subperm
import RecordCodec.Proofs.Value.Equality

/-!
# Equality by meaning is symmetric

Records are compared by looking up the fields of the one in the other.  With as
many fields on both sides and no name twice, nothing in the other remains
without a counterpart, so it does not matter which of the two is looked up.
-/

namespace RecordCodec

/-- Induction over the items of arrays and the fields of records. -/
@[elab_as_elim]
theorem Value.parts_induction {motive : Value → Prop}
    (plain : ∀ value, value.isPlain = true → motive value)
    (integer : ∀ value number, value.integer? = some number → motive value)
    (array : ∀ items, (∀ item ∈ items, motive item) → motive (.array items))
    (record : ∀ record : RecordValue, (∀ field ∈ record.fields, motive field.value) →
      motive (.record record))
    (union : ∀ type variant, ∀ payload : RecordValue,
      (∀ field ∈ payload.fields, motive field.value) → motive (.union type variant payload)) :
    ∀ value, motive value
  | .bool _ | .single _ | .double _ | .text _ | .constant _ | .flags _ => plain _ rfl
  | .signed _ | .unsigned _ => integer _ _ rfl
  | .array items => array items fun item _ =>
      Value.parts_induction plain integer array record union item
  | .record ⟨type, fields⟩ => record ⟨type, fields⟩ fun field _ =>
      Value.parts_induction plain integer array record union field.value
  | .union type variant ⟨name, fields⟩ => union type variant ⟨name, fields⟩ fun field _ =>
      Value.parts_induction plain integer array record union field.value
termination_by value => sizeOf value
decreasing_by
  · have inside := List.sizeOf_lt_of_mem ‹item ∈ items›
    simp only [Value.array.sizeOf_spec]
    omega
  all_goals
    have inside := List.sizeOf_lt_of_mem ‹field ∈ _›
    cases field
    simp_all
    omega

namespace RecordValue

variable {first second : RecordValue}

/-- Records that mean the same have the same names, in some order. -/
theorem names_perm_of_equal (distinct : first.Distinct) (same : first.equal second = true) :
    (first.fields.map FieldValue.name).Perm (second.fields.map FieldValue.name) := by
  obtain ⟨-, length, each⟩ := equal_iff.mp same
  have among : first.fields.map FieldValue.name ⊆ second.fields.map FieldValue.name := by
    intro name member
    obtain ⟨field, inFirst, rfl⟩ := List.mem_map.mp member
    obtain ⟨other, found, -⟩ := each field inFirst
    exact List.mem_map.mpr ⟨_, mem_of_get? found, rfl⟩
  apply (List.subperm_of_subset distinct among).perm_of_length_le
  simp [length]

theorem distinct_of_equal (distinct : first.Distinct) (same : first.equal second = true) :
    second.Distinct :=
  (names_perm_of_equal distinct same).nodup_iff.mp distinct

/-- What the second record has is in meaning what the first has under the name. -/
theorem exists_of_mem_equal (distinct : first.Distinct) (same : first.equal second = true)
    {field : FieldValue} (member : field ∈ second.fields) :
    ∃ value, first.get? field.name = some value ∧ value.equal field.value = true := by
  have named := (names_perm_of_equal distinct same).mem_iff.mpr (List.mem_map_of_mem member)
  cases field with
  | mk name held =>
      obtain ⟨⟨_, value⟩, inFirst, rfl⟩ := List.mem_map.mp named
      obtain ⟨other, otherFound, equal⟩ := (equal_iff.mp same).2.2 _ inFirst
      have found := (get?_eq_some_iff (distinct_of_equal distinct same)).mpr member
      obtain rfl : held = other := Option.some.inj (found.symm.trans otherFound)
      exact ⟨value, (get?_eq_some_iff distinct).mpr inFirst, equal⟩

theorem equal_symm_of_fields (apart : first.NamesApart)
    (fields : ∀ field ∈ first.fields, ∀ other, field.value.NamesApart →
      field.value.equal other = true → other.equal field.value = true)
    (same : first.equal second = true) : second.equal first = true := by
  obtain ⟨distinct, eachApart⟩ := namesApart_iff.mp apart
  obtain ⟨types, length, -⟩ := equal_iff.mp same
  refine equal_iff.mpr ⟨types.symm, length.symm, ?_⟩
  intro field member
  obtain ⟨value, found, equal⟩ := exists_of_mem_equal distinct same member
  have inFirst := mem_of_get? found
  exact ⟨value, found, fields _ inFirst _ (eachApart _ inFirst) equal⟩

end RecordValue

/-- Which of two values is compared with which does not matter. -/
theorem Value.equal_symm {first second : Value} (apart : first.NamesApart)
    (same : first.equal second = true) : second.equal first = true := by
  induction first using Value.parts_induction generalizing second with
  | plain first plain =>
      obtain rfl := Value.eq_of_equal plain same
      exact same
  | integer first number integer =>
      have numbers := Value.integer?_eq_of_equal same
      exact Value.equal_of_integer? (numbers.symm.trans integer) integer
  | array items ih =>
      obtain ⟨others, rfl, related⟩ := Value.equal_array_iff.mp same
      refine Value.equal_array_iff.mpr ⟨items, rfl, ?_⟩
      have apartItems := Value.namesApart_array.mp apart
      have members : List.Forall₂ (fun item other => item ∈ items ∧ item.equal other = true)
          items others := (List.forall₂_and_left _ _).mpr ⟨fun _ member => member, related⟩
      exact members.flip.imp fun _ _ both => ih _ both.1 (apartItems _ both.1) both.2
  | record first ih =>
      obtain ⟨second, rfl, equal⟩ := Value.equal_record_iff.mp same
      refine Value.equal_record_iff.mpr ⟨first, rfl, ?_⟩
      exact RecordValue.equal_symm_of_fields apart
        (fun field member _ fieldApart => ih field member fieldApart) equal
  | union type variant first ih =>
      obtain ⟨second, rfl, equal⟩ := Value.equal_union_iff.mp same
      refine Value.equal_union_iff.mpr ⟨first, rfl, ?_⟩
      exact RecordValue.equal_symm_of_fields apart
        (fun field member _ fieldApart => ih field member fieldApart) equal

end RecordCodec
