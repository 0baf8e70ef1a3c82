import RecordCodec.Proofs.Success
import RecordCodec.Proofs.Value.Symmetry

/-!
# Equality by meaning is an equivalence

A value means the same as itself as long as its records repeat no names, and
values that mean the same as a third one mean the same.  Records mean the same
exactly if they have the same type and, under every name, nothing on both sides
or values that mean the same.
-/

namespace RecordCodec

namespace Value

/-- Integers mean the same exactly if they are the same number, whatever their signedness. -/
theorem equal_integers_iff {first second : Value} {number other : Int}
    (firstNumber : first.integer? = some number) (secondNumber : second.integer? = some other) :
    first.equal second = true ↔ number = other := by
  constructor
  · intro same
    have numbers := integer?_eq_of_equal same
    exact Option.some.inj (firstNumber.symm.trans (numbers.trans secondNumber))
  · rintro rfl
    exact equal_of_integer? firstNumber secondNumber

theorem equal_iff_eq {first second : Value} (plain : first.isPlain = true) :
    first.equal second = true ↔ second = first := by
  refine ⟨eq_of_equal plain, ?_⟩
  rintro rfl
  cases second with
  | bool | single | double | text | constant | flags => simp [Value.equal]
  | _ => cases plain

end Value

namespace RecordValue

variable {first second third : RecordValue}

theorem equal_refl_of_fields {record : RecordValue} (apart : record.NamesApart)
    (fields : ∀ field ∈ record.fields, field.value.NamesApart →
      field.value.equal field.value = true) : record.equal record = true := by
  obtain ⟨distinct, eachApart⟩ := namesApart_iff.mp apart
  refine equal_iff.mpr ⟨rfl, rfl, fun field member => ?_⟩
  exact ⟨field.value, get?_of_mem distinct member, fields field member (eachApart field member)⟩

theorem equal_trans_of_fields
    (fields : ∀ field ∈ first.fields, ∀ middle last, field.value.equal middle = true →
      middle.equal last = true → field.value.equal last = true)
    (same : first.equal second = true) (sameToo : second.equal third = true) :
    first.equal third = true := by
  obtain ⟨types, length, found⟩ := equal_iff.mp same
  obtain ⟨typesToo, lengthToo, -⟩ := equal_iff.mp sameToo
  refine equal_iff.mpr ⟨types.trans typesToo, length.trans lengthToo, fun field member => ?_⟩
  obtain ⟨middle, middleFound, equal⟩ := found field member
  obtain ⟨last, lastFound, equalToo⟩ := get?_of_equal sameToo middleFound
  exact ⟨last, lastFound, fields field member middle last equal equalToo⟩

end RecordValue

theorem Value.equal_refl {value : Value} (apart : value.NamesApart) :
    value.equal value = true := by
  induction value using Value.parts_induction with
  | plain value plain => exact (Value.equal_iff_eq plain).mpr rfl
  | integer value number integer => exact Value.equal_of_integer? integer integer
  | array items ih =>
      have apartItems := Value.namesApart_array.mp apart
      refine Value.equal_array_iff.mpr ⟨items, rfl, List.forall₂_same.mpr fun item member => ?_⟩
      exact ih item member (apartItems item member)
  | record record ih =>
      exact Value.equal_record_iff.mpr ⟨record, rfl, RecordValue.equal_refl_of_fields apart ih⟩
  | union type variant payload ih =>
      exact Value.equal_union_iff.mpr ⟨payload, rfl, RecordValue.equal_refl_of_fields apart ih⟩

theorem Value.equal_trans {first second third : Value} (same : first.equal second = true)
    (sameToo : second.equal third = true) : first.equal third = true := by
  induction first using Value.parts_induction generalizing second third with
  | plain first plain =>
      obtain rfl := Value.eq_of_equal plain same
      exact sameToo
  | integer first number integer =>
      have numbers := (Value.integer?_eq_of_equal same).trans (Value.integer?_eq_of_equal sameToo)
      exact Value.equal_of_integer? integer (numbers.symm.trans integer)
  | array items ih =>
      obtain ⟨others, rfl, related⟩ := Value.equal_array_iff.mp same
      obtain ⟨lasts, rfl, relatedToo⟩ := Value.equal_array_iff.mp sameToo
      refine Value.equal_array_iff.mpr ⟨lasts, rfl, forall₂_trans ?_ related relatedToo⟩
      exact fun item member _ _ => ih item member
  | record first ih =>
      obtain ⟨second, rfl, equal⟩ := Value.equal_record_iff.mp same
      obtain ⟨third, rfl, equalToo⟩ := Value.equal_record_iff.mp sameToo
      refine Value.equal_record_iff.mpr ⟨third, rfl, ?_⟩
      exact RecordValue.equal_trans_of_fields (fun field member _ _ => ih field member) equal
        equalToo
  | union type variant first ih =>
      obtain ⟨second, rfl, equal⟩ := Value.equal_union_iff.mp same
      obtain ⟨third, rfl, equalToo⟩ := Value.equal_union_iff.mp sameToo
      refine Value.equal_union_iff.mpr ⟨third, rfl, ?_⟩
      exact RecordValue.equal_trans_of_fields (fun field member _ _ => ih field member) equal
        equalToo

namespace RecordValue

variable {record first second : RecordValue}

theorem mem_names_iff {name : String} :
    name ∈ record.fields.map FieldValue.name ↔ ∃ value, record.get? name = some value := by
  constructor
  · intro named
    cases found : record.get? name with
    | some value => exact ⟨value, rfl⟩
    | none =>
        obtain ⟨field, member, same⟩ := List.mem_map.mp named
        have missing := List.find?_eq_none.mp (Option.map_eq_none_iff.mp found) field member
        exact absurd same (by simpa using missing)
  · rintro ⟨value, found⟩
    exact List.mem_map.mpr ⟨_, mem_of_get? found, rfl⟩

/-- Records mean the same exactly if their types do and what is found under every name. -/
theorem equal_iff_get? (firstDistinct : first.Distinct) (secondDistinct : second.Distinct) :
    first.equal second = true ↔ first.type = second.type ∧
      ∀ name, Option.Rel (fun value other => value.equal other = true) (first.get? name)
        (second.get? name) := by
  constructor
  · intro same
    refine ⟨(equal_iff.mp same).1, fun name => ?_⟩
    cases found : first.get? name with
    | some value =>
        obtain ⟨other, otherFound, equal⟩ := get?_of_equal same found
        rw [otherFound]
        exact .some equal
    | none =>
        cases otherFound : second.get? name with
        | none => exact .none
        | some other =>
            obtain ⟨value, known, -⟩ :=
              exists_of_mem_equal firstDistinct same (mem_of_get? otherFound)
            cases found.symm.trans known
  · rintro ⟨types, lookups⟩
    have related {name : String} {value : Value} (found : first.get? name = some value) :
        ∃ other, second.get? name = some other ∧ value.equal other = true := by
      have both := lookups name
      rw [found] at both
      generalize second.get? name = held at both
      cases both with
      | some equal => exact ⟨_, rfl, equal⟩
    have names : (first.fields.map FieldValue.name).Perm (second.fields.map FieldValue.name) := by
      refine (List.perm_ext_iff_of_nodup firstDistinct secondDistinct).mpr fun name => ?_
      rw [mem_names_iff, mem_names_iff]
      have both := lookups name
      generalize first.get? name = held, second.get? name = heldToo at both
      cases both <;> simp
    refine equal_iff.mpr ⟨types, by simpa using names.length_eq, fun field member => ?_⟩
    exact related (get?_of_mem firstDistinct member)

/-- It makes no difference whether a field is compared with what is found or the other way. -/
theorem equal_iff_found_equal (firstApart : first.NamesApart) (secondApart : second.NamesApart) :
    first.equal second = true ↔
      first.type = second.type ∧ first.fields.length = second.fields.length ∧
        ∀ field ∈ first.fields, ∃ value, second.get? field.name = some value ∧
          value.equal field.value = true := by
  have eachApart := (namesApart_iff.mp firstApart).2
  rw [equal_iff]
  refine and_congr_right fun _ => and_congr_right fun _ => forall₂_congr fun field member => ?_
  refine exists_congr fun value => and_congr_right fun found => ?_
  exact ⟨Value.equal_symm (eachApart field member), Value.equal_symm (secondApart.of_get? found)⟩

end RecordValue

end RecordCodec
