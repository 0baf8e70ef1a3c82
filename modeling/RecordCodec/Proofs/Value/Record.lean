import RecordCodec.Proofs.Keyed
import RecordCodec.Value.Basic

/-!
# Records with distinct names

The fields of a record are found by name.  As long as no name is repeated, as
building a record field by field guarantees, what is found under a name is the
value of the one field with that name.
-/

namespace RecordCodec

namespace FieldValue

theorem names_set (name : String) (value : Value) (fields : List FieldValue) :
    (FieldValue.set name value fields).map FieldValue.name =
      if name ∈ fields.map FieldValue.name then fields.map FieldValue.name
      else fields.map FieldValue.name ++ [name] := by
  induction fields with
  | nil => simp [FieldValue.set]
  | cons first rest ih =>
      by_cases same : first.name = name
      · simp [FieldValue.set, same]
      · have differ : ¬name = first.name := fun equal => same equal.symm
        by_cases among : name ∈ rest.map FieldValue.name
        · simp only [FieldValue.set, if_neg same, List.map_cons, ih, if_pos among,
            List.mem_cons, differ, false_or]
        · simp only [FieldValue.set, if_neg same, List.map_cons, ih, if_neg among,
            List.mem_cons, differ, false_or, List.cons_append]

theorem mem_of_mem_set {name : String} {value : Value} {fields : List FieldValue}
    {field : FieldValue} (member : field ∈ FieldValue.set name value fields) :
    field = ⟨name, value⟩ ∨ field ∈ fields := by
  induction fields with
  | nil => exact .inl (List.mem_singleton.mp member)
  | cons first rest ih =>
      unfold FieldValue.set at member
      split at member
      · exact (List.mem_cons.mp member).imp_right (List.mem_cons_of_mem first)
      · rcases List.mem_cons.mp member with rfl | inRest
        · exact .inr List.mem_cons_self
        · exact (ih inRest).imp_right (List.mem_cons_of_mem first)

end FieldValue

namespace RecordValue

/-- No two fields of the record have the same name. -/
def Distinct (record : RecordValue) : Prop :=
  (record.fields.map FieldValue.name).Nodup

variable {record : RecordValue}

/-- Supplying a field keeps the names apart. -/
theorem Distinct.set (distinct : record.Distinct) (name : String) (value : Value) :
    (record.set name value).Distinct := by
  unfold Distinct RecordValue.set at *
  rw [FieldValue.names_set]
  split
  · exact distinct
  · rename_i new
    exact List.nodup_append.mpr ⟨distinct, List.nodup_singleton name, by
      intro first member second last
      rw [List.mem_singleton.mp last]
      rintro rfl
      exact new member⟩

/-- A record to which fields are supplied one after the other repeats no name. -/
theorem distinct_ofFields (type : String) (fields : List FieldValue) :
    (RecordValue.ofFields type fields).Distinct := by
  suffices general : ∀ record : RecordValue, record.Distinct →
      (fields.foldl (fun record field => record.set field.name field.value) record).Distinct from
    general ⟨type, []⟩ List.nodup_nil
  induction fields with
  | nil => exact fun record distinct => distinct
  | cons field rest ih => exact fun record distinct => ih _ (distinct.set field.name field.value)

/-- The fields of such a record are among those that were supplied. -/
theorem mem_of_mem_ofFields {type : String} {fields : List FieldValue} {field : FieldValue}
    (member : field ∈ (RecordValue.ofFields type fields).fields) : field ∈ fields := by
  suffices general : ∀ record : RecordValue,
      field ∈ (fields.foldl (fun record field => record.set field.name field.value)
        record).fields → field ∈ record.fields ∨ field ∈ fields from
    (general ⟨type, []⟩ member).resolve_left List.not_mem_nil
  clear member
  induction fields with
  | nil => exact fun record member => .inl member
  | cons first rest ih =>
      intro record member
      rcases ih _ member with held | inRest
      · rcases FieldValue.mem_of_mem_set held with isFirst | old
        · cases first
          exact .inr (isFirst ▸ List.mem_cons_self)
        · exact .inl old
      · exact .inr (List.mem_cons_of_mem first inRest)

theorem mem_of_get? {name : String} {value : Value} (found : record.get? name = some value) :
    ⟨name, value⟩ ∈ record.fields := by
  obtain ⟨⟨other, supplied⟩, among, rfl⟩ := Option.map_eq_some_iff.mp found
  obtain rfl : other = name := by simpa using List.find?_some among
  exact List.mem_of_find?_eq_some among

theorem get?_eq_some_iff (distinct : record.Distinct) {name : String} {value : Value} :
    record.get? name = some value ↔ ⟨name, value⟩ ∈ record.fields := by
  simp only [RecordValue.get?, FieldValue.find?, Option.map_eq_some_iff,
    find?_key_eq_some distinct]
  constructor
  · rintro ⟨field, ⟨member, rfl⟩, rfl⟩
    cases field
    exact member
  · intro member
    exact ⟨_, ⟨member, rfl⟩, rfl⟩

theorem get?_of_mem (distinct : record.Distinct) {field : FieldValue}
    (member : field ∈ record.fields) : record.get? field.name = some field.value := by
  cases field
  exact (get?_eq_some_iff distinct).mpr member

/-- A record that has exactly the given names has as many fields. -/
theorem length_fields_eq (distinct : record.Distinct) {names : List String} (unique : names.Nodup)
    (declared : ∀ field ∈ record.fields, field.name ∈ names)
    (present : ∀ name ∈ names, ∃ value, record.get? name = some value) :
    record.fields.length = names.length := by
  have same : (record.fields.map FieldValue.name).Perm names := by
    rw [List.perm_ext_iff_of_nodup distinct unique]
    intro name
    constructor
    · intro member
      obtain ⟨field, among, rfl⟩ := List.mem_map.mp member
      exact declared field among
    · intro member
      obtain ⟨value, found⟩ := present name member
      exact List.mem_map.mpr ⟨_, (get?_eq_some_iff distinct).mp found, rfl⟩
  simpa using same.length_eq

/-- A record is given by its names and what is found under them. -/
theorem fields_eq_map (distinct : record.Distinct) {names : List String}
    (same : record.fields.map FieldValue.name = names) :
    record.fields = names.map fun name => ⟨name, (record.get? name).getD default⟩ := by
  have each : ∀ field ∈ record.fields,
      (⟨field.name, (record.get? field.name).getD default⟩ : FieldValue) = field := by
    intro field member
    cases field
    rw [get?_of_mem distinct member, Option.getD_some]
  rw [← same, List.map_map]
  exact (List.map_congr_left each).trans (List.map_id _) |>.symm

end RecordValue

end RecordCodec
