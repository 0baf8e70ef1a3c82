import Mathlib.Data.List.Forall2
import RecordCodec.Proofs.Value.Record
import RecordCodec.Value.Equality

/-!
# What equality by meaning compares

Integers mean the same when they are the same number, arrays when their items
do, one by one, and records when they have the same type and as many fields and
the fields of the one mean the same as those of the other under their names.
-/

namespace RecordCodec

namespace Value

theorem equal_of_integer? {first second : Value} {number : Int}
    (firstNumber : first.integer? = some number) (secondNumber : second.integer? = some number) :
    first.equal second = true := by
  cases first with
  | unsigned word =>
      cases second with
      | unsigned other =>
          simp only [Value.integer?, Option.some.injEq] at firstNumber secondNumber
          have same : word.toNat = other.toNat := by omega
          simp [Value.equal, UInt64.toNat_inj.mp same]
      | signed other =>
          simp only [Value.integer?, Option.some.injEq] at firstNumber secondNumber
          simp [Value.equal, firstNumber, secondNumber]
      | _ => simp [Value.integer?] at secondNumber
  | signed word =>
      cases second with
      | unsigned other =>
          simp only [Value.integer?, Option.some.injEq] at firstNumber secondNumber
          simp [Value.equal, firstNumber, secondNumber]
      | signed other =>
          simp only [Value.integer?, Option.some.injEq] at firstNumber secondNumber
          have same : word = other := Int64.toInt_inj.mp (firstNumber.trans secondNumber.symm)
          simp [Value.equal, same]
      | _ => simp [Value.integer?] at secondNumber
  | _ => simp [Value.integer?] at firstNumber

theorem equalItems_iff {first second : List Value} :
    Value.equalItems first second = true ↔
      List.Forall₂ (fun item other => item.equal other = true) first second := by
  induction first generalizing second with
  | nil => cases second <;> simp [Value.equalItems]
  | cons item rest ih => cases second <;> simp [Value.equalItems, ih]

/-- A change that keeps the meaning of each item keeps the meaning of an array. -/
theorem equal_array_map {change : Value → Value} {items : List Value}
    (keeps : ∀ item ∈ items, (change item).equal item = true) :
    Value.equal (.array (items.map change)) (.array items) = true := by
  rw [Value.equal, equalItems_iff, List.forall₂_map_left_iff, List.forall₂_same]
  exact keeps

/-- The values that mean the same only as themselves: neither integers nor made of values. -/
def isPlain : Value → Bool
  | .bool _ | .single _ | .double _ | .text _ | .constant _ | .flags _ => true
  | .signed _ | .unsigned _ | .array _ | .record _ | .union _ _ _ => false

theorem eq_of_equal {first second : Value} (plain : first.isPlain = true)
    (same : first.equal second = true) : second = first := by
  cases first with
  | bool | single | double | text | constant | flags =>
      cases second <;> simp_all [Value.equal]
  | _ => cases plain

/-- Values that mean the same are the same number, or both are none. -/
theorem integer?_eq_of_equal {first second : Value} (same : first.equal second = true) :
    first.integer? = second.integer? := by
  cases first with
  | unsigned | signed => cases second <;> simp_all [Value.equal, Value.integer?]
  | _ => cases second <;> first | rfl | cases same

theorem equal_array_iff {items : List Value} {value : Value} :
    (Value.array items).equal value = true ↔
      ∃ others, value = .array others ∧
        List.Forall₂ (fun item other => item.equal other = true) items others := by
  cases value <;> simp [Value.equal, equalItems_iff]

theorem equal_record_iff {record : RecordValue} {value : Value} :
    (Value.record record).equal value = true ↔
      ∃ other, value = .record other ∧ record.equal other = true := by
  cases value <;> simp [Value.equal]

theorem equal_union_iff {type variant : String} {payload : RecordValue} {value : Value} :
    (Value.union type variant payload).equal value = true ↔
      ∃ other, value = .union type variant other ∧ payload.equal other = true := by
  cases value with
  | union otherType otherVariant other =>
      simp only [Value.equal, Bool.and_eq_true, beq_iff_eq, Value.union.injEq]
      constructor
      · rintro ⟨⟨rfl, rfl⟩, same⟩
        exact ⟨other, ⟨rfl, rfl, rfl⟩, same⟩
      · rintro ⟨_, ⟨rfl, rfl, rfl⟩, same⟩
        exact ⟨⟨rfl, rfl⟩, same⟩
  | _ => simp [Value.equal]

end Value

namespace RecordValue

theorem equal_iff {first second : RecordValue} :
    first.equal second = true ↔
      first.type = second.type ∧ first.fields.length = second.fields.length ∧
        ∀ field ∈ first.fields, ∃ value, second.get? field.name = some value ∧
          field.value.equal value = true := by
  have fields (fields : List FieldValue) :
      FieldValue.equalIn fields second = true ↔
        ∀ field ∈ fields, ∃ value, second.get? field.name = some value ∧
          field.value.equal value = true := by
    induction fields with
    | nil => simp [FieldValue.equalIn]
    | cons field rest ih =>
        cases field with
        | mk name value =>
            simp only [FieldValue.equalIn, Bool.and_eq_true, ih, List.forall_mem_cons]
            cases second.get? name <;> simp
  cases first
  simp [RecordValue.equal, fields, and_assoc]

/-- What a record has under a name, a record that means the same has there in meaning. -/
theorem get?_of_equal {first second : RecordValue} (same : first.equal second = true)
    {name : String} {value : Value} (found : first.get? name = some value) :
    ∃ other, second.get? name = some other ∧ value.equal other = true :=
  (equal_iff.mp same).2.2 _ (mem_of_get? found)

end RecordValue

mutual
/-- No record in the value repeats the name of a field. -/
def Value.NamesApart : Value → Prop
  | .array items => Value.ItemsNamesApart items
  | .record record => RecordValue.NamesApart record
  | .union _ _ payload => RecordValue.NamesApart payload
  | _ => True
/-- No record in any of the items repeats the name of a field. -/
def Value.ItemsNamesApart : List Value → Prop
  | [] => True
  | item :: rest => Value.NamesApart item ∧ Value.ItemsNamesApart rest
/-- Neither the record nor any record in it repeats the name of a field. -/
def RecordValue.NamesApart : RecordValue → Prop
  | ⟨_, fields⟩ => (fields.map FieldValue.name).Nodup ∧ FieldValue.AllNamesApart fields
/-- No record in any of the fields repeats the name of a field. -/
def FieldValue.AllNamesApart : List FieldValue → Prop
  | [] => True
  | ⟨_, value⟩ :: rest => Value.NamesApart value ∧ FieldValue.AllNamesApart rest
end

theorem Value.namesApart_array {items : List Value} :
    (Value.array items).NamesApart ↔ ∀ item ∈ items, item.NamesApart := by
  rw [Value.NamesApart]
  induction items with
  | nil => simp [Value.ItemsNamesApart]
  | cons item rest ih => simp [Value.ItemsNamesApart, ih]

/-- Neither an array nor a record nor a union. -/
def Value.isLeaf : Value → Bool
  | .array _ | .record _ | .union _ _ _ => false
  | _ => true

theorem Value.namesApart_of_isLeaf {value : Value} (leaf : value.isLeaf = true) :
    value.NamesApart := by
  cases value with
  | array | record | union => cases leaf
  | _ => exact True.intro

theorem RecordValue.namesApart_iff {record : RecordValue} :
    record.NamesApart ↔ record.Distinct ∧ ∀ field ∈ record.fields, field.value.NamesApart := by
  have fields (fields : List FieldValue) :
      FieldValue.AllNamesApart fields ↔ ∀ field ∈ fields, field.value.NamesApart := by
    induction fields with
    | nil => simp [FieldValue.AllNamesApart]
    | cons field rest ih =>
        cases field
        simp [FieldValue.AllNamesApart, ih]
  cases record
  simp [RecordValue.NamesApart, fields, RecordValue.Distinct]

theorem RecordValue.NamesApart.of_get? {record : RecordValue} (apart : record.NamesApart)
    {name : String} {value : Value} (found : record.get? name = some value) :
    value.NamesApart := by
  obtain ⟨distinct, each⟩ := RecordValue.namesApart_iff.mp apart
  exact each _ ((RecordValue.get?_eq_some_iff distinct).mp found)

/-- It suffices to look at what is found under each of the names. -/
theorem RecordValue.namesApart_of_get? {record : RecordValue} {names : List String}
    (unique : names.Nodup) (same : record.fields.map FieldValue.name = names)
    (each : ∀ name ∈ names, ∃ value, record.get? name = some value ∧ value.NamesApart) :
    record.NamesApart := by
  have distinct : record.Distinct := by rwa [RecordValue.Distinct, same]
  refine RecordValue.namesApart_iff.mpr ⟨distinct, fun field member => ?_⟩
  obtain ⟨value, found, apart⟩ := each field.name (same ▸ List.mem_map_of_mem member)
  have held := RecordValue.get?_of_mem distinct member
  rwa [← Option.some.inj (found.symm.trans held)]

/-- A value is another one, one of its items or fields, a part of such a part, and so on. -/
inductive Value.Inside (part : Value) : Value → Prop
  | refl : Inside part part
  | item {item : Value} {items : List Value} (member : item ∈ items) (inside : Inside part item) :
      Inside part (.array items)
  | field {field : FieldValue} {record : RecordValue} (member : field ∈ record.fields)
      (inside : Inside part field.value) : Inside part (.record record)
  | payload {type variant : String} {field : FieldValue} {payload : RecordValue}
      (member : field ∈ payload.fields) (inside : Inside part field.value) :
      Inside part (.union type variant payload)

theorem Value.Inside.namesApart {part whole : Value} (inside : part.Inside whole)
    (apart : whole.NamesApart) : part.NamesApart := by
  induction inside with
  | refl => exact apart
  | item member _ ih => exact ih (Value.namesApart_array.mp apart _ member)
  | field member _ ih => exact ih ((RecordValue.namesApart_iff.mp apart).2 _ member)
  | payload member _ ih => exact ih ((RecordValue.namesApart_iff.mp apart).2 _ member)

theorem Value.Inside.trans {part middle whole : Value} (first : part.Inside middle)
    (second : middle.Inside whole) : part.Inside whole := by
  induction second with
  | refl => exact first
  | item member _ ih => exact .item member ih
  | field member _ ih => exact .field member ih
  | payload member _ ih => exact .payload member ih

/-- A value as memory holds it: none of the lists in it is longer than a list can be. -/
def Value.Held (value : Value) : Prop :=
  ∀ items, (Value.array items).Inside value → items.length ≤ itemLimit

theorem Value.Held.of_inside {part whole : Value} (held : whole.Held)
    (inside : part.Inside whole) : part.Held :=
  fun items within => held items (within.trans inside)

theorem Value.held_of_isLeaf {value : Value} (leaf : value.isLeaf = true) : value.Held := by
  rintro items inside
  cases inside <;> cases leaf

theorem Value.held_array {items : List Value} :
    (Value.array items).Held ↔ items.length ≤ itemLimit ∧ ∀ item ∈ items, item.Held := by
  constructor
  · intro held
    exact ⟨held items .refl, fun item member => held.of_inside (.item member .refl)⟩
  · rintro ⟨short, each⟩ others inside
    cases inside with
    | refl => exact short
    | item member within => exact each _ member others within

theorem RecordValue.held_iff {record : RecordValue} :
    (Value.record record).Held ↔ ∀ field ∈ record.fields, field.value.Held := by
  constructor
  · intro held field member
    exact held.of_inside (.field member .refl)
  · rintro each items (_ | _ | ⟨member, within⟩)
    exact each _ member items within

/-- What a union holds is what its payload holds. -/
theorem Value.held_union {type variant : String} {payload : RecordValue} :
    (Value.union type variant payload).Held ↔ (Value.record payload).Held := by
  rw [RecordValue.held_iff]
  constructor
  · intro held field member
    exact held.of_inside (.payload member .refl)
  · rintro each items (_ | _ | _ | ⟨member, within⟩)
    exact each _ member items within

end RecordCodec
