import RecordCodec.Value.Basic

/-!
# Telling values apart

Two values are compared part by part.  That decides whether they are the same
value, a finer question than whether they mean the same: the signedness of an
integer and the order of the fields of a record count.
-/

namespace RecordCodec

mutual
/-- The values are built alike from the same parts. -/
def Value.same : Value → Value → Bool
  | .bool first, .bool second => first == second
  | .signed first, .signed second => first == second
  | .unsigned first, .unsigned second => first == second
  | .single first, .single second => first == second
  | .double first, .double second => first == second
  | .text first, .text second => first == second
  | .constant first, .constant second => first == second
  | .flags first, .flags second => first == second
  | .array first, .array second => Value.sameItems first second
  | .record first, .record second => RecordValue.same first second
  | .union firstType firstVariant first, .union secondType secondVariant second =>
      firstType == secondType && firstVariant == secondVariant && RecordValue.same first second
  | _, _ => false
termination_by structural first => first
def Value.sameItems : List Value → List Value → Bool
  | [], [] => true
  | first :: firstRest, second :: secondRest =>
      Value.same first second && Value.sameItems firstRest secondRest
  | _, _ => false
termination_by structural first => first
def RecordValue.same : RecordValue → RecordValue → Bool
  | ⟨type, fields⟩, other => type == other.type && FieldValue.sameAll fields other.fields
termination_by structural first => first
def FieldValue.sameAll : List FieldValue → List FieldValue → Bool
  | [], [] => true
  | ⟨name, value⟩ :: rest, other :: otherRest =>
      name == other.name && Value.same value other.value && FieldValue.sameAll rest otherRest
  | _, _ => false
termination_by structural first => first
end

mutual
theorem Value.same_iff : ∀ first second : Value, first.same second = true ↔ first = second
  | .array items, second => by cases second <;> simp [Value.same, Value.sameItems_iff items]
  | .record record, second => by cases second <;> simp [Value.same, RecordValue.same_iff record]
  | .union type variant payload, second => by
      cases second <;> simp [Value.same, RecordValue.same_iff payload, and_assoc]
  | .bool _, second | .signed _, second | .unsigned _, second | .single _, second
  | .double _, second | .text _, second | .constant _, second | .flags _, second => by
      cases second <;> simp [Value.same]
termination_by structural first => first
theorem Value.sameItems_iff :
    ∀ first second : List Value, Value.sameItems first second = true ↔ first = second
  | [], second => by cases second <;> simp [Value.sameItems]
  | item :: rest, second => by
      cases second <;> simp [Value.sameItems, Value.same_iff item, Value.sameItems_iff rest]
termination_by structural first => first
theorem RecordValue.same_iff :
    ∀ first second : RecordValue, first.same second = true ↔ first = second
  | ⟨type, fields⟩, second => by
      cases second
      simp [RecordValue.same, FieldValue.sameAll_iff fields]
termination_by structural first => first
theorem FieldValue.sameAll_iff :
    ∀ first second : List FieldValue, FieldValue.sameAll first second = true ↔ first = second
  | [], second => by cases second <;> simp [FieldValue.sameAll]
  | ⟨name, value⟩ :: rest, second => by
      cases second with
      | nil => simp [FieldValue.sameAll]
      | cons other otherRest =>
          cases other
          simp [FieldValue.sameAll, Value.same_iff value, FieldValue.sameAll_iff rest]
termination_by structural first => first
end

instance : DecidableEq Value :=
  fun first second => decidable_of_iff _ (Value.same_iff first second)

end RecordCodec
