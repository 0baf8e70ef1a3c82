import RecordCodec.Number.Binary
import RecordCodec.Proofs.Value.Equality

/-!
# Values with canonical floats

A document has a single name for everything that is not a number.  Putting the
quiet pattern in place of every other such pattern is all that a document
forgets, and it changes nothing in a value that has only quiet ones.
-/

namespace RecordCodec

namespace Binary

/-- The 32-bit float, or the quiet pattern for one that is no number. -/
def canonicalSingle (bits : UInt32) : UInt32 :=
  if single.isNotANumber bits.toNat then quietSingle else bits

/-- The 64-bit float, or the quiet pattern for one that is no number. -/
def canonicalDouble (bits : UInt64) : UInt64 :=
  if isNotANumber bits then quietDouble else bits

end Binary

mutual
/-- The value in which every float that is no number is the quiet one of its width. -/
def Value.canonical : Value → Value
  | .single bits => .single (Binary.canonicalSingle bits)
  | .double bits => .double (Binary.canonicalDouble bits)
  | .array items => .array (Value.canonicalItems items)
  | .record record => .record (RecordValue.canonical record)
  | .union type variant payload => .union type variant (RecordValue.canonical payload)
  | value => value
/-- Each of the items with canonical floats. -/
def Value.canonicalItems : List Value → List Value
  | [] => []
  | item :: rest => Value.canonical item :: Value.canonicalItems rest
/-- The record with canonical floats. -/
def RecordValue.canonical : RecordValue → RecordValue
  | ⟨type, fields⟩ => ⟨type, FieldValue.canonicalAll fields⟩
/-- Each of the fields with canonical floats. -/
def FieldValue.canonicalAll : List FieldValue → List FieldValue
  | [] => []
  | ⟨name, value⟩ :: rest => ⟨name, Value.canonical value⟩ :: FieldValue.canonicalAll rest
end

mutual
/-- Every float in the value that is no number is the quiet one of its width. -/
def Value.Quiet : Value → Prop
  | .single bits => Binary.single.isNotANumber bits.toNat = true → bits = Binary.quietSingle
  | .double bits => Binary.isNotANumber bits = true → bits = Binary.quietDouble
  | .array items => Value.ItemsQuiet items
  | .record record => RecordValue.Quiet record
  | .union _ _ payload => RecordValue.Quiet payload
  | _ => True
/-- Every float in the items that is no number is quiet. -/
def Value.ItemsQuiet : List Value → Prop
  | [] => True
  | item :: rest => Value.Quiet item ∧ Value.ItemsQuiet rest
/-- Every float in the record that is no number is quiet. -/
def RecordValue.Quiet : RecordValue → Prop
  | ⟨_, fields⟩ => FieldValue.AllQuiet fields
/-- Every float in the fields that is no number is quiet. -/
def FieldValue.AllQuiet : List FieldValue → Prop
  | [] => True
  | ⟨_, value⟩ :: rest => Value.Quiet value ∧ FieldValue.AllQuiet rest
end

theorem Binary.canonicalSingle_eq_self {bits : UInt32}
    (quiet : single.isNotANumber bits.toNat = true → bits = quietSingle) :
    canonicalSingle bits = bits := by
  unfold canonicalSingle
  split
  · rename_i special
    exact (quiet special).symm
  · rfl

theorem Binary.canonicalDouble_eq_self {bits : UInt64}
    (quiet : isNotANumber bits = true → bits = quietDouble) : canonicalDouble bits = bits := by
  unfold canonicalDouble
  split
  · rename_i special
    exact (quiet special).symm
  · rfl

mutual
/-- A value with only quiet ones is canonical already. -/
theorem Value.canonical_eq_self : {value : Value} → value.Quiet → value.canonical = value
  | .single _, quiet => congrArg Value.single (Binary.canonicalSingle_eq_self quiet)
  | .double _, quiet => congrArg Value.double (Binary.canonicalDouble_eq_self quiet)
  | .array _, quiet => congrArg Value.array (Value.canonicalItems_eq_self quiet)
  | .record _, quiet => congrArg Value.record (RecordValue.canonical_eq_self quiet)
  | .union type variant _, quiet =>
      congrArg (Value.union type variant) (RecordValue.canonical_eq_self quiet)
  | .bool _, _ | .signed _, _ | .unsigned _, _ | .text _, _ | .constant _, _ | .flags _, _ => rfl
theorem Value.canonicalItems_eq_self :
    {items : List Value} → Value.ItemsQuiet items → Value.canonicalItems items = items
  | [], _ => rfl
  | _ :: _, quiet =>
      congrArg₂ List.cons (Value.canonical_eq_self quiet.1) (Value.canonicalItems_eq_self quiet.2)
theorem RecordValue.canonical_eq_self :
    {record : RecordValue} → record.Quiet → record.canonical = record
  | ⟨type, _⟩, quiet => congrArg (RecordValue.mk type) (FieldValue.canonicalAll_eq_self quiet)
theorem FieldValue.canonicalAll_eq_self :
    {fields : List FieldValue} → FieldValue.AllQuiet fields →
      FieldValue.canonicalAll fields = fields
  | [], _ => rfl
  | ⟨name, _⟩ :: _, quiet =>
      congrArg₂ List.cons (congrArg (FieldValue.mk name) (Value.canonical_eq_self quiet.1))
        (FieldValue.canonicalAll_eq_self quiet.2)
end

theorem RecordValue.type_canonical (record : RecordValue) :
    record.canonical.type = record.type := by
  cases record
  rfl

theorem FieldValue.canonicalAll_eq_map (fields : List FieldValue) :
    FieldValue.canonicalAll fields =
      fields.map fun field => ⟨field.name, field.value.canonical⟩ := by
  induction fields with
  | nil => rfl
  | cons field rest ih =>
      cases field
      simp [FieldValue.canonicalAll, ih]

theorem RecordValue.fields_canonical (record : RecordValue) :
    record.canonical.fields =
      record.fields.map fun field => ⟨field.name, field.value.canonical⟩ := by
  cases record with
  | mk type fields => exact FieldValue.canonicalAll_eq_map fields

/-- Under a name the canonical record has the canonical value. -/
theorem RecordValue.get?_canonical (record : RecordValue) (name : String) :
    record.canonical.get? name = (record.get? name).map Value.canonical := by
  rw [RecordValue.get?, RecordValue.get?, FieldValue.find?, FieldValue.find?,
    RecordValue.fields_canonical, List.find?_map, Option.map_map, Option.map_map]
  rfl

end RecordCodec
