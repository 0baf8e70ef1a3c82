import RecordCodec.Value.Basic

/-!
# Equality by meaning

Integers are equal when their numbers are, whatever their signedness.  Floats
are equal when their bits are.  Records are equal when they have the same type
and the same fields, in whatever order these were supplied.
-/

namespace RecordCodec

mutual
/-- Two values mean the same. -/
def Value.equal : Value → Value → Bool
  | .bool first, .bool second => first == second
  | .unsigned first, .unsigned second => first == second
  | .signed first, .signed second => first == second
  | .unsigned first, .signed second => (first.toNat : Int) == second.toInt
  | .signed first, .unsigned second => first.toInt == (second.toNat : Int)
  | .single first, .single second => first == second
  | .double first, .double second => first == second
  | .text first, .text second => first == second
  | .constant first, .constant second => first == second
  | .flags first, .flags second => first == second
  | .array first, .array second => Value.equalItems first second
  | .record first, .record second => RecordValue.equal first second
  | .union firstType firstVariant first, .union secondType secondVariant second =>
      firstType == secondType && firstVariant == secondVariant && RecordValue.equal first second
  | _, _ => false
termination_by structural first => first
/-- Two lists of values mean the same item by item. -/
def Value.equalItems : List Value → List Value → Bool
  | [], [] => true
  | first :: firstRest, second :: secondRest =>
      Value.equal first second && Value.equalItems firstRest secondRest
  | _, _ => false
termination_by structural first => first
/-- Two records have the same type and, name by name, fields that mean the same. -/
def RecordValue.equal : RecordValue → RecordValue → Bool
  | ⟨type, fields⟩, other =>
      type == other.type && fields.length == other.fields.length &&
        FieldValue.equalIn fields other
termination_by structural first => first
/-- Each of the fields means the same as the one of its name in the other record. -/
def FieldValue.equalIn : List FieldValue → RecordValue → Bool
  | [], _ => true
  | ⟨name, value⟩ :: rest, other =>
      (match other.get? name with
        | some otherValue => Value.equal value otherValue
        | none => false) && FieldValue.equalIn rest other
termination_by structural first => first
end

instance : BEq Value := ⟨Value.equal⟩

end RecordCodec
