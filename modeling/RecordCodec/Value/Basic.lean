import RecordCodec.Kind
import RecordCodec.Number.Binary

/-!
# Values

A value of a type in memory.  Integers carry the signedness with which they
were built, floats are kept as bits, and enumerations, flags and variants are
carried by name.  A record lists its fields in the order in which they were
supplied; `RecordValue.set` keeps the names apart.
-/

namespace RecordCodec

mutual
/-- A value in memory. -/
inductive Value
  | bool (value : Bool)
  | signed (value : Int64)
  | unsigned (value : UInt64)
  | single (bits : UInt32)
  | double (bits : UInt64)
  | text (value : String)
  /-- A constant of an enumeration, by name. -/
  | constant (name : String)
  /-- A set of flags, by their names. -/
  | flags (names : List String)
  | array (items : List Value)
  | record (record : RecordValue)
  /-- A union: its type, the selected variant and the record of that variant. -/
  | union (type variant : String) (payload : RecordValue)
/-- A record with the name of its type. -/
structure RecordValue where
  type : String
  /-- The fields in the order in which they were supplied. -/
  fields : List FieldValue
/-- A field of a record. -/
structure FieldValue where
  name : String
  value : Value
end

instance : Inhabited Value := ⟨.bool false⟩

/-- The greatest number of values that a list in memory can hold: each takes 72 bytes, and a list
takes no more than half of what 64 bits can address. -/
def itemLimit : Nat := (2 ^ 63 - 1) / 72

namespace FieldValue

/-- The value of the first field with a name. -/
def find? (fields : List FieldValue) (name : String) : Option Value :=
  (fields.find? (fun field => field.name == name)).map FieldValue.value

/-- Replaces the value of the field with a name, or puts a new field at the end. -/
def set (name : String) (value : Value) : List FieldValue → List FieldValue
  | [] => [⟨name, value⟩]
  | first :: rest =>
      if first.name = name then ⟨name, value⟩ :: rest else first :: set name value rest

end FieldValue

namespace RecordValue

def get? (record : RecordValue) (name : String) : Option Value :=
  FieldValue.find? record.fields name

/-- Supplies a field.  A field supplied before keeps its position and takes the new value. -/
def set (record : RecordValue) (name : String) (value : Value) : RecordValue :=
  ⟨record.type, FieldValue.set name value record.fields⟩

/-- The record to which the fields are supplied one after the other. -/
def ofFields (type : String) (fields : List FieldValue) : RecordValue :=
  fields.foldl (fun record field => record.set field.name field.value) ⟨type, []⟩

end RecordValue

namespace Value

/-- The kind of a value. -/
def kind : Value → Kind
  | .bool _ => .bool
  | .signed _ => .signedInteger
  | .unsigned _ => .unsignedInteger
  | .single _ => .single
  | .double _ => .double
  | .text _ => .text
  | .constant _ => .enumeration
  | .flags _ => .flags
  | .array _ => .array
  | .record _ => .record
  | .union _ _ _ => .union

/-- The record, if the value is one. -/
def record? : Value → Option RecordValue
  | .record fields => some fields
  | _ => none

/-- The numeric value of an integer of either signedness. -/
def integer? : Value → Option Int
  | .signed value => some value.toInt
  | .unsigned value => some value.toNat
  | _ => none

/-- The integer as an unsigned word, unless it is negative. -/
def toUnsigned? : Value → Option UInt64
  | .unsigned value => some value
  | .signed value => if 0 ≤ value then some value.toUInt64 else none
  | _ => none

/-- The integer as a signed word, unless it is too great for one. -/
def toSigned? : Value → Option Int64
  | .signed value => some value
  | .unsigned value => if value.toNat < 2 ^ 63 then some value.toInt64 else none
  | _ => none

end Value

end RecordCodec
