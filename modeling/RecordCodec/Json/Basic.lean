import RecordCodec.Bytes.Buffer

/-!
# JSON values

Numbers keep apart integers, which fit a 64-bit word of either signedness, and
finite floats.  The members of an object are listed in the order in which they
were written and may repeat a key; `Json.normalize` gives the plain value, in
which the last member of a key counts and the keys are in order.
-/

namespace RecordCodec

/-- A number: an integer that fits a signed or an unsigned word, or a finite float. -/
inductive JsonNumber
  | integer (value : Int) (fits : -2 ^ 63 ≤ value ∧ value < 2 ^ 64)
  | float (bits : UInt64) (finite : Binary.isFinite bits = true)
deriving DecidableEq

namespace JsonNumber

/-- The integer as a number, if it fits. -/
def ofInt? (value : Int) : Option JsonNumber :=
  if fits : -2 ^ 63 ≤ value ∧ value < 2 ^ 64 then some (.integer value fits) else none

/-- The float as a number, if it is finite. -/
def ofFloat? (bits : UInt64) : Option JsonNumber :=
  if finite : Binary.isFinite bits = true then some (.float bits finite) else none

def ofUnsigned (value : UInt64) : JsonNumber :=
  .integer value.toNat (by have := value.toNat_lt; omega)

def ofSigned (value : Int64) : JsonNumber :=
  .integer value.toInt (by have := value.toInt_lt; have := value.le_toInt; omega)

/-- The number as an unsigned word, if it is an integer that fits one. -/
def toUnsigned? : JsonNumber → Option UInt64
  | .integer value _ => if 0 ≤ value then some (UInt64.ofNat value.toNat) else none
  | .float _ _ => none

/-- The number as a signed word, if it is an integer that fits one. -/
def toSigned? : JsonNumber → Option Int64
  | .integer value _ => if value < 2 ^ 63 then some (Int64.ofInt value) else none
  | .float _ _ => none

def toFloat : JsonNumber → UInt64
  | .integer value _ => Binary.ofInt value
  | .float bits _ => bits

end JsonNumber

mutual
/-- A JSON value. -/
inductive Json
  | null
  | bool (value : Bool)
  | number (value : JsonNumber)
  | text (value : String)
  | array (items : List Json)
  | object (members : List JsonMember)
/-- A member of an object. -/
structure JsonMember where
  key : String
  value : Json
end

instance : Inhabited Json := ⟨.null⟩

/-- Reads a file as one JSON value, with the members of objects as they are written. -/
abbrev JsonReader := Buffer → Option Json

namespace JsonMember

/-- The value of the first member with a key. -/
def find? (members : List JsonMember) (key : String) : Option Json :=
  (members.find? (fun member => member.key == key)).map JsonMember.value

/-- Puts a member in its place among members in order, replacing one with the same key. -/
def insert (member : JsonMember) : List JsonMember → List JsonMember
  | [] => [member]
  | first :: rest =>
      if member.key < first.key then member :: first :: rest
      else if member.key = first.key then member :: rest
      else first :: insert member rest

/-- The members in the order of their keys, the last one of each key. -/
def sort (members : List JsonMember) : List JsonMember :=
  members.foldl (fun sorted member => insert member sorted) []

end JsonMember

namespace Json

def ofUnsigned (value : UInt64) : Json :=
  .number (.ofUnsigned value)

def ofSigned (value : Int64) : Json :=
  .number (.ofSigned value)

/-- A length or an offset as a value.  The program's are all far below the limit. -/
def ofNat (value : Nat) : Json :=
  .ofUnsigned (UInt64.ofNat value)

def ofTexts (texts : List String) : Json :=
  .array (texts.map Json.text)

/-- The text, if the value is one. -/
def text? : Json → Option String
  | .text value => some value
  | _ => none

/-- The truth value, if the value is one. -/
def bool? : Json → Option Bool
  | .bool value => some value
  | _ => none

/-- The unsigned word, if the value is one. -/
def unsigned? : Json → Option UInt64
  | .number value => value.toUnsigned?
  | _ => none

/-- The signed word, if the value is one. -/
def signed? : Json → Option Int64
  | .number value => value.toSigned?
  | _ => none

/-- The float nearest to the value, if it is a number. -/
def float? : Json → Option UInt64
  | .number value => some value.toFloat
  | _ => none

/-- The items, if the value is an array. -/
def items? : Json → Option (List Json)
  | .array items => some items
  | _ => none

/-- The members, if the value is an object. -/
def members? : Json → Option (List JsonMember)
  | .object members => some members
  | _ => none

/-- The value of the first member with a key, if the value is an object that has one. -/
def get? (json : Json) (key : String) : Option Json := do
  JsonMember.find? (← json.members?) key

/-- The value at the end of a path of keys. -/
def getPath? (json : Json) (keys : List String) : Option Json :=
  keys.foldlM Json.get? json

end Json

mutual
/-- The plain value: at every object the last member of each key, in the order of the keys. -/
def Json.normalize : Json → Json
  | .array items => .array (Json.normalizeItems items)
  | .object members => .object (JsonMember.sort (Json.normalizeMembers members))
  | json => json
def Json.normalizeItems : List Json → List Json
  | [] => []
  | item :: rest => item.normalize :: Json.normalizeItems rest
def Json.normalizeMembers : List JsonMember → List JsonMember
  | [] => []
  | ⟨key, value⟩ :: rest => ⟨key, value.normalize⟩ :: Json.normalizeMembers rest
end

end RecordCodec
