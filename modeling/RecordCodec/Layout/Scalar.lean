import RecordCodec.Error

/-!
# Scalars

A scalar occupies one to eight bytes.  Its kind follows from the name under
which it is declared, and the kind limits the width.
-/

namespace RecordCodec

/-- The number of bytes of an integer, from one to eight. -/
structure WordWidth where
  bytes : Nat
  positive : 1 ≤ bytes
  atMostEight : bytes ≤ 8
deriving DecidableEq

/-- The width of a single byte. -/
def WordWidth.byte : WordWidth :=
  ⟨1, by decide, by decide⟩

/-- A value of fixed width without parts. -/
inductive Scalar
  | unsigned (width : WordWidth)
  | signed (width : WordWidth)
  | single
  | double
  | bool
  | char
deriving DecidableEq

namespace Scalar

/-- The number of bytes that the scalar occupies. -/
def width : Scalar → Nat
  | .unsigned width => width.bytes
  | .signed width => width.bytes
  | .single => 4
  | .double => 8
  | .bool => 1
  | .char => 1

/-- The kind of the values that the scalar holds. -/
def kind : Scalar → Kind
  | .unsigned _ => .unsignedInteger
  | .signed _ => .signedInteger
  | .single => .single
  | .double => .double
  | .bool => .bool
  | .char => .char

/-- The integer width of the given number of bytes, if there is one. -/
def wordWidth? (size : Nat) : Option WordWidth :=
  if fits : 1 ≤ size ∧ size ≤ 8 then some ⟨size, fits.1, fits.2⟩ else none

/-- The float of the given number of bytes, if there is one. -/
def float? (size : Nat) : Option Scalar :=
  if size = 4 then some .single else if size = 8 then some .double else none

/-- The scalar of a name and a size, if the size suits the kind that the name stands for. -/
def named? (name : String) (size : Nat) : Option Scalar :=
  if name = "bool" then if size = 1 then some .bool else none
  else if name = "char" then if size = 1 then some .char else none
  else if name = "f32" ∨ name = "f64" ∨ name = "float" ∨ name = "double" then float? size
  else if name.toList.head? = some 'i' then (wordWidth? size).map .signed
  else (wordWidth? size).map .unsigned

def ofDeclaration (name : String) (size : Nat) : Except Error Scalar :=
  match named? name size with
  | some scalar => .ok scalar
  | none => .error (.invalidPrimitive name size)

/-- The scalars that every schema has unless it declares their names otherwise. -/
def builtIns : List (String × Scalar) :=
  [("u8", .unsigned .byte),
    ("u16", .unsigned ⟨2, by decide, by decide⟩),
    ("u32", .unsigned ⟨4, by decide, by decide⟩),
    ("u64", .unsigned ⟨8, by decide, by decide⟩),
    ("i8", .signed .byte),
    ("i16", .signed ⟨2, by decide, by decide⟩),
    ("i32", .signed ⟨4, by decide, by decide⟩),
    ("i64", .signed ⟨8, by decide, by decide⟩),
    ("f32", .single), ("f64", .double), ("bool", .bool), ("char", .char)]

end Scalar

end RecordCodec
