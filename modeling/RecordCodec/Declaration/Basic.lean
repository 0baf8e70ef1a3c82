/-!
# Type declarations

A schema is declared as a list of named types.  A declaration refers to other
types by name, in any order; what the names mean is settled when the list is
resolved into layouts.
-/

namespace RecordCodec

/-- A field of a record: a type, or a fixed number of elements of it. -/
structure FieldDeclaration where
  name : String
  /-- The name of the type of the field or of its elements. -/
  type : String
  /-- The number of elements, for an array. -/
  length : Option UInt64
deriving DecidableEq

/-- A member of a union: a record and the constant that selects it. -/
inductive MemberDeclaration
  /-- A record that is selected by the constant of the same name. -/
  | named (record : String)
  | tagged (record tag : String)
deriving DecidableEq

namespace MemberDeclaration

def record : MemberDeclaration → String
  | .named record => record
  | .tagged record _ => record

def tag : MemberDeclaration → String
  | .named record => record
  | .tagged _ tag => tag

end MemberDeclaration

/-- Where the tag of a union stands. -/
inductive DiscriminatorDeclaration
  /-- In front of the record.  The document shows it under this key. -/
  | key (key : String)
  /-- In a field of every record, found along this path of field names. -/
  | path (fields : List String)
deriving DecidableEq

/-- The declaration of a named type. -/
inductive Declaration
  /-- A scalar, whose kind follows from the name. -/
  | primitive (name : String) (size : UInt64)
  | alias (name target : String)
  /-- Named constants of an unsigned integer, maybe combined as flags. -/
  | enumeration (name underlying : String) (constants : List (String × UInt64))
      (isFlags : Bool)
  /-- Fields one behind the other, with the total length if it is to be checked. -/
  | record (name : String) (size : Option UInt64) (fields : List FieldDeclaration)
  /-- One of several records, told apart by a tag. -/
  | union (name : String) (discriminator : DiscriminatorDeclaration)
      (discriminant : Option String) (members : List MemberDeclaration)
deriving DecidableEq

namespace Declaration

/-- The declared name. -/
def name : Declaration → String
  | .primitive name _ => name
  | .alias name _ => name
  | .enumeration name _ _ _ => name
  | .record name _ _ => name
  | .union name _ _ _ => name

/-- The names that a declaration refers to, in the order in which they are looked up. -/
def references : Declaration → List String
  | .primitive _ _ => []
  | .alias _ target => [target]
  | .enumeration _ underlying _ _ => [underlying]
  | .record _ _ fields => fields.map FieldDeclaration.type
  | .union _ _ discriminant members =>
      members.map MemberDeclaration.record ++ discriminant.toList

end Declaration

end RecordCodec
