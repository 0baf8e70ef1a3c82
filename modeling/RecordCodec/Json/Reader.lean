import RecordCodec.Json.Token
import RecordCodec.Text.Utf8

/-!
# A reader of JSON

The program is run with a reader of JSON that is not prescribed.  This one is
for programs that have no other.  It takes every float to be the one that is
nearest to what is written.

The tokens of a text are read one at a time by a machine with a stack.  A
frame of the stack is an array or an object that has been opened and not yet
closed; the demand says what may come next.  Nesting is limited, and nothing
may follow the value.
-/

namespace RecordCodec.Json

/-- An array or an object that is still open.  Its parts are held last one first. -/
inductive Frame
  | array (items : List Json)
  | object (members : List JsonMember) (key : String)

/-- What the next token has to be. -/
inductive Demand
  | value
  /-- The first item of an array, or its end. -/
  | firstItem
  /-- The first key of an object, or its end. -/
  | firstKey
  | key (members : List JsonMember)
  | colon (members : List JsonMember) (key : String)
  /-- A comma or the end of the innermost frame. -/
  | separator
  /-- Nothing: the whole value has been read. -/
  | nothing (value : Json)

/-- The state of the machine. -/
structure Machine where
  /-- The open arrays and objects, the innermost first. -/
  stack : List Frame
  demand : Demand

/-- The greatest number of arrays and objects that may be open at once. -/
def nestingLimit : Nat := 127

def deliver (stack : List Frame) (value : Json) : Machine :=
  match stack with
  | [] => ⟨[], .nothing value⟩
  | .array items :: outer => ⟨.array (value :: items) :: outer, .separator⟩
  | .object members key :: outer => ⟨.object (⟨key, value⟩ :: members) key :: outer, .separator⟩

/-- Reads the first token of a value. -/
def beginValue? (stack : List Frame) : Token → Option Machine
  | .null => some (deliver stack .null)
  | .bool value => some (deliver stack (.bool value))
  | .number value => some (deliver stack (.number value))
  | .text value => some (deliver stack (.text value))
  | .openArray =>
      if stack.length < nestingLimit then some ⟨.array [] :: stack, .firstItem⟩ else none
  | .openObject =>
      if stack.length < nestingLimit then some ⟨.object [] "" :: stack, .firstKey⟩ else none
  | _ => none

/-- Reads one token. -/
def readToken? (machine : Machine) (token : Token) : Option Machine :=
  match machine.demand, machine.stack, token with
  | .value, stack, token => beginValue? stack token
  | .firstItem, _ :: outer, .closeArray => some (deliver outer (.array []))
  | .firstItem, stack, token => beginValue? stack token
  | .firstKey, _ :: outer, .closeObject => some (deliver outer (.object []))
  | .firstKey, stack, .text key => some ⟨stack, .colon [] key⟩
  | .key members, stack, .text key => some ⟨stack, .colon members key⟩
  | .colon members key, _ :: outer, .colon => some ⟨.object members key :: outer, .value⟩
  | .separator, .array items :: outer, .comma => some ⟨.array items :: outer, .value⟩
  | .separator, .array items :: outer, .closeArray => some (deliver outer (.array items.reverse))
  | .separator, .object members key :: outer, .comma =>
      some ⟨.object members key :: outer, .key members⟩
  | .separator, .object members _ :: outer, .closeObject =>
      some (deliver outer (.object members.reverse))
  | _, _, _ => none

/-- Reads a text as one JSON value, with the members of objects as they are written. -/
def read? (text : String) : Option Json := do
  let machine ← (← tokens? text).foldlM readToken? ⟨[], .value⟩
  match machine.demand with
  | .nothing value => some value
  | _ => none

/-- Reads a file as one JSON value. -/
def readBytes? : JsonReader := fun bytes => do
  read? (← Utf8.decode? bytes)

end RecordCodec.Json
