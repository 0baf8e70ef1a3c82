import RecordCodec.Error
import RecordCodec.Number.Binary

/-!
# Words in bytes

Every number of the format is a run of bytes, the most significant one first.
`BigEndian.word` reads such a run as a 64-bit word and `BigEndian.bytes` writes
the low bytes of a word.  A run longer than eight bytes keeps its last eight.

# Bounded access to bytes

Reading and writing are settled by one test: an access of `need` bytes at
`offset` is possible exactly when `offset + need` does not pass the end.  A
`Writing` action changes a buffer in place and may fail part of the way, in
which case the buffer is left as far as it got.
-/

namespace RecordCodec

namespace BigEndian

/-- The 64-bit word that a run of bytes spells. -/
def word (bytes : List UInt8) : UInt64 :=
  bytes.foldl (fun high byte => high <<< 8 ||| byte.toUInt64) 0

/-- The low `width` bytes of a word, most significant first. -/
def bytes : (width : Nat) → UInt64 → List UInt8
  | 0, _ => []
  | width + 1, value =>
      UInt8.ofNat (value.toNat / 256 ^ width) :: bytes width value

@[simp] theorem length_bytes (width : Nat) (value : UInt64) :
    (bytes width value).length = width := by
  induction width with
  | zero => rfl
  | succ width ih => simp [bytes, ih]

end BigEndian

abbrev Buffer := ByteArray

namespace Buffer

def toList (buffer : Buffer) : List UInt8 :=
  buffer.data.toList

def ofList (bytes : List UInt8) : Buffer :=
  bytes.toByteArray

/-- A buffer of `count` zero bytes. -/
def zeros (count : Nat) : Buffer :=
  count.repeat (fun buffer => buffer.push 0) (ByteArray.emptyWithCapacity count)

/-- The `count` bytes from `offset` on, or as many as there are. -/
def slice (buffer : Buffer) (offset count : Nat) : Buffer :=
  buffer.extract offset (offset + count)

/-- The buffer with the bytes from `offset` on replaced by those of `bytes`. -/
def overwrite (buffer : Buffer) (offset : Nat) (bytes : Buffer) : Buffer :=
  bytes.copySlice 0 buffer offset bytes.size

/-- Fails unless `need` bytes lie from `offset` on. -/
def require (length offset need : Nat) : Except Error Unit :=
  if offset + need ≤ length then .ok () else .error (.outOfBounds offset need length)

/-- Reads `count` bytes at `offset`. -/
def read (buffer : Buffer) (offset count : Nat) : Except Error Buffer := do
  require buffer.size offset count
  return buffer.slice offset count

/-- Reads a big-endian word of `width` bytes at `offset`. -/
def readWord (buffer : Buffer) (offset width : Nat) : Except Error UInt64 := do
  return BigEndian.word (← buffer.read offset width).toList

end Buffer

/-- An action that writes into a buffer and may fail. -/
abbrev Writing := EStateM Error Buffer

namespace Writing

/-- A result that has nothing to do with the buffer. -/
def ofExcept {α : Type} (result : Except Error α) : Writing α := fun buffer =>
  match result with
  | .ok value => .ok value buffer
  | .error error => .error error buffer

instance : MonadLift (Except Error) Writing := ⟨ofExcept⟩

/-- Fails unless `need` bytes lie from `offset` on. -/
def require (offset need : Nat) : Writing Unit := fun buffer =>
  ofExcept (Buffer.require buffer.size offset need) buffer

/-- Replaces the bytes from `offset` on.  The caller has tested the bounds. -/
def overwrite (offset : Nat) (bytes : Buffer) : Writing Unit := fun buffer =>
  .ok () (buffer.overwrite offset bytes)

/-- Replaces the bytes from `offset` on, if there are enough of them. -/
def write (offset : Nat) (bytes : Buffer) : Writing Unit := do
  require offset bytes.size
  overwrite offset bytes

/-- Writes the low `width` bytes of a word at `offset`. -/
def writeWord (offset width : Nat) (value : UInt64) : Writing Unit :=
  write offset (Buffer.ofList (BigEndian.bytes width value))

/-- The result of an action on a buffer, without the buffer of a failed one. -/
def run {α : Type} (action : Writing α) (buffer : Buffer) : Except Error (α × Buffer) :=
  match action buffer with
  | .ok value buffer => .ok (value, buffer)
  | .error error _ => .error error

end Writing

end RecordCodec
