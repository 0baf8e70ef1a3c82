import RecordCodec.Bytes.Buffer

/-!
# Frames as they are written

A segment is a frame of the simplest kind: its content is held in one piece, as plain and repeating
blocks, and its size is announced.  Nothing else about it is prescribed, so that a content can be
written in many ways.
-/

namespace RecordCodec.Frame

/-- The bytes of a number, the least significant one first. -/
def littleEndianBytes : Nat → Nat → List UInt8
  | 0, _ => []
  | width + 1, number => .ofNat number :: littleEndianBytes width (number / 256)

/-- A run of content. -/
inductive Chunk
  | plain (bytes : List UInt8)
  | repeated (byte : UInt8) (count : Nat)
deriving DecidableEq

namespace Chunk

def size : Chunk → Nat
  | .plain bytes => bytes.length
  | .repeated _ count => count

def bytes : Chunk → List UInt8
  | .plain bytes => bytes
  | .repeated byte count => List.replicate count byte

/-- What a block stores of the chunk that it stands for. -/
def stored : Chunk → List UInt8
  | .plain bytes => bytes
  | .repeated byte _ => [byte]

def typeCode : Chunk → Nat
  | .plain _ => 0
  | .repeated _ _ => 1

/-- The number that the head of a block spells. -/
def headNumber (chunk : Chunk) (isLast : Bool) : Nat :=
  isLast.toNat + 2 * chunk.typeCode + 8 * chunk.size

/-- A block: a head of three bytes, and what is stored. -/
def written (chunk : Chunk) (isLast : Bool) : List UInt8 :=
  littleEndianBytes 3 (chunk.headNumber isLast) ++ chunk.stored

@[simp] theorem length_bytes (chunk : Chunk) : chunk.bytes.length = chunk.size := by
  cases chunk with
  | plain bytes => rfl
  | repeated byte count => exact List.length_replicate

/-- The size of all content of some chunks. -/
def total (chunks : List Chunk) : Nat :=
  chunks.foldr (fun chunk total => chunk.size + total) 0

theorem total_cons (chunk : Chunk) (chunks : List Chunk) :
    total (chunk :: chunks) = chunk.size + total chunks :=
  rfl

/-- What some chunks hold together. -/
def content (chunks : List Chunk) : List UInt8 :=
  chunks.flatMap bytes

theorem content_cons (chunk : Chunk) (chunks : List Chunk) :
    content (chunk :: chunks) = chunk.bytes ++ content chunks :=
  rfl

@[simp] theorem length_content (chunks : List Chunk) : (content chunks).length = total chunks := by
  induction chunks with
  | nil => rfl
  | cons chunk chunks ih => rw [content_cons, List.length_append, length_bytes, ih, total_cons]

end Chunk

/-- The blocks of a frame, of which the last one is marked. -/
def writtenBlocks : List Chunk → Chunk → List UInt8
  | [], last => last.written true
  | chunk :: front, last => chunk.written false ++ writtenBlocks front last

/-- How many bytes announce the size of the content, for each of the codes that a descriptor may
carry. -/
def fieldWidth : Fin 4 → Nat
  | 0 => 1
  | 1 => 2
  | 2 => 4
  | 3 => 8

/-- The number by which the announced size is less than the size. -/
def fieldBase : Fin 4 → Nat
  | 1 => 256
  | _ => 0

/--
A frame of a single segment, without dictionary and without checksum.  No block stands for more
bytes than the frame or than any block may, or stores more.
-/
structure Segment where
  contentSize : Nat
  sizeCode : Fin 4
  /-- The bit of the descriptor that has no meaning. -/
  unusedBit : Bool
  /-- What the blocks before the last one stand for. -/
  front : List Chunk
  last : Chunk
  whole : Chunk.total (front ++ [last]) = contentSize
  based : fieldBase sizeCode ≤ contentSize
  announced : contentSize - fieldBase sizeCode < 256 ^ fieldWidth sizeCode
  small : contentSize ≤ 64 * 1024 * 1024
  bounded : ∀ chunk ∈ front ++ [last],
    max chunk.size chunk.stored.length ≤ min contentSize (128 * 1024)

namespace Segment

/-- What the segment holds. -/
def content (segment : Segment) : List UInt8 :=
  Chunk.content (segment.front ++ [segment.last])

def descriptor (segment : Segment) : UInt8 :=
  .ofNat (64 * segment.sizeCode + 32 + 16 * segment.unusedBit.toNat)

/-- The magic number, the descriptor and the announced size. -/
def head (segment : Segment) : List UInt8 :=
  [0x28, 0xb5, 0x2f, 0xfd, segment.descriptor] ++
    littleEndianBytes (fieldWidth segment.sizeCode)
      (segment.contentSize - fieldBase segment.sizeCode)

/-- The segment as it is written. -/
def bytes (segment : Segment) : List UInt8 :=
  segment.head ++ writtenBlocks segment.front segment.last

@[simp] theorem length_content (segment : Segment) :
    segment.content.length = segment.contentSize := by
  rw [content, Chunk.length_content, segment.whole]

end Segment

end RecordCodec.Frame
