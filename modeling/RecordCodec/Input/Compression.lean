import RecordCodec.Bytes.Buffer

/-!
# Input files

An input is taken as it is unless it begins with the magic number of a
compressed frame.  In that case its content is unpacked, up to a ceiling.  How
frames are read is left to a library; the content is taken from it piece by
piece, until a read brings nothing.
-/

namespace RecordCodec

/-- A library that reads compressed frames: a stream is opened on an input, and
each read fills a buffer of some capacity from it as far as it goes. -/
structure Decompressor where
  Stream : Type
  open? : Buffer → Option Stream
  read? : (capacity : Nat) → Stream → Option ({ piece : Buffer // piece.size ≤ capacity } × Stream)

/-- How an input file is packed. -/
inductive Compression
  | none
  | zstd
deriving DecidableEq

namespace Compression

def label : Compression → String
  | .none => "none"
  | .zstd => "zstd"

/-- The greatest number of bytes to which an input may be unpacked. -/
def limit : Nat := 64 * 1024 * 1024

def magic : List UInt8 := [0x28, 0xb5, 0x2f, 0xfd]

/-- The number of bytes that are asked for at once. -/
def pieceLimit : Nat := 8192

/-- Reads a stream to its end, behind the content that has been read so far. -/
def readAll (zstd : Decompressor) (content : Buffer) (stream : zstd.Stream) :
    Except Error Buffer :=
  match zstd.read? pieceLimit stream with
  | .none => .error .io
  | some (piece, rest) =>
      if piece.1.size = 0 then .ok content
      else if limit < content.size + piece.1.size then .error (.decompressedTooLarge limit)
      else readAll zstd (content ++ piece.1) rest
termination_by limit - content.size
decreasing_by
  rw [ByteArray.size_append]
  omega

/-- The compression of an input, with the input unpacked. -/
def unpack (zstd : Decompressor) (raw : Buffer) : Except Error (Compression × Buffer) :=
  if (raw.slice 0 4).toList = magic then
    match zstd.open? raw with
    | .none => .error .io
    | some stream => do return (.zstd, ← readAll zstd ByteArray.empty stream)
  else return (.none, raw)

end Compression

end RecordCodec
