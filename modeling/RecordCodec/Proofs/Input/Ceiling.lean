import Mathlib.Tactic.SplitIfs
import RecordCodec.Input.Compression
import RecordCodec.Proofs.Bytes.Buffer
import RecordCodec.Proofs.Input.Segment
import RecordCodec.Proofs.Success

/-!
# Inputs as they are unpacked

An input without the magic number is left alone.  Any other is what its stream brings, in pieces of
whatever sizes: all of it if that is within the ceiling, and nothing at all otherwise.  The ceiling
is tested before each piece, so that a stream is left at the first piece that passes it, whatever
would come behind.
-/

namespace RecordCodec

namespace Decompressor

/-- Reads take a stream from one place to another, and bring bytes in pieces none of which is
empty. -/
inductive Brings (zstd : Decompressor) : zstd.Stream → List UInt8 → zstd.Stream → Prop
  | nothing (stream : zstd.Stream) : Brings zstd stream [] stream
  | piece {stream next last : zstd.Stream} {behind : List UInt8}
      {piece : { piece : Buffer // piece.size ≤ Compression.pieceLimit }} :
      zstd.read? Compression.pieceLimit stream = some (piece, next) → piece.1.size ≠ 0 →
        Brings zstd next behind last → Brings zstd stream (piece.1.toList ++ behind) last

/-- A read brings no bytes. -/
def Ends (zstd : Decompressor) (stream : zstd.Stream) : Prop :=
  ∃ piece rest, zstd.read? Compression.pieceLimit stream = some (piece, rest) ∧ piece.1.size = 0

/-- The stream brings the content, and then no more. -/
def Delivers (zstd : Decompressor) (stream : zstd.Stream) (content : List UInt8) : Prop :=
  ∃ last, zstd.Brings stream content last ∧ zstd.Ends last

end Decompressor

namespace Compression

open RecordCodec.Frame

variable {zstd : Decompressor} {stream last : zstd.Stream} {behind : List UInt8}

theorem readAll_of_none (broken : zstd.read? pieceLimit stream = .none) (content : Buffer) :
    readAll zstd content stream = .error .io := by
  rw [readAll, broken]

theorem readAll_of_ends (ends : zstd.Ends stream) (content : Buffer) :
    readAll zstd content stream = .ok content := by
  obtain ⟨piece, rest, read, empty⟩ := ends
  rw [readAll, read]
  exact if_pos empty

theorem readAll_of_piece {next : zstd.Stream}
    {piece : { piece : Buffer // piece.size ≤ pieceLimit }}
    (read : zstd.read? pieceLimit stream = some (piece, next)) (some : piece.1.size ≠ 0)
    (content : Buffer) :
    readAll zstd content stream =
      if limit < content.size + piece.1.size then .error (.decompressedTooLarge limit)
      else readAll zstd (content ++ piece.1) next := by
  rw [readAll, read]
  exact if_neg some

/-- What is brought is put behind the content exactly if the ceiling bears all of it. -/
theorem readAll_of_brings (brings : zstd.Brings stream behind last) {content : Buffer}
    (within : content.size ≤ limit) :
    readAll zstd content stream =
      if limit < content.size + behind.length then .error (.decompressedTooLarge limit)
      else readAll zstd (.ofList (content.toList ++ behind)) last := by
  induction brings generalizing content with
  | nothing stream =>
      rw [List.length_nil, Nat.add_zero, if_neg (Nat.not_lt.mpr within), List.append_nil,
        Buffer.ofList_toList]
  | @piece stream next last behind piece read some _ ih =>
      have length : (piece.1.toList ++ behind).length = piece.1.size + behind.length := by
        rw [List.length_append, Buffer.length_toList]
      rw [readAll_of_piece read some, length, ← Nat.add_assoc, ← List.append_assoc]
      by_cases beyond : limit < content.size + piece.1.size
      · rw [if_pos beyond, if_pos (by omega)]
      · have size : (content ++ piece.1).size = content.size + piece.1.size :=
          ByteArray.size_append
        have inside : (content ++ piece.1).size ≤ limit := by omega
        rw [if_neg beyond, ih inside, size, Buffer.toList_append]

/-- Every stream ends or breaks within the ceiling, or passes it. -/
theorem exists_brings (content : Buffer) (stream : zstd.Stream) :
    ∃ behind last, zstd.Brings stream behind last ∧
      (zstd.read? pieceLimit last = .none ∨ zstd.Ends last ∨
        limit < content.size + behind.length) := by
  fun_induction readAll zstd content stream with
  | case1 content stream broken => exact ⟨[], stream, .nothing stream, .inl broken⟩
  | case2 content stream piece rest read empty =>
      exact ⟨[], stream, .nothing stream, .inr (.inl ⟨piece, rest, read, empty⟩)⟩
  | case3 content stream piece rest read some beyond =>
      refine ⟨_, rest, .piece read some (.nothing rest), .inr (.inr ?_)⟩
      rwa [List.append_nil, Buffer.length_toList]
  | case4 content stream piece rest read some _ ih =>
      obtain ⟨behind, last, brings, stops⟩ := ih
      refine ⟨_, last, .piece read some brings, ?_⟩
      rwa [List.length_append, Buffer.length_toList, ← Nat.add_assoc, ← ByteArray.size_append]

theorem unpack_of_not_magic {raw : Buffer} (bare : ¬magic <+: raw.toList) :
    unpack zstd raw = .ok (.none, raw) := by
  have begins : (raw.slice 0 4).toList ≠ magic := by
    rw [Buffer.toList_slice]
    exact fun same => bare (List.prefix_iff_eq_take.mpr same.symm)
  rw [unpack, if_neg begins]
  rfl

theorem unpack_of_magic {raw : Buffer} (packed : magic <+: raw.toList) :
    unpack zstd raw = match zstd.open? raw with
      | .none => .error .io
      | some stream => Prod.mk .zstd <$> readAll zstd ByteArray.empty stream := by
  have begins : (raw.slice 0 4).toList = magic := by
    rw [Buffer.toList_slice]
    exact (List.prefix_iff_eq_take.mp packed).symm
  rw [unpack, if_pos begins]
  rfl

/-- What a stream brings is unpacked if the ceiling bears it, and is too large otherwise. -/
theorem unpack_of_brings {raw : Buffer} (packed : magic <+: raw.toList)
    (opened : zstd.open? raw = some stream) (brings : zstd.Brings stream behind last) :
    unpack zstd raw =
      if limit < behind.length then .error (.decompressedTooLarge limit)
      else Prod.mk .zstd <$> readAll zstd (.ofList behind) last := by
  have whole := @readAll_of_brings _ _ _ _ brings ByteArray.empty (Nat.zero_le _)
  have length : ByteArray.empty.size + behind.length = behind.length := Nat.zero_add _
  have empty : Buffer.toList ByteArray.empty = [] := rfl
  rw [length, empty, List.nil_append] at whole
  rw [unpack_of_magic packed, opened]
  simp only [whole]
  split_ifs <;> rfl

/-- What becomes of an input with the magic number, by what its stream brings. -/
inductive Unpacks (zstd : Decompressor) (raw : Buffer) :
    Except Error (Compression × Buffer) → Prop
  | unopened : zstd.open? raw = .none → Unpacks zstd raw (.error .io)
  | whole {stream : zstd.Stream} {content : List UInt8} : zstd.open? raw = some stream →
      zstd.Delivers stream content → content.length ≤ limit →
        Unpacks zstd raw (.ok (.zstd, .ofList content))
  | broken {stream last : zstd.Stream} {front : List UInt8} : zstd.open? raw = some stream →
      zstd.Brings stream front last → front.length ≤ limit →
        zstd.read? pieceLimit last = .none → Unpacks zstd raw (.error .io)
  | tooLarge {stream last : zstd.Stream} {front : List UInt8} : zstd.open? raw = some stream →
      zstd.Brings stream front last → limit < front.length →
        Unpacks zstd raw (.error (.decompressedTooLarge limit))

theorem unpacks_unpack {raw : Buffer} (packed : magic <+: raw.toList) :
    Unpacks zstd raw (unpack zstd raw) := by
  cases opened : zstd.open? raw with
  | none =>
      rw [unpack_of_magic packed, opened]
      exact .unopened opened
  | some stream =>
      obtain ⟨front, last, brings, stops⟩ := exists_brings ByteArray.empty stream
      rw [unpack_of_brings packed opened brings]
      by_cases beyond : limit < front.length
      · rw [if_pos beyond]
        exact .tooLarge opened brings beyond
      · rw [if_neg beyond]
        have within := Nat.not_lt.mp beyond
        rcases stops with broken | ends | more
        · rw [readAll_of_none broken]
          exact .broken opened brings within broken
        · rw [readAll_of_ends ends]
          exact .whole opened ⟨last, brings, ends⟩ within
        · exact absurd (by simpa using more) beyond

theorem Unpacks.unpack_eq {raw : Buffer} {result : Except Error (Compression × Buffer)}
    (unpacks : Unpacks zstd raw result) (packed : magic <+: raw.toList) :
    unpack zstd raw = result := by
  cases unpacks with
  | unopened unopened => rw [unpack_of_magic packed, unopened]
  | whole opened delivers within =>
      obtain ⟨last, brings, ends⟩ := delivers
      rw [unpack_of_brings packed opened brings, if_neg (Nat.not_lt.mpr within),
        readAll_of_ends ends]
      rfl
  | broken opened brings within broken =>
      rw [unpack_of_brings packed opened brings, if_neg (Nat.not_lt.mpr within),
        readAll_of_none broken]
      rfl
  | tooLarge opened brings beyond =>
      rw [unpack_of_brings packed opened brings, if_pos beyond]

theorem unpack_eq_iff {raw : Buffer} (packed : magic <+: raw.toList)
    (result : Except Error (Compression × Buffer)) :
    unpack zstd raw = result ↔ Unpacks zstd raw result :=
  ⟨fun same => same ▸ unpacks_unpack packed, fun unpacks => unpacks.unpack_eq packed⟩

theorem magic_segments {segments : List Segment} (some : segments ≠ []) :
    magic <+: segments.flatMap Segment.bytes := by
  obtain ⟨segment, others, rfl⟩ := List.exists_cons_of_ne_nil some
  exact ⟨_, rfl⟩

/-- Segments are unpacked to their contents in order, in whatever pieces the library brings them,
exactly if the ceiling bears them together. -/
theorem unpack_segments {segments : List Segment} (some : segments ≠ [])
    (opened : zstd.open? (.ofList (segments.flatMap Segment.bytes)) = .some stream)
    (delivers : zstd.Delivers stream (segments.flatMap Segment.content)) :
    unpack zstd (.ofList (segments.flatMap Segment.bytes)) =
      if (segments.flatMap Segment.content).length ≤ limit then
        .ok (.zstd, .ofList (segments.flatMap Segment.content))
      else .error (.decompressedTooLarge limit) := by
  have packed : magic <+: (Buffer.ofList (segments.flatMap Segment.bytes)).toList := by
    rw [Buffer.toList_ofList]
    exact magic_segments some
  rw [unpack_eq_iff packed]
  split_ifs with within
  · exact .whole opened delivers within
  · obtain ⟨last, brings, -⟩ := delivers
    exact .tooLarge opened brings (Nat.not_le.mp within)

theorem unpack_eq_ok_zstd_iff {raw content : Buffer} :
    unpack zstd raw = .ok (.zstd, content) ↔
      magic <+: raw.toList ∧ content.size ≤ limit ∧
        ∃ stream, zstd.open? raw = some stream ∧ zstd.Delivers stream content.toList := by
  by_cases packed : magic <+: raw.toList
  · rw [unpack_eq_iff packed]
    constructor
    · intro unpacks
      cases unpacks with
      | whole opened delivers within =>
          rw [Buffer.size_ofList, Buffer.toList_ofList]
          exact ⟨packed, within, _, opened, delivers⟩
    · rintro ⟨-, within, stream, opened, delivers⟩
      have whole : Unpacks zstd raw (.ok (.zstd, .ofList content.toList)) :=
        .whole opened delivers within
      rwa [Buffer.ofList_toList] at whole
  · rw [unpack_of_not_magic packed]
    exact ⟨nofun, fun unpacked => absurd unpacked.1 packed⟩

/-- Inputs are unpacked transparently, whatever library reads their frames.  What has no magic
number is left alone, and segments in a row are unpacked to their contents in order, exactly if
these are within the ceiling together.  Nothing else than the whole of what a stream brings is ever
the result, and nothing beyond the ceiling, be the input made of segments or not. -/
theorem unpack_settled {zstd : Decompressor} :
    (∀ raw : Buffer, ¬magic <+: raw.toList → unpack zstd raw = .ok (.none, raw)) ∧
    (∀ (segments : List Segment) (stream : zstd.Stream), segments ≠ [] →
      zstd.open? (.ofList (segments.flatMap Segment.bytes)) = some stream →
        zstd.Delivers stream (segments.flatMap Segment.content) →
          unpack zstd (.ofList (segments.flatMap Segment.bytes)) =
            if (segments.flatMap Segment.content).length ≤ 64 * 1024 * 1024 then
              .ok (.zstd, .ofList (segments.flatMap Segment.content))
            else .error (.decompressedTooLarge (64 * 1024 * 1024))) ∧
    (∀ raw content, unpack zstd raw = .ok (.zstd, content) ↔
      magic <+: raw.toList ∧ content.size ≤ 64 * 1024 * 1024 ∧
        ∃ stream, zstd.open? raw = some stream ∧ zstd.Delivers stream content.toList) ∧
    ∀ raw result, magic <+: raw.toList →
      (unpack zstd raw = result ↔ Unpacks zstd raw result) :=
  ⟨fun _ bare => unpack_of_not_magic bare,
    fun _ _ some opened delivers => unpack_segments some opened delivers,
    fun _ _ => unpack_eq_ok_zstd_iff, fun _ result packed => unpack_eq_iff packed result⟩

end Compression

namespace Sample

open RecordCodec.Frame

/-- A library that knows these segments, and brings what they hold. -/
def segmentReader (segments : List Segment) : Decompressor where
  Stream := List UInt8
  open? raw :=
    if raw.toList = segments.flatMap Segment.bytes then some (segments.flatMap Segment.content)
    else none
  read? capacity left :=
    some (⟨.ofList (left.take capacity), by rw [Buffer.size_ofList]; exact List.length_take_le ..⟩,
      left.drop capacity)

theorem segmentReader_open? (segments : List Segment) :
    (segmentReader segments).open? (.ofList (segments.flatMap Segment.bytes)) =
      some (segments.flatMap Segment.content) :=
  if_pos (Buffer.toList_ofList _)

theorem segmentReader_delivers (segments : List Segment) (left : List UInt8) :
    (segmentReader segments).Delivers left left := by
  by_cases empty : left = []
  · subst empty
    exact ⟨_, .nothing _, _, _, rfl, rfl⟩
  · have positive : 0 < left.length := List.length_pos_iff.mpr empty
    have capacity : 0 < Compression.pieceLimit := by decide
    have piece : (Buffer.ofList (left.take Compression.pieceLimit)).size ≠ 0 := by
      rw [Buffer.size_ofList, List.length_take]
      omega
    obtain ⟨last, brings, ends⟩ :=
      segmentReader_delivers segments (left.drop Compression.pieceLimit)
    have all : (segmentReader segments).Brings left _ last := .piece rfl piece brings
    rw [Buffer.toList_ofList, List.take_append_drop] at all
    exact ⟨last, all, ends⟩
termination_by left.length
decreasing_by
  rw [List.length_drop]
  exact Nat.sub_lt positive (by decide)

/-- Three bytes and a run of four. -/
def mixedSegment : Segment where
  contentSize := 7
  sizeCode := 0
  unusedBit := false
  front := [.plain [1, 2, 3]]
  last := .repeated 7 4
  whole := rfl
  based := by decide
  announced := by decide
  small := by decide
  bounded := by decide

/-- A run that is as long as a block may be. -/
def longSegment : Segment where
  contentSize := 128 * 1024
  sizeCode := 2
  unusedBit := true
  front := []
  last := .repeated 9 (128 * 1024)
  whole := rfl
  based := by decide
  announced := by decide
  small := by decide
  bounded := by decide

end Sample

namespace Compression

open RecordCodec.Frame Sample

/-- Segments of which the last one reaches the ceiling, and of which it passes the ceiling. -/
theorem unpack_runs :
    unpack (segmentReader [mixedSegment])
        (.ofList [0x28, 0xb5, 0x2f, 0xfd, 0x20, 7, 0x18, 0, 0, 1, 2, 3, 0x23, 0, 0, 7]) =
        .ok (.zstd, .ofList [1, 2, 3, 7, 7, 7, 7]) ∧
      unpack (segmentReader (List.replicate 512 longSegment))
          (.ofList ((List.replicate 512 longSegment).flatMap Segment.bytes)) =
        .ok (.zstd, .ofList ((List.replicate 512 longSegment).flatMap Segment.content)) ∧
      unpack (segmentReader (List.replicate 513 longSegment))
          (.ofList ((List.replicate 513 longSegment).flatMap Segment.bytes)) =
        .error (.decompressedTooLarge 67108864) := by
  have length : ∀ count, ((List.replicate count longSegment).flatMap Segment.content).length =
      count * (128 * 1024) := by
    intro count
    rw [List.length_flatMap, List.map_replicate, Segment.length_content, List.sum_replicate_nat]
    rfl
  have mixed := unpack_settled.2.1 [mixedSegment] _ nofun (segmentReader_open? _)
    (segmentReader_delivers _ _)
  have within := unpack_settled.2.1 (List.replicate 512 longSegment) _ nofun
    (segmentReader_open? _) (segmentReader_delivers _ _)
  have beyond := unpack_settled.2.1 (List.replicate 513 longSegment) _ nofun
    (segmentReader_open? _) (segmentReader_delivers _ _)
  rw [length, if_pos (by decide)] at within
  rw [length, if_neg (by decide)] at beyond
  exact ⟨mixed, within, beyond⟩

end Compression

end RecordCodec
