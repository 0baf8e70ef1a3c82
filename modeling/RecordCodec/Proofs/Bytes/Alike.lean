import RecordCodec.Proofs.Bytes.Confined

/-!
# Buffers with a run in common

`Buffer.Alike` says that the same run of bytes lies in two buffers, possibly at
different offsets.  Whatever is read inside such a run is the same in both, and
buffers that differ only outside a run are alike there.
-/

namespace RecordCodec.Buffer

/-- The same `length` bytes lie in the first buffer from `start` on and in the
second from `other` on. -/
def Alike (first : Buffer) (start : Nat) (second : Buffer) (other length : Nat) : Prop :=
  ∃ bytes : List UInt8, bytes.length = length ∧ first.Holds start bytes ∧
    second.Holds other bytes

/-- A part of a run lies where the run does. -/
theorem Holds.part {buffer : Buffer} {offset skipped count : Nat} {bytes : List UInt8}
    (holds : buffer.Holds offset bytes) (inside : skipped + count ≤ bytes.length) :
    buffer.Holds (offset + skipped) ((bytes.drop skipped).take count) := by
  have split : bytes.take skipped ++ ((bytes.drop skipped).take count ++
      (bytes.drop skipped).drop count) = bytes := by
    rw [List.take_append_drop, List.take_append_drop]
  have behind := (split ▸ holds).right
  rw [List.length_take, Nat.min_eq_left (by omega)] at behind
  exact behind.left

theorem alike_of_slice_eq {first second : Buffer} {start other length : Nat}
    (firstRoom : start + length ≤ first.size) (secondRoom : other + length ≤ second.size)
    (same : second.slice other length = first.slice start length) :
    first.Alike start second other length := by
  refine ⟨(first.slice start length).toList, size_slice firstRoom, holds_slice firstRoom, ?_⟩
  rw [← same]
  exact holds_slice secondRoom

/-- Buffers that differ only in a range are alike on what lies beside it. -/
theorem SameOutside.alike {before after : Buffer} {start stop offset length : Nat}
    (same : before.SameOutside after start stop) (room : offset + length ≤ before.size)
    (beside : offset + length ≤ start ∨ stop ≤ offset) :
    before.Alike offset after offset length := by
  have afterRoom : offset + length ≤ after.size := by
    rw [same.size]
    exact room
  refine alike_of_slice_eq room afterRoom (ext (List.ext_getElem? fun index => ?_))
  rw [toList_slice, toList_slice, List.getElem?_take, List.getElem?_take]
  by_cases inside : index < length
  · rw [if_pos inside, if_pos inside, List.getElem?_drop, List.getElem?_drop]
    exact same.bytes (offset + index) (by omega)
  · rw [if_neg inside, if_neg inside]

namespace Alike

variable {first second : Buffer} {start other length : Nat}

theorem part (alike : first.Alike start second other length) (skipped count : Nat)
    (inside : skipped + count ≤ length) :
    first.Alike (start + skipped) second (other + skipped) count := by
  obtain ⟨bytes, rfl, firstHolds, secondHolds⟩ := alike
  refine ⟨(bytes.drop skipped).take count, ?_, firstHolds.part inside, secondHolds.part inside⟩
  rw [List.length_take, List.length_drop]
  omega

/-- The front of a run that both buffers have. -/
theorem front (alike : first.Alike start second other length) {count : Nat}
    (inside : count ≤ length) : first.Alike start second other count := by
  have skippingNone : 0 + count ≤ length := by omega
  exact alike.part _ _ skippingNone

theorem room (alike : first.Alike start second other length) : other + length ≤ second.size := by
  obtain ⟨bytes, rfl, -, secondHolds⟩ := alike
  exact secondHolds.room

theorem slice_eq (alike : first.Alike start second other length) :
    second.slice other length = first.slice start length := by
  obtain ⟨bytes, rfl, firstHolds, secondHolds⟩ := alike
  exact ext (secondHolds.toList_slice_eq.trans firstHolds.toList_slice_eq.symm)

theorem read_eq (alike : first.Alike start second other length) :
    second.read other length = first.read start length := by
  obtain ⟨bytes, rfl, firstHolds, secondHolds⟩ := alike
  rw [secondHolds.read_eq, firstHolds.read_eq]

theorem readWord_eq (alike : first.Alike start second other length) :
    second.readWord other length = first.readWord start length := by
  rw [readWord, readWord, alike.read_eq]

end Alike

end RecordCodec.Buffer
