import RecordCodec.Proofs.Bytes.Confined

/-!
# Words at an offset

A word is written as its low bytes and read as the number that its bytes spell, the most
significant one first, so each of the two undoes the other.  Where the bytes do not all lie in the
buffer, neither is done.
-/

namespace RecordCodec

namespace Buffer

variable {buffer : Buffer} {offset width : Nat}

/-- Writing what lies there already changes nothing. -/
theorem overwrite_of_holds {bytes : List UInt8} (holds : buffer.Holds offset bytes) :
    buffer.overwrite offset (ofList bytes) = buffer := by
  obtain ⟨before, after, whole, rfl⟩ := holds
  apply ext
  rw [toList_overwrite, whole, ← List.drop_drop, List.append_assoc before, List.take_left,
    List.drop_left, List.drop_left, List.append_assoc]

theorem numberAt_overwrite_bytes (room : offset + width ≤ buffer.size) (value : UInt64) :
    (buffer.overwrite offset (ofList (BigEndian.bytes width value))).numberAt offset width =
      value.toNat % 2 ^ (8 * width) := by
  have inside : offset + (BigEndian.bytes width value).length ≤ buffer.size := by
    rwa [BigEndian.length_bytes]
  have spelled := (holds_overwrite inside).numberAt_eq
  rw [BigEndian.length_bytes, BigEndian.number_bytes] at spelled
  rw [spelled, Nat.pow_mul]

theorem writeWord_of_room (room : offset + width ≤ buffer.size) (value : UInt64) :
    Writing.writeWord offset width value buffer =
      .ok () (buffer.overwrite offset (ofList (BigEndian.bytes width value))) :=
  Writing.Puts.writeWord width value buffer (by rwa [BigEndian.length_bytes])

theorem writeWord_eq_error (short : buffer.size < offset + width) (value : UInt64) :
    Writing.writeWord offset width value buffer =
      .error (.outOfBounds offset width buffer.size) buffer := by
  have required : Buffer.require buffer.size offset width =
      .error (.outOfBounds offset width buffer.size) := if_neg (Nat.not_le.mpr short)
  have size : (ofList (BigEndian.bytes width value)).size = width := by simp
  change EStateM.bind (Writing.require offset _) _ buffer = _
  simp only [EStateM.bind, Writing.require, size, required, Writing.ofExcept]

/-- Inside the buffer a word of any width is read as the number that the bytes spell, as far as a
word holds it.  Up to eight bytes, writing a word changes these bytes only and lets the word be read
back as far as the width holds it, and writing what has been read changes nothing.  Across the end
of the buffer reading and writing fail, and nothing changes. -/
theorem words_exact (buffer : Buffer) (offset width : Nat) :
    (offset + width ≤ buffer.size →
      (∃ word, buffer.readWord offset width = .ok word ∧
        word.toNat = buffer.numberAt offset width % 2 ^ 64) ∧
      (width ≤ 8 →
        (∀ value : UInt64, ∃ after,
          Writing.writeWord offset width value buffer = .ok () after ∧
            buffer.SameOutside after offset (offset + width) ∧
            ∃ word, after.readWord offset width = .ok word ∧
              word.toNat = value.toNat % 2 ^ (8 * width)) ∧
        ∀ word, buffer.readWord offset width = .ok word →
          Writing.writeWord offset width word buffer = .ok () buffer)) ∧
    (buffer.size < offset + width →
      buffer.readWord offset width = .error (.outOfBounds offset width buffer.size) ∧
      ∀ value, Writing.writeWord offset width value buffer =
        .error (.outOfBounds offset width buffer.size) buffer) := by
  refine ⟨fun room => ⟨?_, fun atMostEight => ⟨fun value => ?_, fun word read => ?_⟩⟩, ?_⟩
  · exact ⟨_, readWord_of_room room, UInt64.toNat_ofNat'⟩
  · have size : (ofList (BigEndian.bytes width value)).size = width := by simp
    have same := sameOutside_overwrite (by rwa [size] : offset + _ ≤ buffer.size)
    rw [size] at same
    have roomAfter := room
    rw [← same.size] at roomAfter
    have small := numberAt_lt roomAfter atMostEight
    refine ⟨_, writeWord_of_room room value, same, _, readWord_of_room roomAfter, ?_⟩
    rw [UInt64.toNat_ofNat', Nat.mod_eq_of_lt small, numberAt_overwrite_bytes room]
  · rw [writeWord_of_room room, overwrite_of_holds (holds_bytes_of_readWord atMostEight read)]
  · exact fun short => ⟨readWord_eq_error short, writeWord_eq_error short⟩

/-- Two bytes at the end of three, and no third one behind them. -/
theorem sample_words :
    (∃ after, Writing.writeWord 1 2 0x12345 (ofList [9, 9, 9]) = .ok () after ∧
      (ofList [9, 9, 9]).SameOutside after 1 3 ∧
      ∃ word, after.readWord 1 2 = .ok word ∧ word.toNat = 0x2345) ∧
    (ofList [9, 9, 9]).readWord 1 3 = .error (.outOfBounds 1 3 3) := by
  have room : 1 + 2 ≤ (ofList [9, 9, 9]).size := by decide
  have short : (ofList [9, 9, 9]).size < 1 + 3 := by decide
  obtain ⟨written, -⟩ := ((words_exact _ 1 2).1 room).2 (by decide)
  exact ⟨written 0x12345, ((words_exact _ 1 3).2 short).1⟩

end Buffer

end RecordCodec
