import RecordCodec.Proofs.Codec.Image
import RecordCodec.Proofs.Text.Utf8

/-!
# Texts in arrays of characters

The text in front of the first zero is read back from the bytes that are
written for it.  So is a text without the zero character, and so are the
numbers of bytes that are no text.
-/

namespace RecordCodec.TextField

theorem toList_beforeZero (bytes : Buffer) :
    (beforeZero bytes).toList = bytes.toList.takeWhile (· != 0) := by
  rw [beforeZero, Buffer.toList_extract, List.drop_zero]
  exact (List.prefix_iff_eq_take.mp (List.takeWhile_prefix _)).symm

theorem beforeZero_filled {run : List UInt8} (clean : 0 ∉ run) (fill : Nat) :
    beforeZero (Buffer.ofList (run ++ List.replicate fill 0)) = Buffer.ofList run := by
  apply Buffer.ext
  have kept : ∀ byte ∈ run, (byte != 0) = true := by
    intro byte member
    rw [bne_iff_ne]
    rintro rfl
    exact clean member
  rw [toList_beforeZero, Buffer.toList_ofList, Buffer.toList_ofList,
    List.takeWhile_append_of_pos kept]
  cases fill <;> simp [List.replicate_succ]

/-- A text whose bytes hold no zero is read back from its bytes and zeros behind them. -/
theorem ofBytes_filled {text : String} (clean : 0 ∉ text.toUTF8.data.toList) (fill : Nat) :
    ofBytes (Buffer.ofList (text.toUTF8.data.toList ++ List.replicate fill 0)) = .text text := by
  have decoded : Utf8.decode? (Buffer.ofList text.toUTF8.data.toList) = some text :=
    Utf8.decode?_eq_some_iff.mpr (Buffer.ofList_toList _).symm
  rw [ofBytes, beforeZero_filled clean, decoded]

/-- What bytes are read as: a text without zeros that is not longer, or their numbers. -/
theorem ofBytes_eq (bytes : Buffer) :
    (∃ text, ofBytes bytes = .text text ∧ text.utf8ByteSize ≤ bytes.size ∧
        0 ∉ text.toUTF8.data.toList) ∨
      ofBytes bytes = numbers bytes := by
  unfold ofBytes
  cases decoded : Utf8.decode? (beforeZero bytes) with
  | none => exact .inr rfl
  | some text =>
      have run : text.toUTF8.data.toList = bytes.toList.takeWhile (· != 0) := by
        rw [← toList_beforeZero, ← Utf8.decode?_eq_some_iff.mp decoded]
        rfl
      refine .inl ⟨text, rfl, ?_, ?_⟩
      · change text.toUTF8.data.toList.length ≤ bytes.toList.length
        rw [run]
        exact (List.takeWhile_sublist _).length_le
      · rw [run]
        intro zero
        simpa using List.all_eq_true.mp List.all_takeWhile 0 zero

end RecordCodec.TextField
