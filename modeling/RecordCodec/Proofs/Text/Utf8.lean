import RecordCodec.Proofs.Bytes.Buffer
import RecordCodec.Text.Character
import RecordCodec.Text.Utf8

/-!
# Bytes of texts

A text is read back from its own bytes, and a text that is read from bytes has
no other ones.  A zero byte stands for nothing but the zero character.
-/

namespace RecordCodec.Utf8

theorem decode?_eq_some_iff {bytes : Buffer} {text : String} :
    decode? bytes = some text ↔ text.toUTF8 = bytes := by
  unfold decode? String.fromUTF8?
  constructor
  · intro decoded
    split at decoded
    · cases decoded
      rfl
    · cases decoded
  · rintro rfl
    exact dif_pos text.isValidUTF8

theorem eq_zero_of_mem_utf8EncodeChar {character : Char}
    (zero : 0 ∈ String.utf8EncodeChar character) : character = '\x00' := by
  unfold String.utf8EncodeChar at zero
  have lead {value : Nat} (low : 0 < value) (high : value < 256) :
      (0 : UInt8) ≠ UInt8.ofNat value := by
    intro same
    have numbers := congrArg UInt8.toNat same
    rw [UInt8.toNat_ofNat', Nat.mod_eq_of_lt high] at numbers
    exact absurd numbers (by simpa using Nat.ne_of_lt low)
  simp only at zero
  split at zero
  · rename_i ascii
    by_cases nothing : character.val.toNat = 0
    · exact Char.ext (UInt32.toNat_inj.mp nothing)
    · exact absurd (List.mem_singleton.mp zero) (lead (by omega) (by omega))
  · exfalso
    split at zero
    · simp only [List.mem_cons, List.not_mem_nil, or_false] at zero
      rcases zero with zero | zero
      all_goals exact lead (by omega) (by omega) zero
    · split at zero
      · simp only [List.mem_cons, List.not_mem_nil, or_false] at zero
        rcases zero with zero | zero | zero
        all_goals exact lead (by omega) (by omega) zero
      · simp only [List.mem_cons, List.not_mem_nil, or_false] at zero
        rcases zero with zero | zero | zero | zero
        all_goals exact lead (by omega) (by omega) zero

theorem toUTF8_eq_flatMap (text : String) :
    text.toUTF8.data.toList = text.toList.flatMap String.utf8EncodeChar := by
  rw [String.toUTF8_eq_toByteArray, ← String.utf8Encode_toList]
  simp [List.utf8Encode]

/-- Only the zero character puts a zero byte into a text. -/
theorem zero_mem_of_zero_mem_toUTF8 {text : String} (zero : 0 ∈ text.toUTF8.data.toList) :
    '\x00' ∈ text.toList := by
  rw [toUTF8_eq_flatMap, List.mem_flatMap] at zero
  obtain ⟨character, member, zero⟩ := zero
  rwa [← eq_zero_of_mem_utf8EncodeChar zero]

theorem utf8EncodeChar_of_ascii {character : Char} (ascii : character.toNat < 128) :
    String.utf8EncodeChar character = [UInt8.ofNat character.toNat] :=
  if_pos (Nat.le_of_lt_succ ascii)

/-- The first byte of a character tells whether it is one of ASCII. -/
theorem exists_utf8EncodeChar_eq_cons (character : Char) :
    ∃ byte rest, String.utf8EncodeChar character = byte :: rest ∧
      (128 ≤ character.toNat → 128 ≤ byte.toNat) := by
  have lead {value : Nat} {others : List UInt8} (low : 128 ≤ value) (high : value < 256) :
      ∃ byte rest, UInt8.ofNat value :: others = byte :: rest ∧
        (128 ≤ character.toNat → 128 ≤ byte.toNat) :=
    ⟨_, _, rfl, fun _ => by rwa [UInt8.toNat_ofNat', Nat.mod_eq_of_lt high]⟩
  rcases Nat.lt_or_ge character.toNat 128 with ascii | large
  · exact ⟨_, _, utf8EncodeChar_of_ascii ascii, fun large => absurd ascii (Nat.not_lt.mpr large)⟩
  · have several : ¬character.val.toNat ≤ 127 := Nat.not_le.mpr large
    unfold String.utf8EncodeChar
    simp only [if_neg several]
    split
    · exact lead (by omega) (by omega)
    · split
      · exact lead (by omega) (by omega)
      · exact lead (by omega) (by omega)

theorem length_flatMap_utf8EncodeChar (characters : List Char) :
    (characters.flatMap String.utf8EncodeChar).length = Text.byteLength characters := by
  induction characters with
  | nil => rfl
  | cons character rest ih =>
      rw [List.flatMap_cons, List.length_append, String.length_utf8EncodeChar, ih]
      rfl

theorem toNat_charOfNat {value : Nat} (small : value < 256) : (Char.ofNat value).toNat = value := by
  have valid : value.isValidChar := .inl (by omega)
  rw [Char.ofNat, dif_pos valid]
  rfl

theorem toUTF8_singleton {value : Nat} (ascii : value < 128) :
    (String.singleton (Char.ofNat value)).toUTF8.data.toList = [UInt8.ofNat value] := by
  have number : (Char.ofNat value).toNat = value := toNat_charOfNat (by omega)
  rw [toUTF8_eq_flatMap, String.toList_singleton, List.flatMap_singleton,
    utf8EncodeChar_of_ascii (by omega), number]

/-- A text of one byte is a single ASCII character. -/
theorem eq_singleton_of_toUTF8_eq {text : String} {byte : UInt8}
    (single : text.toUTF8.data.toList = [byte]) :
    byte.toNat < 128 ∧ text = String.singleton (Char.ofNat byte.toNat) := by
  rw [toUTF8_eq_flatMap] at single
  cases characters : text.toList with
  | nil => simp [characters] at single
  | cons character rest =>
      have lengths := congrArg List.length single
      have size := character.utf8Size_pos
      simp only [characters, List.flatMap_cons, List.length_append, List.length_singleton,
        String.length_utf8EncodeChar] at lengths
      have ascii : character.val.toNat ≤ 127 :=
        UInt32.le_iff_toNat_le.mp (Char.utf8Size_eq_one_iff.mp (by omega))
      have alone : rest = [] := by
        cases rest with
        | nil => rfl
        | cons next others =>
            have more := next.utf8Size_pos
            simp only [List.flatMap_cons, List.length_append, String.length_utf8EncodeChar]
              at lengths
            omega
      have encoded : UInt8.ofNat character.toNat = byte := by
        simpa [characters, alone, utf8EncodeChar_of_ascii (Nat.lt_succ_of_le ascii)] using single
      have value : byte.toNat = character.toNat := by
        rw [← encoded, UInt8.toNat_ofNat', Nat.mod_eq_of_lt]
        exact Nat.lt_of_le_of_lt ascii (by decide)
      refine ⟨by rw [value]; exact Nat.lt_succ_of_le ascii, ?_⟩
      rw [value, Char.ofNat_toNat, ← String.toList_inj, characters, alone, String.toList_singleton]

end RecordCodec.Utf8
