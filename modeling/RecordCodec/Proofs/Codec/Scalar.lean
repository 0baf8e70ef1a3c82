import RecordCodec.Codec.Decode
import RecordCodec.Proofs.Codec.Image
import RecordCodec.Proofs.Text.Utf8
import RecordCodec.Proofs.Value.Equality

/-!
# Scalars from their bytes

What is read from a word is admitted by the scalar, and it is read again from
its own bytes.  What is read from the bytes of a value means the same as the
value, unless it is a character that the bytes cannot tell from another.
-/

namespace RecordCodec

namespace Scalar

/-- The value of a word, a character as a text only if texts are wanted. -/
def fromWord (asText : Bool) (scalar : Scalar) (word : UInt64) : Value :=
  match scalar with
  | .char => if asText then charOfWord word else .unsigned word
  | scalar => scalar.ofWord word

theorem readScalar_eq (options : DecodeOptions) (buffer : Buffer) (scalar : Scalar) (offset : Nat) :
    readScalar options buffer scalar offset = (do
      return scalar.fromWord options.charsAsText (← buffer.readWord offset scalar.width)) := by
  cases scalar with
  | char =>
      cases asText : options.charsAsText <;>
        simp [readScalar, fromWord, asText, read, ofWord, width]
  | _ => rfl

section Integer

variable {width : Nat} {number : Int}

private theorem two_pow_eq (positive : 1 ≤ width) :
    (256 : Int) ^ width = 2 ^ (8 * width - 1) * 2 := by
  have exponent : 8 * width = 8 * width - 1 + 1 := by omega
  calc (256 : Int) ^ width = (2 ^ 8) ^ width := rfl
    _ = 2 ^ (8 * width) := (Int.pow_mul ..).symm
    _ = 2 ^ (8 * width - 1) * 2 := by rw [exponent, Int.pow_succ]; rfl

/-- The low bytes of an integer are those of its residue. -/
theorem toNat_word_bytes_ofInt (atMostEight : width ≤ 8) (number : Int) :
    ((BigEndian.word (BigEndian.bytes width (UInt64.ofInt number))).toNat : Int) =
      number % 256 ^ width := by
  have divides : (256 : Int) ^ width ∣ 2 ^ 64 := by
    have naturals := Int.natCast_dvd_natCast.mpr (Nat.pow_dvd_pow 256 atMostEight)
    simpa using naturals
  have whole : ((UInt64.ofInt number).toNat : Int) = number % 2 ^ 64 := by
    have least := Int.emod_nonneg number (show (2 : Int) ^ 64 ≠ 0 by decide)
    have greatest := Int.emod_lt_of_pos number (show (0 : Int) < 2 ^ 64 by decide)
    rw [UInt64.ofInt, UInt64.toNat_ofNat', Nat.mod_eq_of_lt (by omega), Int.toNat_of_nonneg least]
  rw [BigEndian.toNat_word_bytes atMostEight, Int.natCast_emod, whole, Int.natCast_pow]
  exact Int.emod_emod_of_dvd number divides

theorem signExtend_word_bytes (positive : 1 ≤ width) (atMostEight : width ≤ 8)
    (least : -2 ^ (8 * width - 1) ≤ number) (greatest : number < 2 ^ (8 * width - 1)) :
    signExtend width (BigEndian.word (BigEndian.bytes width (UInt64.ofInt number))) =
      Int64.ofInt number := by
  have double := two_pow_eq positive
  have residue : Int.bmod (number % 256 ^ width) (256 ^ width) = number := by
    rw [show (256 : Int) ^ width = ((256 ^ width : Nat) : Int) by simp, Int.emod_bmod]
    apply Int.bmod_eq_of_le_mul_two
    · rw [Int.natCast_pow]
      change -(256 : Int) ^ width ≤ _
      omega
    · rw [Int.natCast_pow]
      change _ < (256 : Int) ^ width
      omega
  rw [signExtend_eq positive atMostEight, toNat_word_bytes_ofInt atMostEight, residue]

private theorem two_pow_le (atMostEight : width ≤ 8) : (2 : Int) ^ (8 * width - 1) ≤ 2 ^ 63 := by
  have naturals := Int.ofNat_le.mpr
    (Nat.pow_le_pow_right (by decide : 0 < 2) (show 8 * width - 1 ≤ 63 by omega))
  simpa using naturals

/-- An integer in the range of a width is an integer of 64 bits. -/
theorem toInt_ofInt (atMostEight : width ≤ 8) (least : -2 ^ (8 * width - 1) ≤ number)
    (greatest : number < 2 ^ (8 * width - 1)) : (Int64.ofInt number).toInt = number := by
  have bound := two_pow_le atMostEight
  exact Int64.toInt_ofInt_of_le (by omega) (by omega)

private theorem bmod_word_mem (positive : 1 ≤ width) (word : UInt64) :
    -2 ^ (8 * width - 1) ≤ Int.bmod word.toNat (256 ^ width) ∧
      Int.bmod word.toNat (256 ^ width) < 2 ^ (8 * width - 1) := by
  have double := two_pow_eq positive
  have modulus : ((256 ^ width : Nat) : Int) = 256 ^ width := by simp
  have some : 0 < 256 ^ width := Nat.pow_pos (by decide)
  have low := Int.le_bmod (x := (word.toNat : Int)) some
  have high := Int.bmod_lt (x := (word.toNat : Int)) some
  rw [modulus] at low high
  omega

/-- What sign extension gives lies in the range of the width. -/
theorem toInt_signExtend (positive : 1 ≤ width) (atMostEight : width ≤ 8) (word : UInt64) :
    -2 ^ (8 * width - 1) ≤ (signExtend width word).toInt ∧
      (signExtend width word).toInt < 2 ^ (8 * width - 1) := by
  rw [toInt_signExtend_eq positive atMostEight]
  exact bmod_word_mem positive word

end Integer

theorem width_le_eight (scalar : Scalar) : scalar.width ≤ 8 := by
  cases scalar with
  | unsigned width | signed width => exact width.atMostEight
  | _ => decide

theorem word_singleton (byte : UInt8) : BigEndian.word [byte] = byte.toUInt64 := by
  simp [BigEndian.word]

theorem bytes_of_image {scalar : Scalar} {value : Value} {run : List UInt8}
    (image : scalar.image value = .ok run) : scalar.bytes value = run := by
  simp [bytes, image]

theorem integerImage_of_fits {isSigned : Bool} {width : WordWidth} {value : Value} {number : Int}
    (integer : value.integer? = some number) (inRange : fits isSigned width.bytes number = true) :
    integerImage isSigned width.bytes value =
      .ok (BigEndian.bytes width.bytes (UInt64.ofInt number)) := by
  rw [integerImage_eq width.positive width.atMostEight isSigned integer, if_pos inRange]

theorem bytes_unsigned {width : WordWidth} {value : Value} {number : Int}
    (integer : value.integer? = some number) (least : 0 ≤ number)
    (greatest : number < 2 ^ (8 * width.bytes)) :
    (Scalar.unsigned width).bytes value = BigEndian.bytes width.bytes (UInt64.ofInt number) :=
  bytes_of_image (integerImage_of_fits integer (by simp [fits, least, greatest]))

theorem bytes_signed {width : WordWidth} {value : Value} {number : Int}
    (integer : value.integer? = some number) (least : -2 ^ (8 * width.bytes - 1) ≤ number)
    (greatest : number < 2 ^ (8 * width.bytes - 1)) :
    (Scalar.signed width).bytes value = BigEndian.bytes width.bytes (UInt64.ofInt number) :=
  bytes_of_image (integerImage_of_fits integer (by simp [fits, least, greatest]))

/-- The word of the bytes of an unsigned integer is the integer. -/
theorem toNat_word_bytes_unsigned {width : WordWidth} {value : Value} {number : Int}
    (integer : value.integer? = some number) (least : 0 ≤ number)
    (greatest : number < 2 ^ (8 * width.bytes)) :
    ((BigEndian.word ((Scalar.unsigned width).bytes value)).toNat : Int) = number := by
  have modulus : (256 : Int) ^ width.bytes = 2 ^ (8 * width.bytes) := by
    rw [Int.pow_mul]
    rfl
  rw [bytes_unsigned integer least greatest, toNat_word_bytes_ofInt width.atMostEight, modulus,
    Int.emod_eq_of_lt least greatest]

/-- The extended word of the bytes of a signed integer is the integer. -/
theorem signExtend_word_bytes_signed {width : WordWidth} {value : Value} {number : Int}
    (integer : value.integer? = some number) (least : -2 ^ (8 * width.bytes - 1) ≤ number)
    (greatest : number < 2 ^ (8 * width.bytes - 1)) :
    signExtend width.bytes (BigEndian.word ((Scalar.signed width).bytes value)) =
      Int64.ofInt number := by
  rw [bytes_signed integer least greatest]
  exact signExtend_word_bytes width.positive width.atMostEight least greatest

theorem word_bytes_single (bits : UInt32) :
    (BigEndian.word (Scalar.single.bytes (.single bits))).toUInt32 = bits := by
  have fits : bits.toUInt64.toNat < 256 ^ 4 := bits.toNat_lt
  have image : Scalar.single.image (.single bits) = .ok (BigEndian.bytes 4 bits.toUInt64) := rfl
  rw [bytes_of_image image, BigEndian.word_bytes (by decide) fits, UInt32.toUInt32_toUInt64]

theorem word_bytes_double (bits : UInt64) :
    BigEndian.word (Scalar.double.bytes (.double bits)) = bits := by
  have image : Scalar.double.image (.double bits) = .ok (BigEndian.bytes 8 bits) := rfl
  rw [bytes_of_image image]
  exact BigEndian.word_bytes (by decide) bits.toNat_lt

theorem word_bytes_bool (truth : Bool) :
    (BigEndian.word (Scalar.bool.bytes (.bool truth)) != 0) = truth := by
  cases truth <;> decide

/-- The byte of a character that is given by its number. -/
theorem word_bytes_unsigned_char {number : UInt64} (small : number.toNat < 256) :
    BigEndian.word (Scalar.char.bytes (.unsigned number)) = number := by
  have image : Scalar.char.image (.unsigned number) = .ok [number.toUInt8] := by
    rw [image, charImage_unsigned, if_pos small]
  rw [bytes_of_image image, word_singleton]
  apply UInt64.toNat_inj.mp
  simpa using small

theorem word_bytes_empty : BigEndian.word (Scalar.char.bytes (.text "")) = 0 := by
  decide

/-- The byte of an ASCII character. -/
theorem word_bytes_ascii {value : Nat} (ascii : value < 128) :
    BigEndian.word (Scalar.char.bytes (.text (String.singleton (Char.ofNat value)))) =
      UInt64.ofNat value := by
  have image : Scalar.char.image (.text (String.singleton (Char.ofNat value))) =
      .ok [UInt8.ofNat value] := by
    simp only [Scalar.image, charImage, Utf8.toUTF8_singleton ascii]
  rw [bytes_of_image image, word_singleton]
  apply UInt64.toNat_inj.mp
  rw [UInt8.toNat_toUInt64, UInt8.toNat_ofNat', UInt64.toNat_ofNat', Nat.mod_eq_of_lt (by omega),
    Nat.mod_eq_of_lt (by omega)]

/-- A character that its byte tells from all others: a text other than the
zero character, or a number of at least 128. -/
def Lossless : Scalar → Value → Prop
  | .char, value =>
      (∃ text, value = .text text ∧ text ≠ "\x00") ∨
        ∃ number, value = .unsigned number ∧ 128 ≤ number.toNat
  | _, _ => True

theorem charOfWord_ascii {value : Nat} (nonzero : value ≠ 0) (ascii : value < 128) :
    charOfWord (UInt64.ofNat value) = .text (String.singleton (Char.ofNat value)) := by
  have number : (UInt64.ofNat value).toNat = value := by
    rw [UInt64.toNat_ofNat', Nat.mod_eq_of_lt (by omega)]
  have notZero : UInt64.ofNat value ≠ 0 := by
    intro zero
    rw [zero] at number
    exact nonzero number.symm
  have below : UInt64.ofNat value < 128 := by
    rw [UInt64.lt_iff_toNat_lt, number]
    exact ascii
  rw [charOfWord, if_neg notZero, if_pos below, number]

theorem charOfWord_large {word : UInt64} (large : 128 ≤ word.toNat) :
    charOfWord word = .unsigned word := by
  have notZero : word ≠ 0 := by
    rintro rfl
    exact absurd large (by decide)
  have notBelow : ¬word < 128 := by
    rw [UInt64.lt_iff_toNat_lt]
    exact Nat.not_lt.mpr large
  rw [charOfWord, if_neg notZero, if_neg notBelow]

theorem charOfWord_word_bytes {value : Value} (admits : Scalar.char.Admits value)
    (lossless : Scalar.char.Lossless value) :
    charOfWord (BigEndian.word (Scalar.char.bytes value)) = value := by
  rcases lossless with ⟨text, rfl, notZero⟩ | ⟨number, rfl, large⟩
  · have short : text.utf8ByteSize ≤ 1 := by
      simpa [Admits] using admits
    have size : text.toUTF8.data.toList.length = text.utf8ByteSize := rfl
    rcases run : text.toUTF8.data.toList with _ | ⟨byte, _ | ⟨other, rest⟩⟩
    · obtain rfl : text = "" := String.utf8ByteSize_eq_zero_iff.mp (by rw [← size, run]; rfl)
      rw [word_bytes_empty]
      rfl
    · obtain ⟨ascii, rfl⟩ := Utf8.eq_singleton_of_toUTF8_eq run
      have nonzero : byte.toNat ≠ 0 := by
        intro zero
        rw [zero] at notZero
        exact notZero rfl
      rw [word_bytes_ascii ascii, charOfWord_ascii nonzero ascii]
    · rw [run, List.length_cons, List.length_cons] at size
      omega
  · have small : number.toNat < 256 := by
      simpa [Admits] using admits
    rw [word_bytes_unsigned_char small, charOfWord_large large]

/-- A word of one byte is no character, an ASCII character, or a large number. -/
theorem charOfWord_eq {word : UInt64} (fits : word.toNat < 256) :
    charOfWord word = .text "" ∨
      (∃ value, value ≠ 0 ∧ value < 128 ∧
        charOfWord word = .text (String.singleton (Char.ofNat value))) ∨
      ∃ number : UInt64, 128 ≤ number.toNat ∧ number.toNat < 256 ∧
        charOfWord word = .unsigned number := by
  by_cases zero : word = 0
  · exact .inl (if_pos zero)
  · by_cases ascii : word.toNat < 128
    · have nonzero : word.toNat ≠ 0 := fun none => zero (UInt64.toNat_inj.mp none)
      have character := charOfWord_ascii nonzero ascii
      rw [UInt64.ofNat_toNat] at character
      exact .inr (.inl ⟨word.toNat, nonzero, ascii, character⟩)
    · have large := Nat.not_lt.mp ascii
      exact .inr (.inr ⟨word, large, fits, charOfWord_large large⟩)

/-- Reading the bytes of a value gives the value again, up to signedness. -/
theorem equal_fromWord {scalar : Scalar} {value : Value} (admits : scalar.Admits value)
    (lossless : scalar.Lossless value) :
    (scalar.fromWord true (BigEndian.word (scalar.bytes value))).equal value = true := by
  cases scalar with
  | unsigned width =>
      obtain ⟨number, integer, least, greatest⟩ := admits
      have word := toNat_word_bytes_unsigned integer least greatest
      exact Value.equal_of_integer? (congrArg some word) integer
  | signed width =>
      obtain ⟨number, integer, least, greatest⟩ := admits
      have word := signExtend_word_bytes_signed integer least greatest
      have number := toInt_ofInt width.atMostEight least greatest
      exact Value.equal_of_integer? (congrArg some (by rw [word, number])) integer
  | single =>
      obtain ⟨bits, rfl⟩ := admits
      simp [fromWord, ofWord, word_bytes_single, Value.equal]
  | double =>
      obtain ⟨bits, rfl⟩ := admits
      simp [fromWord, ofWord, word_bytes_double, Value.equal]
  | bool =>
      obtain ⟨truth, rfl⟩ := admits
      simp [fromWord, ofWord, word_bytes_bool, Value.equal]
  | char =>
      have same := charOfWord_word_bytes admits lossless
      rw [fromWord, if_pos rfl, same]
      rcases lossless with ⟨text, rfl, -⟩ | ⟨number, rfl, -⟩
      · simp [Value.equal]
      · simp [Value.equal]

/-- What a word of the width stands for is admitted. -/
theorem admits_fromWord {scalar : Scalar} {word : UInt64}
    (fits : word.toNat < 256 ^ scalar.width) (asText : Bool) :
    scalar.Admits (scalar.fromWord asText word) := by
  cases scalar with
  | unsigned width =>
      have bound : (256 : Int) ^ width.bytes = 2 ^ (8 * width.bytes) := by
        rw [Int.pow_mul]
        rfl
      have below := Int.ofNat_lt.mpr fits
      rw [Int.natCast_pow] at below
      refine ⟨word.toNat, rfl, Int.natCast_nonneg _, ?_⟩
      rw [← bound]
      exact below
  | signed width =>
      have range := toInt_signExtend width.positive width.atMostEight word
      exact ⟨(signExtend width.bytes word).toInt, rfl, range⟩
  | single => exact ⟨word.toUInt32, rfl⟩
  | double => exact ⟨word, rfl⟩
  | bool => exact ⟨word != 0, rfl⟩
  | char =>
      cases asText with
      | false => exact .inr ⟨word, rfl, fits⟩
      | true =>
          rw [fromWord, if_pos rfl]
          rcases charOfWord_eq fits with empty | ⟨value, -, ascii, character⟩ |
            ⟨number, -, small, large⟩
          · exact .inl ⟨"", empty, by decide⟩
          · refine .inl ⟨_, character, ?_⟩
            have size := congrArg List.length (Utf8.toUTF8_singleton ascii)
            exact Nat.le_of_eq size
          · exact .inr ⟨number, large, small⟩

theorem word_bytes_charOfWord {word : UInt64} (fits : word.toNat < 256) :
    BigEndian.word (Scalar.char.bytes (charOfWord word)) = word := by
  by_cases zero : word = 0
  · rw [zero]
    exact word_bytes_empty
  · by_cases ascii : word.toNat < 128
    · have nonzero : word.toNat ≠ 0 := fun none => zero (UInt64.toNat_inj.mp none)
      have character := charOfWord_ascii nonzero ascii
      rw [UInt64.ofNat_toNat] at character
      rw [character, word_bytes_ascii ascii, UInt64.ofNat_toNat]
    · rw [charOfWord_large (Nat.not_lt.mp ascii), word_bytes_unsigned_char fits]

/-- The bytes of what a word of the width stands for spell the word again.  Of
the words for truth values that is so only for zero and one. -/
theorem word_bytes_fromWord {scalar : Scalar} {word : UInt64}
    (fits : word.toNat < 256 ^ scalar.width) (truth : scalar = .bool → word ≤ 1) (asText : Bool) :
    BigEndian.word (scalar.bytes (scalar.fromWord asText word)) = word := by
  cases scalar with
  | unsigned width =>
      obtain ⟨number, integer, least, greatest⟩ := admits_fromWord fits asText
      have same := toNat_word_bytes_unsigned integer least greatest
      obtain rfl : (word.toNat : Int) = number := Option.some.inj integer
      exact UInt64.toNat_inj.mp (Int.ofNat_inj.mp same)
  | signed width =>
      obtain ⟨number, integer, least, greatest⟩ := admits_fromWord fits asText
      obtain rfl : (signExtend width.bytes word).toInt = number := Option.some.inj integer
      have residue : (signExtend width.bytes word).toInt % 256 ^ width.bytes = word.toNat := by
        rw [toInt_signExtend_eq width.positive width.atMostEight]
        have modulus : (256 : Int) ^ width.bytes = ((256 ^ width.bytes : Nat) : Int) := by simp
        have below : word.toNat < 256 ^ width.bytes := fits
        rw [modulus, Int.bmod_emod, ← Int.natCast_emod, Nat.mod_eq_of_lt below]
      apply UInt64.toNat_inj.mp
      rw [bytes_signed integer least greatest, ← Int.ofNat_inj,
        toNat_word_bytes_ofInt width.atMostEight, residue]
  | single =>
      have image : Scalar.single.image (.single word.toUInt32) =
          .ok (BigEndian.bytes 4 word.toUInt32.toUInt64) := rfl
      have narrow : word.toUInt32.toUInt64 = word := by
        apply UInt64.toNat_inj.mp
        rw [UInt32.toNat_toUInt64, UInt64.toNat_toUInt32]
        exact Nat.mod_eq_of_lt fits
      change BigEndian.word (Scalar.single.bytes (.single word.toUInt32)) = word
      rw [bytes_of_image image, narrow]
      exact BigEndian.word_bytes (by decide) fits
  | double => exact word_bytes_double word
  | bool =>
      have small : word = 0 ∨ word = 1 := by
        have atMostOne := UInt64.le_iff_toNat_le.mp (truth rfl)
        rw [← UInt64.toNat_inj, ← UInt64.toNat_inj]
        exact Nat.le_one_iff_eq_zero_or_eq_one.mp atMostOne
      change BigEndian.word (Scalar.bool.bytes (.bool (word != 0))) = word
      rcases small with rfl | rfl <;> decide
  | char =>
      cases asText with
      | false => exact word_bytes_unsigned_char fits
      | true => exact word_bytes_charOfWord fits

/-- What a word of the width stands for is read again from its own bytes. -/
theorem fromWord_word_bytes_fromWord {scalar : Scalar} {word : UInt64}
    (fits : word.toNat < 256 ^ scalar.width) (asText : Bool) :
    scalar.fromWord asText (BigEndian.word (scalar.bytes (scalar.fromWord asText word))) =
      scalar.fromWord asText word := by
  by_cases bool : scalar = .bool
  · subst bool
    exact congrArg Value.bool (word_bytes_bool _)
  · rw [word_bytes_fromWord fits fun same => absurd same bool]

/-- The bytes that a scalar was read from are those of the value, if a truth
value was read from zero or one. -/
theorem bytes_fromWord {scalar : Scalar} {run : List UInt8} (length : run.length = scalar.width)
    (truth : scalar = .bool → BigEndian.word run ≤ 1) (asText : Bool) :
    scalar.bytes (scalar.fromWord asText (BigEndian.word run)) = run := by
  have short : run.length ≤ 8 := by
    rw [length]
    exact scalar.width_le_eight
  have fits := BigEndian.toNat_word_lt short
  rw [length] at fits
  have word := word_bytes_fromWord fits truth asText
  have size := length_bytes (admits_fromWord fits asText)
  calc scalar.bytes (scalar.fromWord asText (BigEndian.word run))
      = BigEndian.bytes scalar.width
          (BigEndian.word (scalar.bytes (scalar.fromWord asText (BigEndian.word run)))) := by
        rw [← size, BigEndian.bytes_word (by rw [size]; exact scalar.width_le_eight)]
    _ = BigEndian.bytes run.length (BigEndian.word run) := by rw [word, length]
    _ = run := BigEndian.bytes_word short

end Scalar

end RecordCodec
