import RecordCodec.Codec.Scalar
import RecordCodec.Proofs.Bytes.BigEndian
import RecordCodec.Proofs.Success

/-!
# Ranges of integers

Whether an integer fits a width is settled by a mask or by limits that are
shifted into place, and a negative integer is read back by two shifts.  Here
these operations on words become statements about numbers: the tests hold in
the range of the width, what they let through is the residue of the integer,
and the shifts give the number of the range with that residue.
-/

namespace RecordCodec

namespace Scalar

/-- The integers that an integer scalar of a width holds. -/
def fits (isSigned : Bool) (width : Nat) (number : Int) : Bool :=
  if isSigned then -(2 ^ (8 * width - 1)) ≤ number && number < 2 ^ (8 * width - 1)
  else 0 ≤ number && number < 2 ^ (8 * width)

variable {width : Nat}

theorem toNat_widthMask (atMostEight : width ≤ 8) :
    (widthMask width).toNat = 2 ^ (8 * width) - 1 := by
  unfold widthMask
  split
  · obtain rfl : width = 8 := by omega
    rfl
  · have below : 2 ^ (8 * width) < 2 ^ 64 := Nat.pow_lt_pow_right (by decide) (by omega)
    have power : ((1 : UInt64) <<< UInt64.ofNat (8 * width)).toNat = 2 ^ (8 * width) := by
      rw [UInt64.toNat_shiftLeft, UInt64.toNat_ofNat',
        Nat.mod_eq_of_lt (by omega : 8 * width < 2 ^ 64),
        Nat.mod_eq_of_lt (by omega : 8 * width < 64)]
      simpa [Nat.shiftLeft_eq] using below
    have positive : (1 : UInt64) ≤ (1 : UInt64) <<< UInt64.ofNat (8 * width) := by
      rw [UInt64.le_iff_toNat_le, power]
      exact Nat.two_pow_pos _
    rw [UInt64.toNat_sub_of_le _ _ positive, power]
    rfl

/-- The mask keeps the residue modulo the numbers that the width can spell. -/
theorem toNat_and_widthMask (atMostEight : width ≤ 8) (word : UInt64) :
    (word &&& widthMask width).toNat = word.toNat % 256 ^ width := by
  rw [UInt64.toNat_and, toNat_widthMask atMostEight, Nat.and_two_pow_sub_one_eq_mod, Nat.pow_mul]

theorem bytes_and_widthMask (atMostEight : width ≤ 8) (word : UInt64) :
    BigEndian.bytes width (word &&& widthMask width) = BigEndian.bytes width word := by
  apply BigEndian.eq_of_number_eq (by simp)
  rw [BigEndian.number_bytes, BigEndian.number_bytes, toNat_and_widthMask atMostEight, Nat.mod_mod]

theorem and_not_eq_zero {word mask : UInt64} : word &&& ~~~mask = 0 ↔ word &&& mask = word := by
  have parts : word &&& mask ||| word &&& ~~~mask = word := by
    apply UInt64.toBitVec_inj.mp
    simp only [UInt64.toBitVec_or, UInt64.toBitVec_and, UInt64.toBitVec_not,
      ← BitVec.and_or_distrib_left, BitVec.or_not_self, BitVec.and_allOnes]
  constructor
  · intro clear
    rwa [clear, UInt64.or_zero] at parts
  · intro same
    rw [← same, UInt64.and_assoc, UInt64.and_not_self, UInt64.and_zero]

/-- No bit lies above the low bytes exactly if the word is below their numbers. -/
theorem and_not_widthMask_eq_zero (atMostEight : width ≤ 8) (word : UInt64) :
    word &&& ~~~widthMask width = 0 ↔ word.toNat < 256 ^ width := by
  have positive : 256 ^ width ≠ 0 := Nat.ne_of_gt (Nat.pow_pos (by decide))
  rw [and_not_eq_zero, ← UInt64.toNat_inj, toNat_and_widthMask atMostEight,
    Nat.mod_eq_iff_lt positive]

/-- The mask lets an unsigned word through exactly if it is in the range of the width. -/
theorem checkUnsigned_eq (atMostEight : width ≤ 8) (word : UInt64) :
    checkUnsigned width word =
      if fits false width word.toNat then .ok ()
      else .error (.integerOutOfRange word.toNat width) := by
  have power : ((256 ^ width : Nat) : Int) = 2 ^ (8 * width) := by
    rw [show 256 = 2 ^ 8 from rfl, ← Nat.pow_mul, Int.natCast_pow]
    rfl
  have inside : word.toNat < 256 ^ width ↔ fits false width word.toNat = true := by
    simp only [fits, Bool.false_eq_true, if_false, Bool.and_eq_true, decide_eq_true_eq]
    omega
  simp only [checkUnsigned, and_not_widthMask_eq_zero atMostEight, inside]

/-- The limit that is shifted into place, for each of the widths that have one. -/
theorem toInt_border : ∀ width < 8, 1 ≤ width →
    ((1 : Int64) <<< Int64.ofNat (8 * width - 1)).toInt = 2 ^ (8 * width - 1) := by
  decide

private theorem border_mem (short : width < 8) :
    0 < (2 : Int) ^ (8 * width - 1) ∧ (2 : Int) ^ (8 * width - 1) ≤ 2 ^ 55 := by
  have least := Int.natCast_pos.mpr (Nat.two_pow_pos (8 * width - 1))
  have greatest := Int.ofNat_le.mpr
    (Nat.pow_le_pow_right (by decide : 0 < 2) (show 8 * width - 1 ≤ 55 by omega))
  exact ⟨by exact_mod_cast least, by exact_mod_cast greatest⟩

/-- The limits let a signed word through exactly if it is in the range of the width. -/
theorem checkSigned_eq (positive : 1 ≤ width) (atMostEight : width ≤ 8) (word : Int64) :
    checkSigned width word =
      if fits true width word.toInt then .ok ()
      else .error (.integerOutOfRange word.toInt width) := by
  simp only [fits, if_true, Bool.and_eq_true, decide_eq_true_eq]
  unfold checkSigned
  split
  · rename_i short
    have border := toInt_border width short positive
    have inside := border_mem short
    have least : (-((1 : Int64) <<< Int64.ofNat (8 * width - 1))).toInt = -2 ^ (8 * width - 1) := by
      rw [Int64.toInt_neg, border]
      exact Int.bmod_eq_of_le_mul_two (by omega) (by omega)
    have greatest : ((1 : Int64) <<< Int64.ofNat (8 * width - 1) - 1).toInt =
        2 ^ (8 * width - 1) - 1 := by
      rw [Int64.toInt_sub, border, show (1 : Int64).toInt = 1 from rfl]
      exact Int.bmod_eq_of_le_mul_two (by omega) (by omega)
    simp only [Int64.lt_iff_toInt_lt, least, greatest]
    split
    · rw [if_neg (by omega)]
    · rw [if_pos (by omega)]
  · obtain rfl : width = 8 := by omega
    have low := word.le_toInt
    have high := word.toInt_lt
    rw [if_pos ⟨low, high⟩]

theorem ofInt_toNat (word : UInt64) : UInt64.ofInt word.toNat = word := by
  apply UInt64.toNat_inj.mp
  have below := word.toNat_lt
  rw [UInt64.ofInt, UInt64.toNat_ofNat']
  omega

theorem ofInt_toInt (word : Int64) : UInt64.ofInt word.toInt = word.toUInt64 := by
  have residue : word.toInt % 2 ^ 64 = word.toBitVec.toNat := by
    rw [← Int64.toInt_toBitVec, BitVec.toInt_eq_toNat_bmod]
    have below := word.toBitVec.isLt
    have same := Int.bmod_emod (x := (word.toBitVec.toNat : Int)) (m := 2 ^ 64)
    omega
  apply UInt64.toNat_inj.mp
  rw [UInt64.ofInt, residue, Int.toNat_natCast, UInt64.toNat_ofNat',
    Nat.mod_eq_of_lt word.toBitVec.isLt]
  rfl

theorem toInt_toInt64 {word : UInt64} (small : word.toNat < 2 ^ 63) :
    word.toInt64.toInt = word.toNat := by
  rw [← Int64.toInt_toBitVec, UInt64.toBitVec_toInt64, BitVec.toInt_eq_toNat_bmod]
  exact Int.bmod_eq_of_le_mul_two (by simp; omega) (by simp; omega)

/-- What the shifts of a word are measured by. -/
theorem smod_ofNat : ∀ shift < 64,
    (Int64.ofNat shift).toBitVec.smod 64 = BitVec.ofNat 64 shift := by
  decide +kernel

theorem toInt_shiftRight (word : Int64) {shift : Nat} (inside : shift < 64) :
    (word >>> Int64.ofNat shift).toInt = word.toInt / 2 ^ shift := by
  rw [← Int64.toInt_toBitVec, Int64.toBitVec_shiftRight, smod_ofNat shift inside,
    BitVec.sshiftRight', BitVec.toInt_sshiftRight, Int.shiftRight_eq_div_pow, BitVec.toNat_ofNat,
    Nat.mod_eq_of_lt (by omega), Int64.toInt_toBitVec]
  simp

/-- Scaling a number and its modulus scales the residue around zero. -/
theorem bmod_mul_mul (number : Int) {modulus scale : Nat} (positive : 0 < modulus)
    (scaled : 0 < scale) :
    Int.bmod (number * scale) (modulus * scale) = Int.bmod number modulus * scale := by
  have low := Int.le_bmod (x := number) positive
  have high := Int.bmod_lt (x := number) positive
  have parts : number * scale =
      Int.bmod number modulus * scale +
        Int.bdiv number modulus * ((modulus * scale : Nat) : Int) := by
    rw [Int.natCast_mul, ← Int.mul_assoc, ← Int.add_mul, Int.bmod_add_bdiv']
  have least : -(modulus : Int) * scale ≤ Int.bmod number modulus * 2 * scale :=
    Int.mul_le_mul_of_nonneg_right (by omega) (by omega)
  have greatest : Int.bmod number modulus * 2 * scale < (modulus : Int) * scale :=
    Int.mul_lt_mul_of_pos_right (by omega) (by omega)
  rw [parts, Int.add_mul_bmod_self_right]
  apply Int.bmod_eq_of_le_mul_two
  · rwa [Int.natCast_mul, ← Int.neg_mul, Int.mul_right_comm]
  · rwa [Int.natCast_mul, Int.mul_right_comm]

/-- The two shifts move the low bytes to the top of a word and back, with their sign. -/
theorem toInt_signExtend_eq (positive : 1 ≤ width) (atMostEight : width ≤ 8) (word : UInt64) :
    (signExtend width word).toInt = Int.bmod word.toNat (256 ^ width) := by
  have whole : 2 ^ 64 = 256 ^ width * 2 ^ (64 - 8 * width) := by
    rw [show 256 = 2 ^ 8 from rfl, ← Nat.pow_mul, ← Nat.pow_add, Nat.add_sub_cancel' (by omega)]
  have raised : (word <<< UInt64.ofNat (64 - 8 * width)).toInt64.toInt =
      Int.bmod word.toNat (256 ^ width) * (2 ^ (64 - 8 * width) : Nat) := by
    rw [← Int64.toInt_toBitVec, UInt64.toBitVec_toInt64, BitVec.toInt_eq_toNat_bmod,
      UInt64.toNat_toBitVec, UInt64.toNat_shiftLeft, UInt64.toNat_ofNat', Nat.shiftLeft_eq,
      Nat.mod_eq_of_lt (by omega : 64 - 8 * width < 2 ^ 64),
      Nat.mod_eq_of_lt (by omega : 64 - 8 * width < 64), Int.natCast_emod, Int.emod_bmod, whole,
      Int.natCast_mul, bmod_mul_mul _ (Nat.pow_pos (by decide)) (Nat.two_pow_pos _)]
  rw [signExtend, toInt_shiftRight _ (by omega), raised, Int.natCast_pow]
  exact Int.mul_ediv_cancel _ (Int.ne_of_gt (Int.pow_pos (by decide)))

theorem signExtend_eq (positive : 1 ≤ width) (atMostEight : width ≤ 8) (word : UInt64) :
    signExtend width word = Int64.ofInt (Int.bmod word.toNat (256 ^ width)) := by
  rw [← toInt_signExtend_eq positive atMostEight, Int64.ofInt_toInt]

section Image

variable {value : Value} {number : Int}

/-- An integer is an unsigned word of a width exactly if it is in range. -/
theorem unsignedWord_eq (atMostEight : width ≤ 8) (integer : value.integer? = some number) :
    unsignedWord width value =
      if fits false width number then .ok (UInt64.ofInt number)
      else .error (.integerOutOfRange number width) := by
  have checked (word : UInt64) (found : value.toUnsigned? = some word)
      (same : number = word.toNat) :
      unsignedWord width value =
        if fits false width number then .ok (UInt64.ofInt number)
        else .error (.integerOutOfRange number width) := by
    subst same
    simp only [unsignedWord, found, checkUnsigned_eq atMostEight, ofInt_toNat]
    split <;> rfl
  cases value with
  | unsigned word => exact checked word rfl (Option.some.inj integer).symm
  | signed word =>
      obtain rfl := Option.some.inj integer
      by_cases natural : 0 ≤ word
      · apply checked word.toUInt64
        · rw [Value.toUnsigned?, if_pos natural]
        · rw [Int64.toNat_toUInt64_of_le natural, Int64.cast_toNatClampNeg word natural]
      · rw [Int64.le_iff_toInt_le] at natural
        have unfit : fits false width word.toInt = false := by
          simp [fits, show ¬0 ≤ word.toInt from natural]
        rw [unsignedWord, Value.toUnsigned?, if_neg (by rwa [Int64.le_iff_toInt_le]), unfit]
        rfl
  | _ => cases integer

/-- An integer is the residue of a signed word of a width exactly if it is in range. -/
theorem signedWord_eq (positive : 1 ≤ width) (atMostEight : width ≤ 8)
    (integer : value.integer? = some number) :
    signedWord width value =
      if fits true width number then .ok (UInt64.ofInt number &&& widthMask width)
      else .error (.integerOutOfRange number width) := by
  have checked (word : Int64) (found : value.toSigned? = some word) (same : number = word.toInt) :
      signedWord width value =
        if fits true width number then .ok (UInt64.ofInt number &&& widthMask width)
        else .error (.integerOutOfRange number width) := by
    subst same
    simp only [signedWord, found, checkSigned_eq positive atMostEight, ofInt_toInt]
    split <;> rfl
  cases value with
  | signed word => exact checked word rfl (Option.some.inj integer).symm
  | unsigned word =>
      obtain rfl := Option.some.inj integer
      by_cases small : word.toNat < 2 ^ 63
      · apply checked word.toInt64
        · rw [Value.toSigned?, if_pos small]
        · rw [toInt_toInt64 small]
      · have bound := Nat.pow_le_pow_right (by decide : 0 < 2) (show 8 * width - 1 ≤ 63 by omega)
        have unfit : fits true width word.toNat = false := by
          have above : ¬(word.toNat : Int) < ((2 ^ (8 * width - 1) : Nat) : Int) := by omega
          rw [Int.natCast_pow] at above
          simp only [fits, if_true, Bool.and_eq_false_iff, decide_eq_false_iff_not]
          exact .inr above
        rw [signedWord, Value.toSigned?, if_neg small, unfit]
        rfl
  | _ => cases integer

/-- An integer has bytes exactly if it is in range. -/
theorem integerImage_eq (positive : 1 ≤ width) (atMostEight : width ≤ 8) (isSigned : Bool)
    (integer : value.integer? = some number) :
    integerImage isSigned width value =
      if fits isSigned width number then .ok (BigEndian.bytes width (UInt64.ofInt number))
      else .error (.integerOutOfRange number width) := by
  cases isSigned with
  | false =>
      simp only [integerImage, Bool.false_eq_true, if_false, unsignedWord_eq atMostEight integer]
      split <;> rfl
  | true =>
      simp only [integerImage, if_true, signedWord_eq positive atMostEight integer]
      split
      · exact congrArg Except.ok (bytes_and_widthMask atMostEight _)
      · rfl

theorem integerImage_of_not_integer (other : value.integer? = none) (isSigned : Bool)
    (width : Nat) :
    integerImage isSigned width value = .error (.valueMismatch .integer value.kind) := by
  cases value with
  | signed | unsigned => cases other
  | _ => cases isSigned <;> rfl

/-- A character is a number exactly if the number is that of a byte. -/
theorem charImage_unsigned (word : UInt64) :
    charImage (.unsigned word) =
      if word.toNat < 256 then .ok [word.toUInt8]
      else .error (.integerOutOfRange word.toNat 1) := by
  have inside : word &&& ~~~widthMask 1 = 0 ↔ word.toNat < 256 :=
    and_not_widthMask_eq_zero (by decide) word
  simp only [charImage, checkUnsigned, inside]
  split <;> rfl

end Image

end Scalar

end RecordCodec
