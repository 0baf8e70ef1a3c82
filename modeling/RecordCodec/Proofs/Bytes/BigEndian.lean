import RecordCodec.Bytes.Buffer

/-!
# Big-endian words and their bytes

The word that a run of bytes spells and the low bytes of a word undo each
other, as long as the run is not longer than a word.  Both are compared with
the natural number that the bytes spell in base 256.
-/

namespace RecordCodec.BigEndian

/-- The natural number that a run of bytes spells, without any bound. -/
def number (bytes : List UInt8) : Nat :=
  bytes.foldl (fun high byte => high * 256 + byte.toNat) 0

private theorem foldl_number (bytes : List UInt8) (start : Nat) :
    bytes.foldl (fun high byte => high * 256 + byte.toNat) start =
      start * 256 ^ bytes.length + number bytes := by
  induction bytes generalizing start with
  | nil => simp [number]
  | cons byte rest ih =>
      simp only [number, List.foldl_cons, List.length_cons]
      rw [ih (start * 256 + byte.toNat), ih (0 * 256 + byte.toNat), Nat.pow_succ,
        Nat.add_mul, Nat.mul_assoc, Nat.mul_comm 256, Nat.zero_mul, Nat.zero_add, Nat.add_assoc]

theorem number_cons (byte : UInt8) (rest : List UInt8) :
    number (byte :: rest) = byte.toNat * 256 ^ rest.length + number rest := by
  simpa [number] using foldl_number rest byte.toNat

theorem number_lt (bytes : List UInt8) : number bytes < 256 ^ bytes.length := by
  induction bytes with
  | nil => simp [number]
  | cons byte rest ih =>
      have byteBound : byte.toNat + 1 ≤ 256 := byte.toNat_lt
      have scaled := Nat.mul_le_mul_right (256 ^ rest.length) byteBound
      rw [number_cons, List.length_cons, Nat.pow_succ, Nat.mul_comm (256 ^ rest.length)]
      rw [Nat.add_mul, Nat.one_mul] at scaled
      omega

private theorem toNat_step (high : UInt64) (byte : UInt8) :
    (high <<< 8 ||| byte.toUInt64).toNat = (high.toNat * 256 + byte.toNat) % 2 ^ 64 := by
  have byteBound : byte.toNat < 2 ^ 8 := byte.toNat_lt
  have split : high.toNat <<< 8 % 2 ^ 64 = (high.toNat % 2 ^ 56) <<< 8 := by
    rw [Nat.shiftLeft_eq, Nat.shiftLeft_eq]
    omega
  simp only [UInt64.toNat_or, UInt64.toNat_shiftLeft, UInt8.toNat_toUInt64]
  change high.toNat <<< (8 % 64) % 2 ^ 64 ||| byte.toNat = _
  rw [split, ← Nat.shiftLeft_add_eq_or_of_lt byteBound, Nat.shiftLeft_eq]
  omega

private theorem toNat_foldl (bytes : List UInt8) (start : UInt64) (plain : Nat)
    (agrees : start.toNat = plain % 2 ^ 64) :
    (bytes.foldl (fun (high : UInt64) byte => high <<< 8 ||| byte.toUInt64) start).toNat =
      bytes.foldl (fun high byte => high * 256 + byte.toNat) plain % 2 ^ 64 := by
  induction bytes generalizing start plain with
  | nil => exact agrees
  | cons byte rest ih =>
      apply ih
      change _ = (plain * 256 + byte.toNat) % 2 ^ 64
      rw [toNat_step, agrees]
      omega

/-- A word keeps the last 64 bits of the number that its bytes spell. -/
theorem toNat_word (bytes : List UInt8) : (word bytes).toNat = number bytes % 2 ^ 64 :=
  toNat_foldl bytes 0 0 rfl

theorem number_bytes (width : Nat) (value : UInt64) :
    number (bytes width value) = value.toNat % 256 ^ width := by
  induction width with
  | zero => simp [bytes, number, Nat.mod_one]
  | succ width ih =>
      rw [bytes, number_cons, length_bytes, ih, Nat.pow_succ, Nat.mod_mul,
        UInt8.toNat_ofNat', Nat.mul_comm]
      exact Nat.add_comm ..

private theorem pow_le_word {width : Nat} (atMostEight : width ≤ 8) : 256 ^ width ≤ 2 ^ 64 :=
  Nat.pow_le_pow_right (by decide : 0 < 256) atMostEight

/-- Reading the low bytes of a word back keeps the word modulo their range. -/
theorem toNat_word_bytes {width : Nat} (atMostEight : width ≤ 8) (value : UInt64) :
    (word (bytes width value)).toNat = value.toNat % 256 ^ width := by
  have positive : 0 < 256 ^ width := Nat.pow_pos (by decide)
  have below := Nat.lt_of_lt_of_le (Nat.mod_lt value.toNat positive) (pow_le_word atMostEight)
  rw [toNat_word, number_bytes, Nat.mod_eq_of_lt below]

/-- A word that fits the width is read back from its bytes. -/
theorem word_bytes {width : Nat} {value : UInt64} (atMostEight : width ≤ 8)
    (fits : value.toNat < 256 ^ width) : word (bytes width value) = value := by
  apply UInt64.toNat_inj.mp
  rw [toNat_word_bytes atMostEight, Nat.mod_eq_of_lt fits]

theorem toNat_word_lt {run : List UInt8} (atMostEight : run.length ≤ 8) :
    (word run).toNat < 256 ^ run.length := by
  have below := Nat.lt_of_lt_of_le (number_lt run) (pow_le_word atMostEight)
  rw [toNat_word, Nat.mod_eq_of_lt below]
  exact number_lt run

theorem eq_of_number_eq {first second : List UInt8} (lengths : first.length = second.length)
    (numbers : number first = number second) : first = second := by
  induction first generalizing second with
  | nil => exact (List.eq_nil_of_length_eq_zero lengths.symm).symm
  | cons byte rest ih =>
      cases second with
      | nil => simp at lengths
      | cons other others =>
          have restLengths : rest.length = others.length := by simpa using lengths
          have restBound := number_lt rest
          have othersBound := number_lt others
          rw [number_cons, number_cons, restLengths] at numbers
          rw [restLengths] at restBound
          have heads : byte.toNat = other.toNat := by
            have positive : 0 < 256 ^ others.length := Nat.pow_pos (by decide)
            have quotients := congrArg (· / 256 ^ others.length) numbers
            simpa [Nat.add_comm (_ * _), Nat.add_mul_div_right _ _ positive,
              Nat.div_eq_of_lt restBound, Nat.div_eq_of_lt othersBound] using quotients
          rw [heads] at numbers
          rw [UInt8.toNat_inj.mp heads, ih restLengths (Nat.add_left_cancel numbers)]

/-- Writing the word of a run of at most eight bytes gives the run back. -/
theorem bytes_word {run : List UInt8} (atMostEight : run.length ≤ 8) :
    bytes run.length (word run) = run := by
  apply eq_of_number_eq (length_bytes ..)
  have below := Nat.lt_of_lt_of_le (number_lt run) (pow_le_word atMostEight)
  rw [number_bytes, toNat_word, Nat.mod_eq_of_lt below, Nat.mod_eq_of_lt (number_lt run)]

end RecordCodec.BigEndian
