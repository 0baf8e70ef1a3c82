import RecordCodec.Json.Basic
import RecordCodec.Proofs.Number.Binary

/-!
# What rounding gives

Rounding gives a number or an infinity, never what is not a number.  Integers
that fit a 64-bit word are far below the greatest 64-bit float, so they are
rounded to finite floats.
-/

namespace RecordCodec

namespace Binary

namespace Format

variable {format : Format} {negative : Bool} {magnitude : Nat}

theorem roundMagnitude_le_infinity (format : Format) (numerator denominator : Nat) :
    format.roundMagnitude numerator denominator ≤ format.infinity := by
  unfold roundMagnitude
  split
  · exact Nat.zero_le _
  · exact Nat.min_le_right _ _

/-- A magnitude is an exponent and a fraction. -/
theorem split_magnitude (format : Format) (magnitude : Nat) :
    magnitude = magnitude / 2 ^ format.fractionBits * 2 ^ format.fractionBits +
      magnitude % 2 ^ format.fractionBits :=
  (Nat.div_add_mod' _ _).symm

/-- Below infinity the exponent is not the last one. -/
theorem biased_lt (below : magnitude < format.infinity) :
    magnitude / 2 ^ format.fractionBits < 2 ^ format.exponentBits - 1 :=
  (Nat.div_lt_iff_lt_mul (Nat.two_pow_pos _)).mpr below

theorem isFinite_withSign (below : magnitude < format.infinity) :
    format.isFinite (format.withSign negative magnitude) = true := by
  have biased := biased_lt below
  have fits := Nat.lt_of_lt_of_le biased (Nat.sub_le _ _)
  rw [split_magnitude format magnitude, isFinite,
    withSign_div_mod fits (Nat.mod_lt _ (Nat.two_pow_pos _)), bne_iff_ne]
  exact Nat.ne_of_lt biased

theorem isNotANumber_withSign (inside : magnitude ≤ format.infinity) :
    format.isNotANumber (format.withSign negative magnitude) = false := by
  rcases Nat.lt_or_eq_of_le inside with below | same
  · simp [isNotANumber, isFinite_withSign below]
  · have fraction : format.withSign negative magnitude % 2 ^ format.fractionBits = 0 := by
      have whole :=
        @withSign_mod format negative (2 ^ format.exponentBits - 1) 0 (Nat.two_pow_pos _)
      rwa [Nat.add_zero, ← infinity, ← same] at whole
    simp [isNotANumber, fraction]

/-- Rounding a quotient gives a number. -/
theorem isNotANumber_round (format : Format) (negative : Bool) (numerator denominator : Nat) :
    format.isNotANumber (format.round negative numerator denominator) = false :=
  isNotANumber_withSign (roundMagnitude_le_infinity _ _ _)

end Format

theorem roundQuotient_le (numerator denominator : Nat) :
    roundQuotient numerator denominator ≤ numerator / denominator + 1 := by
  simp only [roundQuotient]
  split
  · omega
  · split
    · omega
    · omega

/-- Natural numbers below `2 ^ 64` are rounded below infinity. -/
theorem roundMagnitude_lt_infinity {number : Nat} (small : number < 2 ^ 64) :
    double.roundMagnitude number 1 < double.infinity := by
  by_cases zero : number = 0
  · rw [Format.roundMagnitude, if_pos zero]
    decide
  · have leading : number.log2 < 64 := (Nat.log2_lt zero).mpr small
    have digits : number < 2 ^ (number.log2 + 1) := Nat.lt_log2_self
    have exponent := Format.leadingExponent_scaled zero 0
    simp only [Int.toNat_zero, Int.neg_zero, Nat.pow_zero, Nat.mul_one, Int.add_zero] at exponent
    have place : double.lastPlace number 1 = (number.log2 : Int) - 52 := by
      rw [Format.lastPlace, exponent, leastExponent_double, fractionBits_double]
      omega
    have kept : number * 2 ^ (-((number.log2 : Int) - 52)).toNat /
        (1 * 2 ^ ((number.log2 : Int) - 52).toNat) < 2 ^ 53 := by
      rw [Nat.one_mul, Nat.div_lt_iff_lt_mul (Nat.two_pow_pos _), ← Nat.pow_add]
      have exponents : 53 + ((number.log2 : Int) - 52).toNat =
          number.log2 + 1 + (-((number.log2 : Int) - 52)).toNat := by
        omega
      rw [exponents, Nat.pow_add]
      exact Nat.mul_lt_mul_of_pos_right digits (Nat.two_pow_pos _)
    have rounded := roundQuotient_le (number * 2 ^ (-((number.log2 : Int) - 52)).toNat)
      (1 * 2 ^ ((number.log2 : Int) - 52).toNat)
    simp only [Format.roundMagnitude, if_neg zero, place, powerOfTwo, leastExponent_double,
      fractionBits_double, infinity_double]
    refine Nat.lt_of_le_of_lt (Nat.min_le_left _ _) ?_
    omega

theorem toNat_ofInt (number : Int) :
    (ofInt number).toNat = double.round (decide (number < 0)) number.natAbs 1 := by
  have inside : double.round (decide (number < 0)) number.natAbs 1 < 2 * double.signWeight :=
    Format.withSign_lt (Nat.lt_of_le_of_lt (double.roundMagnitude_le_infinity _ _)
      double.infinity_lt)
  rw [ofInt, UInt64.toNat_ofNat']
  exact Nat.mod_eq_of_lt inside

/-- Integers that fit a word are rounded to finite floats. -/
theorem isFinite_ofInt {number : Int} (fits : -2 ^ 63 ≤ number ∧ number < 2 ^ 64) :
    isFinite (ofInt number) = true := by
  have small : number.natAbs < 2 ^ 64 := by omega
  rw [isFinite, toNat_ofInt]
  exact Format.isFinite_withSign (roundMagnitude_lt_infinity small)

/-- Narrowing a finite float gives a number or an infinity. -/
theorem isNotANumber_narrow {bits : UInt64} (finite : isFinite bits = true) :
    single.isNotANumber (narrow bits).toNat = false := by
  have inside : double.isFinite bits.toNat = true := finite
  have number : ∃ negative significand exponent,
      double.decode bits.toNat = .finite negative significand exponent := by
    simp only [Format.isFinite, bne_iff_ne] at inside
    simp only [Format.decode, if_neg inside]
    split <;> exact ⟨_, _, _, rfl⟩
  obtain ⟨negative, significand, exponent, decoded⟩ := number
  have converted : double.convert single bits.toNat =
      single.round negative (significand * (powerOfTwo exponent).1) (powerOfTwo exponent).2 := by
    simp only [Format.convert, decoded]
  have fits : double.convert single bits.toNat < 2 ^ 32 := by
    rw [converted]
    exact Format.withSign_lt (Nat.lt_of_le_of_lt (single.roundMagnitude_le_infinity _ _)
      single.infinity_lt)
  rw [narrow, UInt32.toNat_ofNat', Nat.mod_eq_of_lt fits, converted]
  exact Format.isNotANumber_round _ _ _ _

end Binary

/-- A number of a document is a finite float once it is rounded to 64 bits. -/
theorem JsonNumber.isFinite_toFloat (number : JsonNumber) :
    Binary.isFinite number.toFloat = true := by
  cases number with
  | integer value fits => exact Binary.isFinite_ofInt fits
  | float bits finite => exact finite

end RecordCodec
