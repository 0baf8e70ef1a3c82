import RecordCodec.Number.Binary

/-!
# Exact changes of the floating-point format

A pattern is put together from a sign, an exponent and a fraction.  A number
that the target format can represent is rounded to itself, so a 32-bit number
that is widened to 64 bits and narrowed again is the same number.
-/

namespace RecordCodec.Binary

theorem roundQuotient_mul {quotient denominator : Nat} (positive : 0 < denominator) :
    roundQuotient (quotient * denominator) denominator = quotient := by
  simp [roundQuotient, Nat.mul_div_cancel _ positive, positive]

namespace Format

variable {format : Format} {negative : Bool} {biased fraction pattern : Nat}

theorem withSign_eq (format : Format) (negative : Bool) (biased fraction : Nat) :
    format.withSign negative (biased * 2 ^ format.fractionBits + fraction) =
      fraction + 2 ^ format.fractionBits *
        (biased + 2 ^ format.exponentBits * negative.toNat) := by
  have weight : format.signWeight = 2 ^ format.fractionBits * 2 ^ format.exponentBits := by
    rw [signWeight, Nat.pow_add, Nat.mul_comm]
  cases negative with
  | false => simp [withSign, Nat.mul_comm, Nat.add_comm]
  | true =>
      rw [withSign, if_pos rfl, weight, Bool.toNat_true, Nat.mul_one, Nat.mul_add,
        Nat.mul_comm biased]
      omega

theorem withSign_mod (fractionFits : fraction < 2 ^ format.fractionBits) :
    format.withSign negative (biased * 2 ^ format.fractionBits + fraction) %
      2 ^ format.fractionBits = fraction := by
  rw [withSign_eq, Nat.add_mul_mod_self_left, Nat.mod_eq_of_lt fractionFits]

theorem withSign_div (fractionFits : fraction < 2 ^ format.fractionBits) :
    format.withSign negative (biased * 2 ^ format.fractionBits + fraction) /
      2 ^ format.fractionBits = biased + 2 ^ format.exponentBits * negative.toNat := by
  rw [withSign_eq, Nat.add_mul_div_left _ _ (Nat.two_pow_pos _), Nat.div_eq_of_lt fractionFits,
    Nat.zero_add]

theorem withSign_div_mod (biasedFits : biased < 2 ^ format.exponentBits)
    (fractionFits : fraction < 2 ^ format.fractionBits) :
    format.withSign negative (biased * 2 ^ format.fractionBits + fraction) /
      2 ^ format.fractionBits % 2 ^ format.exponentBits = biased := by
  rw [withSign_div fractionFits, Nat.add_mul_mod_self_left, Nat.mod_eq_of_lt biasedFits]

theorem withSign_sign (biasedFits : biased < 2 ^ format.exponentBits)
    (fractionFits : fraction < 2 ^ format.fractionBits) :
    (format.withSign negative (biased * 2 ^ format.fractionBits + fraction) /
      format.signWeight % 2 == 1) = negative := by
  rw [signWeight, Nat.add_comm format.exponentBits, Nat.pow_add, ← Nat.div_div_eq_div_mul,
    withSign_div fractionFits, Nat.add_mul_div_left _ _ (Nat.two_pow_pos _),
    Nat.div_eq_of_lt biasedFits]
  cases negative <;> rfl

/-- Every pattern of the format is put together from its parts. -/
theorem exists_parts (inside : pattern < 2 * format.signWeight) :
    ∃ negative biased fraction, biased < 2 ^ format.exponentBits ∧
      fraction < 2 ^ format.fractionBits ∧
      pattern = format.withSign negative (biased * 2 ^ format.fractionBits + fraction) := by
  refine ⟨pattern / 2 ^ format.fractionBits / 2 ^ format.exponentBits == 1,
    pattern / 2 ^ format.fractionBits % 2 ^ format.exponentBits, pattern % 2 ^ format.fractionBits,
    Nat.mod_lt _ (Nat.two_pow_pos _), Nat.mod_lt _ (Nat.two_pow_pos _), ?_⟩
  have sign : pattern / 2 ^ format.fractionBits / 2 ^ format.exponentBits < 2 := by
    rw [Nat.div_div_eq_div_mul, ← Nat.pow_add, Nat.add_comm,
      Nat.div_lt_iff_lt_mul (Nat.two_pow_pos _)]
    exact inside
  have bit : (pattern / 2 ^ format.fractionBits / 2 ^ format.exponentBits == 1).toNat =
      pattern / 2 ^ format.fractionBits / 2 ^ format.exponentBits := by
    rcases Nat.lt_succ_iff_lt_or_eq.mp sign with zero | one
    · simp [Nat.lt_one_iff.mp zero]
    · simp [one]
  rw [withSign_eq, bit, Nat.mod_add_div, Nat.mod_add_div]

theorem isNotANumber_iff {pattern : Nat} :
    format.isNotANumber pattern = true ↔ format.decode pattern = .notANumber := by
  simp only [isNotANumber, isFinite, decode, Bool.and_eq_true, Bool.not_eq_true',
    bne_eq_false_iff_eq, bne_iff_ne]
  split
  · split <;> simp_all
  · split <;> simp_all

/-- Scaling by a power of two moves the leading digit. -/
theorem leadingExponent_scaled {significand : Nat} (positive : significand ≠ 0) (exponent : Int) :
    leadingExponent (significand * 2 ^ exponent.toNat) (2 ^ (-exponent).toNat) =
      significand.log2 + exponent := by
  have leading := Nat.log2_self_le positive
  have below : significand < 2 ^ (significand.log2 + 1) := Nat.lt_log2_self
  have log : (significand * 2 ^ exponent.toNat).log2 = significand.log2 + exponent.toNat := by
    rw [Nat.log2_eq_iff (Nat.mul_ne_zero positive (Nat.ne_of_gt (Nat.two_pow_pos _))), Nat.pow_add,
      Nat.add_right_comm, Nat.pow_add]
    exact ⟨Nat.mul_le_mul_right _ leading, Nat.mul_lt_mul_of_pos_right below (Nat.two_pow_pos _)⟩
  have estimate : ((significand * 2 ^ exponent.toNat).log2 : Int) -
      ((2 ^ (-exponent).toNat : Nat).log2 : Int) = significand.log2 + exponent := by
    rw [log, Nat.log2_two_pow]
    omega
  simp only [leadingExponent, estimate, powerOfTwo]
  apply if_neg
  rw [Nat.not_lt, Nat.mul_assoc, ← Nat.pow_add, ← Nat.pow_add]
  have exponents : (-exponent).toNat + (significand.log2 + exponent).toNat =
      significand.log2 + (exponent.toNat + (-(significand.log2 + exponent)).toNat) := by
    omega
  rw [exponents, Nat.pow_add]
  exact Nat.mul_le_mul_right _ leading

/-- A number that has a last place in the format is rounded to itself. -/
theorem roundMagnitude_scaled (format : Format) {significand kept : Nat} {exponent place : Int}
    (positive : significand ≠ 0)
    (lastPlace : max format.leastExponent (significand.log2 + exponent - format.fractionBits) = place)
    (exact : significand * 2 ^ (exponent.toNat + (-place).toNat) =
      kept * 2 ^ ((-exponent).toNat + place.toNat)) :
    format.roundMagnitude (significand * 2 ^ exponent.toNat) (2 ^ (-exponent).toNat) =
      min ((place - format.leastExponent).toNat * 2 ^ format.fractionBits + kept)
        format.infinity := by
  have numerator : significand * 2 ^ exponent.toNat ≠ 0 :=
    Nat.mul_ne_zero positive (Nat.ne_of_gt (Nat.two_pow_pos _))
  simp only [roundMagnitude, if_neg numerator, Format.lastPlace, leadingExponent_scaled positive,
    lastPlace, powerOfTwo]
  rw [Nat.mul_assoc, ← Nat.pow_add, exact, ← Nat.pow_add, roundQuotient_mul (Nat.two_pow_pos _)]

/-- What a pattern that is put together from its parts stands for. -/
theorem decode_withSign (biasedFits : biased < 2 ^ format.exponentBits)
    (fractionFits : fraction < 2 ^ format.fractionBits) :
    format.decode (format.withSign negative (biased * 2 ^ format.fractionBits + fraction)) =
      if biased = 2 ^ format.exponentBits - 1 then
        if fraction = 0 then .infinite negative else .notANumber
      else if biased = 0 then .finite negative fraction format.leastExponent
      else .finite negative (fraction + 2 ^ format.fractionBits)
        (format.leastExponent + (biased - 1 : Nat)) := by
  simp only [decode, withSign_mod fractionFits, withSign_div_mod biasedFits fractionFits,
    withSign_sign biasedFits fractionFits]

end Format

theorem fractionBits_single : single.fractionBits = 23 := rfl

theorem exponentBits_single : single.exponentBits = 8 := rfl

theorem leastExponent_single : single.leastExponent = -149 := rfl

theorem infinity_single : single.infinity = 255 * 2 ^ 23 := rfl

theorem fractionBits_double : double.fractionBits = 52 := rfl

theorem exponentBits_double : double.exponentBits = 11 := rfl

theorem leastExponent_double : double.leastExponent = -1074 := rfl

theorem infinity_double : double.infinity = 2047 * 2 ^ 52 := rfl

/-! A number of 32 bits other than zero is a significand of at most 24 binary
digits over the last place that the format keeps of it. -/

section Single

variable {negative : Bool} {significand : Nat} {exponent : Int}
  (positive : significand ≠ 0) (place : max (-149) (significand.log2 + exponent - 23) = exponent)

include positive place

/-- The significand fills the fraction of 64 bits once its leading digit is in front of it. -/
theorem exists_fraction :
    ∃ fraction, significand * 2 ^ (52 - significand.log2) = fraction + 2 ^ 52 ∧
      fraction < 2 ^ 52 := by
  have whole : 2 ^ 52 = 2 ^ significand.log2 * 2 ^ (52 - significand.log2) := by
    rw [← Nat.pow_add]
    congr 1
    omega
  have lower := Nat.mul_le_mul_right (2 ^ (52 - significand.log2)) (Nat.log2_self_le positive)
  have upper : significand * 2 ^ (52 - significand.log2) <
      2 ^ (significand.log2 + 1) * 2 ^ (52 - significand.log2) :=
    Nat.mul_lt_mul_of_pos_right Nat.lt_log2_self (Nat.two_pow_pos _)
  rw [← whole] at lower
  rw [Nat.pow_succ, Nat.mul_right_comm, ← whole] at upper
  obtain ⟨fraction, split⟩ := Nat.exists_eq_add_of_le' lower
  exact ⟨fraction, split, by omega⟩

variable (high : significand.log2 + exponent ≤ 127)

include high

theorem roundMagnitude_double {fraction : Nat}
    (split : significand * 2 ^ (52 - significand.log2) = fraction + 2 ^ 52)
    (fits : fraction < 2 ^ 52) :
    double.roundMagnitude (significand * 2 ^ exponent.toNat) (2 ^ (-exponent).toNat) =
      (significand.log2 + exponent + 1023).toNat * 2 ^ 52 + fraction := by
  have exact : significand * 2 ^ (exponent.toNat + (-(significand.log2 + exponent - 52)).toNat) =
      (fraction + 2 ^ 52) * 2 ^ ((-exponent).toNat + (significand.log2 + exponent - 52).toNat) := by
    rw [← split, Nat.mul_assoc, ← Nat.pow_add]
    congr 2
    omega
  have lastPlace : max double.leastExponent (significand.log2 + exponent - double.fractionBits) =
      significand.log2 + exponent - 52 := by
    rw [leastExponent_double, fractionBits_double]
    omega
  rw [double.roundMagnitude_scaled positive lastPlace exact, leastExponent_double,
    fractionBits_double, infinity_double]
  omega

/-- Widening gives the same number with its leading digit in front of the fraction. -/
theorem decode_widened :
    double.decode (double.round negative (significand * 2 ^ exponent.toNat)
        (2 ^ (-exponent).toNat)) =
      .finite negative (significand * 2 ^ (52 - significand.log2))
        (significand.log2 + exponent - 52) := by
  obtain ⟨fraction, split, fits⟩ := exists_fraction positive place
  have biasedFits : (significand.log2 + exponent + 1023).toNat < 2 ^ double.exponentBits := by
    rw [exponentBits_double]
    omega
  rw [Format.round, roundMagnitude_double positive place high split fits, ← fractionBits_double,
    Format.decode_withSign biasedFits fits, if_neg (by rw [exponentBits_double]; omega),
    if_neg (by omega), fractionBits_double, leastExponent_double, split]
  congr 1
  omega

/-- Narrowing that number gives its pattern. -/
theorem round_narrowed :
    single.round negative
        (significand * 2 ^ (52 - significand.log2) * 2 ^ (significand.log2 + exponent - 52).toNat)
        (2 ^ (-(significand.log2 + exponent - 52)).toNat) =
      single.withSign negative ((exponent + 149).toNat * 2 ^ 23 + significand) := by
  obtain ⟨fraction, split, fits⟩ := exists_fraction positive place
  have widePositive : significand * 2 ^ (52 - significand.log2) ≠ 0 := by omega
  have leading : (significand * 2 ^ (52 - significand.log2)).log2 = 52 := by
    rw [Nat.log2_eq_iff widePositive, split]
    omega
  have lastPlace : max single.leastExponent
      ((significand * 2 ^ (52 - significand.log2)).log2 + (significand.log2 + exponent - 52) -
        single.fractionBits) = exponent := by
    rw [leading, leastExponent_single, fractionBits_single]
    omega
  have exact : significand * 2 ^ (52 - significand.log2) *
      2 ^ ((significand.log2 + exponent - 52).toNat + (-exponent).toNat) =
        significand * 2 ^ ((-(significand.log2 + exponent - 52)).toNat + exponent.toNat) := by
    rw [Nat.mul_assoc, ← Nat.pow_add]
    congr 2
    omega
  have short : significand < 2 ^ 24 :=
    Nat.lt_of_lt_of_le Nat.lt_log2_self (Nat.pow_le_pow_right (by decide) (by omega))
  rw [Format.round, single.roundMagnitude_scaled widePositive lastPlace exact,
    leastExponent_single, fractionBits_single, infinity_single, Nat.min_eq_left (by omega)]
  congr 3

end Single

/-- Widening and narrowing a finite number with a significand other than zero. -/
theorem convert_convert_finite {pattern : Nat} {negative : Bool} {significand : Nat}
    {exponent : Int} (decoded : single.decode pattern = .finite negative significand exponent)
    (positive : significand ≠ 0) (place : max (-149) (significand.log2 + exponent - 23) = exponent)
    (high : significand.log2 + exponent ≤ 127) :
    double.decode (single.convert double pattern) ≠ .notANumber ∧
      double.convert single (single.convert double pattern) =
        single.withSign negative ((exponent + 149).toNat * 2 ^ 23 + significand) := by
  have widened : single.convert double pattern =
      double.round negative (significand * 2 ^ exponent.toNat) (2 ^ (-exponent).toNat) := by
    simp only [Format.convert, decoded, powerOfTwo]
  have again : double.decode (double.round negative (significand * 2 ^ exponent.toNat)
        (2 ^ (-exponent).toNat)) =
      .finite negative (significand * 2 ^ (52 - significand.log2))
        (significand.log2 + exponent - 52) :=
    decode_widened positive place high
  rw [widened]
  constructor
  · rw [again]
    simp
  · simp only [Format.convert, again, powerOfTwo]
    exact round_narrowed positive place high

theorem convert_zero {source : Format} (target : Format) {pattern : Nat} {negative : Bool}
    {exponent : Int} (decoded : source.decode pattern = .finite negative 0 exponent) :
    source.convert target pattern = target.withSign negative 0 := by
  simp [Format.convert, decoded, Format.round, Format.roundMagnitude]

theorem convert_convert_zero {pattern : Nat} {negative : Bool} {exponent : Int}
    (decoded : single.decode pattern = .finite negative 0 exponent) :
    double.decode (single.convert double pattern) ≠ .notANumber ∧
      double.convert single (single.convert double pattern) = single.withSign negative 0 := by
  have widened : double.decode (double.withSign negative 0) = .finite negative 0 (-1074) := by
    have parts := @Format.decode_withSign double negative 0 0 (Nat.two_pow_pos _)
      (Nat.two_pow_pos _)
    rwa [Nat.zero_mul, exponentBits_double, if_neg (by omega), if_pos rfl] at parts
  rw [convert_zero double decoded, widened, convert_zero single widened]
  exact ⟨nofun, rfl⟩

/-- A 32-bit number is the same after widening and narrowing. -/
theorem convert_convert {pattern : Nat} (inside : pattern < 2 ^ 32)
    (number : single.decode pattern ≠ .notANumber) :
    double.decode (single.convert double pattern) ≠ .notANumber ∧
      double.convert single (single.convert double pattern) = pattern := by
  obtain ⟨negative, biased, fraction, biasedFits, fractionFits, rfl⟩ :=
    single.exists_parts (show pattern < 2 * single.signWeight from inside)
  have decoded : single.decode (single.withSign negative (biased * 2 ^ 23 + fraction)) =
      if biased = 255 then if fraction = 0 then .infinite negative else .notANumber
      else if biased = 0 then .finite negative fraction (-149)
      else .finite negative (fraction + 2 ^ 23) (-149 + (biased - 1 : Nat)) :=
    Format.decode_withSign biasedFits fractionFits
  rw [exponentBits_single] at biasedFits
  rw [fractionBits_single] at fractionFits number ⊢
  -- The last exponent stands for infinities and not-a-numbers, the first one for zeros and
  -- subnormal numbers, whose leading digit lies anywhere in the fraction.
  by_cases special : biased = 255
  · subst special
    by_cases infinite : fraction = 0
    · subst infinite
      cases negative <;> decide
    · rw [if_pos rfl, if_neg infinite] at decoded
      exact absurd decoded number
  · rw [if_neg special] at decoded
    by_cases low : biased = 0
    · subst low
      by_cases zero : fraction = 0
      · subst zero
        exact convert_convert_zero decoded
      · have digits : fraction.log2 < 23 := (Nat.log2_lt zero).mpr fractionFits
        rw [if_pos rfl] at decoded
        have same := convert_convert_finite decoded zero (by omega) (by omega)
        have magnitude : ((-149 : Int) + 149).toNat * 2 ^ 23 + fraction =
            0 * 2 ^ 23 + fraction := by
          omega
        rw [magnitude] at same
        exact same
    · rw [if_neg low] at decoded
      have positive : fraction + 2 ^ 23 ≠ 0 := by omega
      have digits : (fraction + 2 ^ 23).log2 = 23 := by
        rw [Nat.log2_eq_iff positive]
        omega
      have same := convert_convert_finite decoded positive (by omega) (by omega)
      have magnitude : (-149 + ((biased - 1 : Nat) : Int) + 149).toNat * 2 ^ 23 +
          (fraction + 2 ^ 23) = biased * 2 ^ 23 + fraction := by
        omega
      rw [magnitude] at same
      exact same

theorem isNotANumber_of_isFinite {bits : UInt64} (finite : isFinite bits = true) :
    isNotANumber bits = false := by
  have inside : double.isFinite bits.toNat = true := finite
  simp [isNotANumber, Format.isNotANumber, inside]

/-- What is neither finite nor a not-a-number is an infinity. -/
theorem eq_infinity {bits : UInt64} (infinite : isFinite bits = false)
    (number : isNotANumber bits = false) :
    bits = positiveInfinity ∨ bits = negativeInfinity := by
  have outside : double.isFinite bits.toNat = false := infinite
  obtain ⟨negative, biased, fraction, biasedFits, fractionFits, parts⟩ :=
    double.exists_parts (show bits.toNat < 2 * double.signWeight from bits.toNat_lt)
  have special : biased = 2047 := by
    rw [Format.isFinite, parts, Format.withSign_div_mod biasedFits fractionFits] at outside
    simpa [exponentBits_double] using outside
  have empty : fraction = 0 := by
    rw [isNotANumber, Format.isNotANumber, outside, parts,
      Format.withSign_mod fractionFits] at number
    simpa using number
  subst special empty
  cases negative with
  | false => exact .inl (UInt64.toNat_inj.mp parts)
  | true => exact .inr (UInt64.toNat_inj.mp parts)

theorem Format.infinity_lt (format : Format) : format.infinity < format.signWeight := by
  have positive := Nat.two_pow_pos format.exponentBits
  rw [Format.infinity, Format.signWeight, Nat.pow_add]
  exact Nat.mul_lt_mul_of_pos_right (by omega) (Nat.two_pow_pos _)

theorem Format.withSign_lt {format : Format} {negative : Bool} {magnitude : Nat}
    (inside : magnitude < format.signWeight) :
    format.withSign negative magnitude < 2 * format.signWeight := by
  cases negative with
  | false =>
      simp only [Format.withSign, Bool.false_eq_true, if_false]
      omega
  | true =>
      simp only [Format.withSign, if_true]
      omega

/-- What is converted to 64 bits fits into 64 bits. -/
theorem convert_double_lt (pattern : Nat) : single.convert double pattern < 2 ^ 64 := by
  have infinity := double.infinity_lt
  unfold Format.convert
  split
  · apply Format.withSign_lt
    refine Nat.lt_of_le_of_lt ?_ infinity
    unfold Format.roundMagnitude
    split
    · exact Nat.zero_le _
    · exact Nat.min_le_right _ _
  · exact Format.withSign_lt infinity
  · decide

theorem toNat_widen (bits : UInt32) : (widen bits).toNat = single.convert double bits.toNat := by
  rw [widen, UInt64.toNat_ofNat', Nat.mod_eq_of_lt (convert_double_lt _)]

/-- A 32-bit pattern stands for no number exactly when the widened one does. -/
theorem isNotANumber_widen (bits : UInt32) :
    isNotANumber (widen bits) = single.isNotANumber bits.toNat := by
  rw [isNotANumber, toNat_widen, Bool.eq_iff_iff, Format.isNotANumber_iff, Format.isNotANumber_iff]
  constructor
  · intro wide
    apply Classical.byContradiction
    intro number
    exact (convert_convert bits.toNat_lt number).1 wide
  · intro narrow
    simp only [Format.convert, narrow]
    decide

/-- Narrowing undoes widening, except that it forgets what is in a not-a-number. -/
theorem narrow_widen {bits : UInt32} (number : single.isNotANumber bits.toNat = false) :
    narrow (widen bits) = bits := by
  have decoded : single.decode bits.toNat ≠ .notANumber := by
    rw [Ne, ← Format.isNotANumber_iff, number]
    decide
  rw [narrow, toNat_widen, (convert_convert bits.toNat_lt decoded).2]
  exact UInt32.ofNat_toNat

end RecordCodec.Binary
