/-!
# Binary floating-point numbers

A number is kept as the bits of its IEEE 754 interchange format, so a not-a-number
keeps its payload and a zero its sign.  `Format.round` gives the bits of the
number nearest to a quotient, a tie going to the even one; reading decimals,
converting integers and changing the format are all instances of it.
-/

-- A power is that of the core library, whatever else a module imports, so that a bound such as
-- `2 ^ 64` is the same term where it is computed and where something is proved about it.
attribute [instance (20000)] instPowNat

attribute [default_instance 20000] instPowNat

namespace RecordCodec.Binary

/-- A binary interchange format: a sign, an exponent and a fraction. -/
structure Format where
  exponentBits : Nat
  fractionBits : Nat

def single : Format := ⟨8, 23⟩

def double : Format := ⟨11, 52⟩

/-- What a bit pattern stands for.  A finite number is `significand * 2 ^ exponent`. -/
inductive Datum
  | finite (negative : Bool) (significand : Nat) (exponent : Int)
  | infinite (negative : Bool)
  | notANumber
deriving DecidableEq

/-- `2 ^ exponent` as a quotient. -/
def powerOfTwo (exponent : Int) : Nat × Nat :=
  (2 ^ exponent.toNat, 2 ^ (-exponent).toNat)

/-- The quotient rounded to the nearest natural number, a tie to the even one. -/
def roundQuotient (numerator denominator : Nat) : Nat :=
  let quotient := numerator / denominator
  let twice := 2 * (numerator % denominator)
  if twice < denominator then quotient
  else if denominator < twice then quotient + 1
  else quotient + quotient % 2

namespace Format

/-- The exponent of the last place of the least normal number. -/
def leastExponent (format : Format) : Int :=
  2 - 2 ^ (format.exponentBits - 1) - format.fractionBits

/-- The pattern of positive infinity, which is above those of all finite numbers. -/
def infinity (format : Format) : Nat :=
  (2 ^ format.exponentBits - 1) * 2 ^ format.fractionBits

def signWeight (format : Format) : Nat :=
  2 ^ (format.exponentBits + format.fractionBits)

def withSign (format : Format) (negative : Bool) (magnitude : Nat) : Nat :=
  if negative then magnitude + format.signWeight else magnitude

/-- What the low bits of a natural number stand for. -/
def decode (format : Format) (pattern : Nat) : Datum :=
  let fraction := pattern % 2 ^ format.fractionBits
  let biased := pattern / 2 ^ format.fractionBits % 2 ^ format.exponentBits
  let negative := pattern / format.signWeight % 2 == 1
  if biased = 2 ^ format.exponentBits - 1 then
    if fraction = 0 then .infinite negative else .notANumber
  else if biased = 0 then .finite negative fraction format.leastExponent
  else .finite negative (fraction + 2 ^ format.fractionBits)
    (format.leastExponent + (biased - 1 : Nat))

/-- The exponent of the first binary digit of a positive quotient. -/
def leadingExponent (numerator denominator : Nat) : Int :=
  let estimate : Int := (Nat.log2 numerator : Int) - Nat.log2 denominator
  let (up, down) := powerOfTwo estimate
  if numerator * down < denominator * up then estimate - 1 else estimate

/-- The exponent of the last place that a positive quotient keeps in the format. -/
def lastPlace (format : Format) (numerator denominator : Nat) : Int :=
  max format.leastExponent (leadingExponent numerator denominator - format.fractionBits)

/--
The pattern of the magnitude nearest to a quotient.  A quotient that rounds
past the greatest finite number gives infinity.  Counting the places above the
least one makes the carry into the next exponent come out by itself.
-/
def roundMagnitude (format : Format) (numerator denominator : Nat) : Nat :=
  if numerator = 0 then 0 else
    let place := format.lastPlace numerator denominator
    let (up, down) := powerOfTwo place
    let kept := roundQuotient (numerator * down) (denominator * up)
    let magnitude := (place - format.leastExponent).toNat * 2 ^ format.fractionBits + kept
    min magnitude format.infinity

/-- The pattern of the number nearest to a quotient with a sign. -/
def round (format : Format) (negative : Bool) (numerator denominator : Nat) : Nat :=
  format.withSign negative (format.roundMagnitude numerator denominator)

/-- The pattern of the quiet not-a-number without payload. -/
def quiet (format : Format) : Nat :=
  format.infinity + 2 ^ (format.fractionBits - 1)

/-- The pattern in another format of the nearest number. -/
def convert (source target : Format) (pattern : Nat) : Nat :=
  match source.decode pattern with
  | .finite negative significand exponent =>
      let (up, down) := powerOfTwo exponent
      target.round negative (significand * up) down
  | .infinite negative => target.withSign negative target.infinity
  | .notANumber => target.quiet

/-- The pattern stands for a number other than an infinity. -/
def isFinite (format : Format) (pattern : Nat) : Bool :=
  pattern / 2 ^ format.fractionBits % 2 ^ format.exponentBits != 2 ^ format.exponentBits - 1

def isNotANumber (format : Format) (pattern : Nat) : Bool :=
  !format.isFinite pattern && pattern % 2 ^ format.fractionBits != 0

end Format

def widen (bits : UInt32) : UInt64 :=
  UInt64.ofNat (single.convert double bits.toNat)

def narrow (bits : UInt64) : UInt32 :=
  UInt32.ofNat (double.convert single bits.toNat)

def ofInt (value : Int) : UInt64 :=
  UInt64.ofNat (double.round (decide (value < 0)) value.natAbs 1)

/-- The quiet not-a-number of 32 bits. -/
def quietSingle : UInt32 := 0x7fc00000

/-- The quiet not-a-number of 64 bits. -/
def quietDouble : UInt64 := 0x7ff8000000000000

def positiveInfinity : UInt64 := 0x7ff0000000000000

def negativeInfinity : UInt64 := 0xfff0000000000000

/-- The 64 bits stand for a number other than an infinity. -/
def isFinite (bits : UInt64) : Bool :=
  double.isFinite bits.toNat

def isNotANumber (bits : UInt64) : Bool :=
  double.isNotANumber bits.toNat

/--
The 64-bit number nearest to `digits * 10 ^ exponent`, infinite if that is too
large.  Decimals far outside the range are settled without raising the power:
a number of `n + 1` binary digits lies between `10 ^ (n / 4)` and `10 ^ (n + 1)`.
-/
def ofDecimal (negative : Bool) (digits : Nat) (exponent : Int) : UInt64 :=
  let binaryDigits : Int := Nat.log2 digits
  let magnitude :=
    if digits = 0 then 0
    else if 400 < exponent + binaryDigits / 4 then double.infinity
    else if exponent + binaryDigits < -400 then 0
    else double.roundMagnitude (digits * 10 ^ exponent.toNat) (10 ^ (-exponent).toNat)
  UInt64.ofNat (double.withSign negative magnitude)

end RecordCodec.Binary
