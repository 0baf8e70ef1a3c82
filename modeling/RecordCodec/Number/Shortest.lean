import RecordCodec.Number.Binary

/-!
# Shortest decimals

A finite number is written with the fewest decimal digits that read back as
the same number.  Of the decimals with that many digits the nearest one is
taken, a tie going to the even one.
-/

namespace RecordCodec.Shortest

/-- The decimal number `digits * 10 ^ exponent`. -/
structure Decimal where
  digits : Nat
  /-- The power of ten by which it is scaled. -/
  exponent : Int
deriving DecidableEq

/-- The decimal rounds to the positive number with the given bits. -/
def readsBack (bits : UInt64) (decimal : Decimal) : Bool :=
  Binary.ofDecimal false decimal.digits decimal.exponent == bits

/--
The multiple of `10 ^ exponent` that reads back, if the quotient has such a
neighbour.  The nearer of the two neighbours is tried first.
-/
def onGrid (bits : UInt64) (numerator denominator : Nat) (exponent : Int) : Option Decimal :=
  let scaledNumerator := numerator * 10 ^ (-exponent).toNat
  let scaledDenominator := denominator * 10 ^ exponent.toNat
  let lower := scaledNumerator / scaledDenominator
  let nearer := Binary.roundQuotient scaledNumerator scaledDenominator
  let farther := if nearer = lower then lower + 1 else lower
  [nearer, farther].map (⟨·, exponent⟩) |>.find? (readsBack bits)

/-- Tries ever finer grids and takes the first one with a decimal that reads back. -/
def search (bits : UInt64) (numerator denominator : Nat) : (steps : Nat) → Int → Decimal
  | 0, exponent =>
      ⟨numerator * 10 ^ (-exponent).toNat / (denominator * 10 ^ exponent.toNat), exponent⟩
  | steps + 1, exponent =>
      match onGrid bits numerator denominator exponent with
      | some decimal => decimal
      | none => search bits numerator denominator steps (exponent - 1)

/-- A power of ten above `2 ^ (exponent + 1)`, at most two powers too high. -/
def coarsestGrid (exponent : Int) : Int :=
  exponent * 30103 / 100000 + 2

/--
The shortest decimal of the positive finite number with the given bits.  It is
found within twenty grids, because seventeen digits always suffice.
-/
def ofPositive (bits : UInt64) : Decimal :=
  match Binary.double.decode bits.toNat with
  | .finite _ significand exponent =>
      let (up, down) := Binary.powerOfTwo exponent
      search bits (significand * up) down 21
        (coarsestGrid (Binary.Format.leadingExponent (significand * up) down))
  | _ => ⟨0, 0⟩

end RecordCodec.Shortest
