import Mathlib.Tactic.SplitIfs
import RecordCodec.Text.Character

/-!
# Hexadecimal digits and their values

A value is read from its digit in either case.  The digits are all in ASCII, so that what holds of
them is found out by looking at these characters one by one.
-/

namespace RecordCodec

namespace HexDigit

/-- The character is a digit of either case. -/
def Named (character : Char) : Prop :=
  character ∈ "0123456789abcdefABCDEF".toList

instance (character : Char) : Decidable (Named character) :=
  inferInstanceAs (Decidable (character ∈ _))

/-- The character is the digit of the value, in either case. -/
def Denotes (character : Char) (value : Nat) : Prop :=
  "0123456789abcdef".toList[value]? = some character ∨
    "0123456789ABCDEF".toList[value]? = some character

instance (character : Char) (value : Nat) : Decidable (Denotes character value) :=
  inferInstanceAs (Decidable (_ ∨ _))

private theorem value?_ascii : ∀ code < 128,
    value? (Char.ofNat code).toLower = value? (Char.ofNat code) ∧
      (value? (Char.ofNat code)).all (fun value =>
        (Char.ofNat code).toLower = ofValue value && Denotes (Char.ofNat code) value) = true := by
  decide +kernel

private theorem value?_digits : ∀ value < 16, value? (ofValue value) = some value ∧
    "0123456789abcdef".toList[value]?.all (value? · = some value) = true ∧
    "0123456789ABCDEF".toList[value]?.all (value? · = some value) = true := by
  decide +kernel

theorem value?_ofValue {value : Nat} (small : value < 16) : value? (ofValue value) = some value :=
  (value?_digits value small).1

private theorem named_ascii : ∀ code < 128,
    (Named (Char.ofNat code) ↔ (value? (Char.ofNat code)).isSome = true) := by
  decide +kernel

private theorem digits_plain : "0123456789abcdefABCDEF".toList.all (fun character =>
    character.toNat < 128 && character.utf8Size = 1 && !Text.isBlank character) = true := by
  decide +kernel

theorem plain_of_named {character : Char} (named : Named character) :
    character.toNat < 128 ∧ character.utf8Size = 1 ∧ Text.isBlank character = false := by
  have plain := List.all_eq_true.mp digits_plain character named
  simpa [and_assoc] using plain

theorem value?_eq_none_of_not_ascii {character : Char} (large : 128 ≤ character.toNat) :
    value? character = none := by
  unfold value?
  dsimp only
  rw [if_neg (by omega), if_neg (by omega), if_neg (by omega)]

/-- Only the letters of ASCII have a lowercase form. -/
theorem toLower_of_not_ascii {character : Char} (large : 128 ≤ character.toNat) :
    character.toLower = character := by
  have behind : ¬(character.val ≥ 'A'.val ∧ character.val ≤ 'Z'.val) := by
    rintro ⟨-, atMost⟩
    have below : character.toNat ≤ 90 := UInt32.le_iff_toNat_le.mp atMost
    omega
  exact dif_neg behind

theorem value?_toLower (character : Char) : value? character.toLower = value? character := by
  rcases Nat.lt_or_ge character.toNat 128 with ascii | large
  · have same := (value?_ascii character.toNat ascii).1
    rwa [Char.ofNat_toNat] at same
  · rw [toLower_of_not_ascii large]

theorem lt_of_value? {character : Char} {value : Nat} (found : value? character = some value) :
    value < 16 := by
  unfold value? at found
  dsimp only at found
  split_ifs at found with decimal upper lower
  all_goals
    obtain rfl := Option.some.inj found
    omega

theorem digit_of_value? {character : Char} {value : Nat} (found : value? character = some value) :
    character.toLower = ofValue value ∧ Denotes character value := by
  rcases Nat.lt_or_ge character.toNat 128 with ascii | large
  · have both := (value?_ascii character.toNat ascii).2
    rw [Char.ofNat_toNat, found] at both
    simpa using both
  · rw [value?_eq_none_of_not_ascii large] at found
    cases found

/-- A character has a value exactly if its lowercase form is the digit of the value. -/
theorem value?_eq_some_iff {character : Char} {value : Nat} (small : value < 16) :
    value? character = some value ↔ character.toLower = ofValue value := by
  refine ⟨fun found => (digit_of_value? found).1, fun written => ?_⟩
  rw [← value?_toLower, written]
  exact value?_ofValue small

theorem denotes_iff {character : Char} {value : Nat} :
    Denotes character value ↔ value? character = some value := by
  refine ⟨?_, fun found => (digit_of_value? found).2⟩
  rintro (lower | upper)
  · have small : value < 16 := (List.getElem?_eq_some_iff.mp lower).1
    have found := (value?_digits value small).2.1
    rw [lower] at found
    simpa using found
  · have small : value < 16 := (List.getElem?_eq_some_iff.mp upper).1
    have found := (value?_digits value small).2.2
    rw [upper] at found
    simpa using found

theorem named_iff {character : Char} : Named character ↔ (value? character).isSome = true := by
  rcases Nat.lt_or_ge character.toNat 128 with ascii | large
  · have both := named_ascii character.toNat ascii
    rwa [Char.ofNat_toNat] at both
  · rw [value?_eq_none_of_not_ascii large]
    exact ⟨fun named => absurd (plain_of_named named).1 (Nat.not_lt.mpr large), nofun⟩

theorem Denotes.named {character : Char} {value : Nat} (denotes : Denotes character value) :
    Named character := by
  rw [named_iff, denotes_iff.mp denotes]
  rfl

theorem exists_value_of_named {character : Char} (named : Named character) :
    ∃ value, value? character = some value :=
  Option.isSome_iff_exists.mp (named_iff.mp named)

theorem value?_eq_none_of_not_named {character : Char} (other : ¬Named character) :
    value? character = none := by
  rwa [named_iff, Bool.not_eq_true, Option.isSome_eq_false_iff, Option.isNone_iff_eq_none] at other

end HexDigit

end RecordCodec
