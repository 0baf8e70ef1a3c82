import RecordCodec.Bytes.Hex
import RecordCodec.Proofs.Text.HexDigit

/-!
# Pairs of digits and the bytes that they spell

Reading is compared with writing: digits spell exactly the bytes whose digits they are once all
letters are in lowercase.  Of a decoder of digits no more is asked than to yield the bytes that are
spelled and to name the first byte that is no digit, and the decoder at hand does both.
-/

namespace RecordCodec

namespace Hex

/-- The characters are the digits of the bytes, two for each of them, in either case. -/
inductive Spells : List Char → List UInt8 → Prop
  | nil : Spells [] []
  | cons {high low : Char} {highValue lowValue : Nat} {rest : List Char} {bytes : List UInt8} :
      HexDigit.Denotes high highValue → HexDigit.Denotes low lowValue → Spells rest bytes →
        Spells (high :: low :: rest) (.ofNat (16 * highValue + lowValue) :: bytes)

/-- The two digits of a byte, in either case. -/
theorem map_toLower_eq_digits_iff {high low : Char} {byte : UInt8} :
    [high.toLower, low.toLower] = digits byte ↔
      ∃ highValue lowValue, HexDigit.value? high = some highValue ∧
        HexDigit.value? low = some lowValue ∧ byte = .ofNat (16 * highValue + lowValue) := by
  have bound := byte.toNat_lt
  have split : byte = .ofNat (16 * (byte.toNat / 16) + byte.toNat % 16) := by
    rw [Nat.div_add_mod, UInt8.ofNat_toNat]
  simp only [digits, List.cons.injEq, and_true]
  constructor
  · rintro ⟨first, second⟩
    exact ⟨_, _, (HexDigit.value?_eq_some_iff (by omega)).mpr first,
      (HexDigit.value?_eq_some_iff (by omega)).mpr second, split⟩
  · rintro ⟨highValue, lowValue, first, second, rfl⟩
    have highSmall := HexDigit.lt_of_value? first
    have lowSmall := HexDigit.lt_of_value? second
    have number : (UInt8.ofNat (16 * highValue + lowValue)).toNat = 16 * highValue + lowValue := by
      rw [UInt8.toNat_ofNat', Nat.mod_eq_of_lt (by omega)]
    rw [number, show (16 * highValue + lowValue) / 16 = highValue by omega,
      show (16 * highValue + lowValue) % 16 = lowValue by omega]
    exact ⟨(HexDigit.value?_eq_some_iff highSmall).mp first,
      (HexDigit.value?_eq_some_iff lowSmall).mp second⟩

theorem spells_cons_cons_iff {high low : Char} {rest : List Char} {byte : UInt8}
    {bytes : List UInt8} :
    Spells (high :: low :: rest) (byte :: bytes) ↔
      [high.toLower, low.toLower] = digits byte ∧ Spells rest bytes := by
  simp only [map_toLower_eq_digits_iff, ← HexDigit.denotes_iff]
  constructor
  · rintro (_ | ⟨first, second, others⟩)
    exact ⟨⟨_, _, first, second, rfl⟩, others⟩
  · rintro ⟨⟨_, _, first, second, rfl⟩, others⟩
    exact .cons first second others

/-- In lowercase, characters that spell bytes are what the bytes are written as. -/
theorem spells_iff : ∀ {characters : List Char} {bytes : List UInt8},
    Spells characters bytes ↔ characters.map Char.toLower = bytes.flatMap digits
  | [], [] => ⟨fun _ => rfl, fun _ => .nil⟩
  | [], byte :: bytes => ⟨nofun, nofun⟩
  | [character], [] => ⟨nofun, nofun⟩
  | [character], byte :: bytes => ⟨nofun, fun same => by simp [digits] at same⟩
  | high :: low :: rest, [] => ⟨nofun, nofun⟩
  | high :: low :: rest, byte :: bytes => by
      have others := @spells_iff rest bytes
      rw [spells_cons_cons_iff, others]
      constructor
      · rintro ⟨first, second⟩
        calc (high :: low :: rest).map Char.toLower
            = [high.toLower, low.toLower] ++ rest.map Char.toLower := rfl
          _ = digits byte ++ bytes.flatMap digits := by rw [first, second]
      · intro whole
        have whole : [high.toLower, low.toLower] ++ rest.map Char.toLower =
            digits byte ++ bytes.flatMap digits := whole
        exact List.append_inj whole rfl

/-- An even number of digits spells bytes, and nothing else does. -/
theorem exists_spells_iff : ∀ {characters : List Char},
    (∃ bytes, Spells characters bytes) ↔
      characters.length % 2 = 0 ∧ ∀ character ∈ characters, HexDigit.Named character
  | [] => ⟨fun _ => ⟨rfl, nofun⟩, fun _ => ⟨[], .nil⟩⟩
  | [character] => ⟨nofun, fun both => absurd both.1 Nat.one_ne_zero⟩
  | high :: low :: rest => by
      have others := @exists_spells_iff rest
      have parity : (high :: low :: rest).length % 2 = rest.length % 2 := Nat.add_mod_right _ 2
      rw [parity, List.forall_mem_cons, List.forall_mem_cons]
      constructor
      · rintro ⟨_, _ | ⟨first, second, read⟩⟩
        obtain ⟨even, named⟩ := others.mp ⟨_, read⟩
        exact ⟨even, first.named, second.named, named⟩
      · rintro ⟨even, ofHigh, ofLow, named⟩
        obtain ⟨bytes, read⟩ := others.mpr ⟨even, named⟩
        obtain ⟨highValue, first⟩ := HexDigit.exists_value_of_named ofHigh
        obtain ⟨lowValue, second⟩ := HexDigit.exists_value_of_named ofLow
        exact ⟨_, .cons (HexDigit.denotes_iff.mpr first) (HexDigit.denotes_iff.mpr second) read⟩

/-- What is asked of a decoder.  It looks at the number of the digits first, and then names the
first of them that is none. -/
structure Decoder.Lawful (decode : Decoder) : Prop where
  odd {digits : List UInt8} : digits.length % 2 = 1 → decode digits = .error .oddLength
  strange {front behind : List UInt8} {byte : UInt8} :
    (front ++ byte :: behind).length % 2 = 0 → (∀ other ∈ front, HexDigit.Named (letter other)) →
      ¬HexDigit.Named (letter byte) →
        decode (front ++ byte :: behind) = .error (.character front.length)
  spelled {digits bytes : List UInt8} : Spells (digits.map letter) bytes → decode digits = .ok bytes

theorem decodePairs_of_spells : ∀ {digits bytes : List UInt8} (index : Nat),
    Spells (digits.map letter) bytes → decodePairs index digits = .ok bytes
  | [], bytes, index, spelled => by
      rcases spelled with _ | _
      rfl
  | [digit], bytes, index, spelled => nomatch spelled
  | high :: low :: rest, bytes, index, spelled => by
      rcases spelled with _ | ⟨first, second, others⟩
      simp only [decodePairs, HexDigit.denotes_iff.mp first, HexDigit.denotes_iff.mp second,
        decodePairs_of_spells (index + 2) others]
      rfl

/-- The first byte that is no digit is named, wherever its pair begins. -/
theorem decodePairs_strange : ∀ {front behind : List UInt8} {byte : UInt8} (index : Nat),
    (front ++ byte :: behind).length % 2 = 0 →
      (∀ other ∈ front, HexDigit.Named (letter other)) → ¬HexDigit.Named (letter byte) →
        decodePairs index (front ++ byte :: behind) = .error (.character (index + front.length))
  | [], behind, byte, index, even, _, other => by
      have none := HexDigit.value?_eq_none_of_not_named other
      cases behind with
      | nil => exact absurd even Nat.one_ne_zero
      | cons next rest =>
          simp only [List.nil_append, decodePairs, none]
          rfl
  | [high], behind, byte, index, _, named, other => by
      have none := HexDigit.value?_eq_none_of_not_named other
      obtain ⟨value, first⟩ := HexDigit.exists_value_of_named (named high List.mem_cons_self)
      simp only [List.cons_append, List.nil_append, decodePairs, none, first]
      rfl
  | high :: low :: rest, behind, byte, index, even, named, other => by
      obtain ⟨ofHigh, named⟩ := List.forall_mem_cons.mp named
      obtain ⟨ofLow, named⟩ := List.forall_mem_cons.mp named
      obtain ⟨highValue, first⟩ := HexDigit.exists_value_of_named ofHigh
      obtain ⟨lowValue, second⟩ := HexDigit.exists_value_of_named ofLow
      have even : (rest ++ byte :: behind).length % 2 = 0 := by
        simp only [List.cons_append, List.length_cons] at even
        omega
      have place : index + 2 + rest.length = index + (high :: low :: rest).length := by
        simp only [List.length_cons]
        omega
      simp only [List.cons_append, decodePairs, first, second,
        decodePairs_strange (index + 2) even named other, ← place]
      rfl

theorem decode_lawful : Decoder.Lawful decode where
  odd odd := if_pos odd
  strange even named other := by
    have read := decodePairs_strange 0 even named other
    rw [Nat.zero_add] at read
    rw [decode, if_neg (by omega), read]
  spelled {digits bytes} spelled := by
    have even : digits.length % 2 = 0 :=
      List.length_map letter ▸ (exists_spells_iff.mp ⟨bytes, spelled⟩).1
    rw [decode, if_neg (by omega), decodePairs_of_spells 0 spelled]

end Hex

end RecordCodec
