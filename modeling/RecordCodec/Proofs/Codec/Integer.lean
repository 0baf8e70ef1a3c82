import RecordCodec.Proofs.Bytes.Confined
import RecordCodec.Proofs.Codec.Scalar

/-!
# Integers in two's complement

An integer scalar of a width holds the integers of one residue system modulo the numbers that its
bytes can spell, from zero on or on both sides of zero.  Its bytes spell the residue, so each of
these integers has its own bytes, and each run of bytes stands for one of them.
-/

namespace RecordCodec

namespace Scalar

/-- The scalar is an integer. -/
def IsInteger : Scalar → Prop
  | .unsigned _ | .signed _ => True
  | _ => False

/-- The integers that an integer scalar holds. -/
def Ranges : Scalar → Int → Prop
  | .unsigned width, number => 0 ≤ number ∧ number < 2 ^ (8 * width.bytes)
  | .signed width, number =>
      -2 ^ (8 * width.bytes - 1) ≤ number ∧ number < 2 ^ (8 * width.bytes - 1)
  | _, _ => False

instance (scalar : Scalar) (number : Int) : Decidable (scalar.Ranges number) :=
  match scalar with
  | .unsigned _ | .signed _ => inferInstanceAs (Decidable (_ ∧ _))
  | .single | .double | .bool | .char => inferInstanceAs (Decidable False)

variable {scalar : Scalar} {value : Value} {number : Int} {run : List UInt8}

theorem wordWidth?_eq_some {size : Nat} {width : WordWidth}
    (found : wordWidth? size = some width) : width.bytes = size := by
  unfold wordWidth? at found
  split at found
  · obtain rfl := Option.some.inj found
    rfl
  · cases found

/-- A declared integer has the declared width. -/
theorem width_of_ofDeclaration {name : String} {size : Nat}
    (declared : ofDeclaration name size = .ok scalar) (integer : scalar.IsInteger) :
    scalar.width = size := by
  have named : named? name size = some scalar := by
    unfold ofDeclaration at declared
    split at declared
    · rename_i found
      rw [found, Except.ok.inj declared]
    · cases declared
  unfold named? at named
  split_ifs at named
  · obtain rfl := Option.some.inj named
    cases integer
  · obtain rfl := Option.some.inj named
    cases integer
  · unfold float? at named
    split_ifs at named
    all_goals
      obtain rfl := Option.some.inj named
      cases integer
  · obtain ⟨width, found, rfl⟩ := Option.map_eq_some_iff.mp named
    exact wordWidth?_eq_some found
  · obtain ⟨width, found, rfl⟩ := Option.map_eq_some_iff.mp named
    exact wordWidth?_eq_some found

theorem fromWord_true (scalar : Scalar) (word : UInt64) :
    scalar.fromWord true word = scalar.ofWord word := by
  cases scalar <;> rfl

/-- An integer has an image exactly if it is in range. -/
theorem admits_iff_ranges (integer : scalar.IsInteger) (holds : value.integer? = some number) :
    scalar.Admits value ↔ scalar.Ranges number := by
  cases scalar with
  | unsigned | signed => simp [Admits, Ranges, holds]
  | single | double | bool | char => cases integer

theorem image_of_not_ranges (integer : scalar.IsInteger) (holds : value.integer? = some number)
    (outside : ¬scalar.Ranges number) :
    scalar.image value = .error (.integerOutOfRange number scalar.width) := by
  cases scalar with
  | unsigned width =>
      have unfit : fits false width.bytes number = false := by
        simpa [Ranges, fits] using outside
      simp [image, integerImage_eq width.positive width.atMostEight _ holds, unfit, Scalar.width]
  | signed width =>
      have unfit : fits true width.bytes number = false := by
        simpa [Ranges, fits] using outside
      simp [image, integerImage_eq width.positive width.atMostEight _ holds, unfit, Scalar.width]
  | single | double | bool | char => cases integer

/-- The bytes of an integer spell its residue. -/
theorem number_bytes (integer : scalar.IsInteger) (holds : value.integer? = some number)
    (inside : scalar.Ranges number) :
    (BigEndian.number (scalar.bytes value) : Int) = number % 2 ^ (8 * scalar.width) := by
  have residue {width : WordWidth} :
      (BigEndian.number (BigEndian.bytes width.bytes (UInt64.ofInt number)) : Int) =
        number % 2 ^ (8 * width.bytes) := by
    rw [BigEndian.number_bytes, ← BigEndian.toNat_word_bytes width.atMostEight,
      toNat_word_bytes_ofInt width.atMostEight, Int.pow_mul]
    rfl
  cases scalar with
  | unsigned width =>
      rw [bytes_unsigned holds inside.1 inside.2]
      exact residue
  | signed width =>
      rw [bytes_signed holds inside.1 inside.2]
      exact residue
  | single | double | bool | char => cases integer

/-- What the bytes of an integer stand for is the integer of the range with their residue. -/
theorem exists_ofWord (integer : scalar.IsInteger) (length : run.length = scalar.width) :
    ∃ number, (scalar.ofWord (BigEndian.word run)).integer? = some number ∧
      scalar.Ranges number ∧ number % 2 ^ (8 * scalar.width) = BigEndian.number run ∧
      scalar.image (scalar.ofWord (BigEndian.word run)) = .ok run := by
  have atMostEight : run.length ≤ 8 := by
    rw [length]
    exact scalar.width_le_eight
  have small := BigEndian.toNat_word_lt atMostEight
  rw [length] at small
  have admits := admits_fromWord small true
  have bytes := bytes_fromWord length (by rintro rfl; cases integer) true
  rw [fromWord_true] at admits bytes
  obtain ⟨number, holds⟩ : ∃ number,
      (scalar.ofWord (BigEndian.word run)).integer? = some number := by
    cases scalar with
    | unsigned | signed => exact ⟨_, rfl⟩
    | single | double | bool | char => cases integer
  have inside := (admits_iff_ranges integer holds).mp admits
  have residue := number_bytes integer holds inside
  rw [bytes] at residue
  refine ⟨number, holds, inside, residue.symm, ?_⟩
  rw [image_eq_bytes admits, bytes]

theorem write_of_image {bytes : List UInt8} (image : scalar.image value = .ok bytes)
    {buffer : Buffer} {offset : Nat} (room : offset + bytes.length ≤ buffer.size) :
    scalar.write value offset buffer = .ok () (buffer.overwrite offset (.ofList bytes)) := by
  unfold write
  rw [image]
  exact Writing.Puts.write buffer room

theorem read_of_holds {buffer : Buffer} {offset : Nat} (holds : buffer.Holds offset run)
    (length : run.length = scalar.width) :
    scalar.read buffer offset = .ok (scalar.ofWord (BigEndian.word run)) := by
  rw [read, ← length, holds.readWord_eq]
  rfl

/-- A declared integer is in two's complement.  Writing an integer puts the bytes of its residue at
the offset and nothing anywhere else, if the integer is in range, and these bytes are read as the
integer; otherwise writing fails and changes nothing.  Every run of bytes is read as an integer in
range, and this integer is written as the same bytes. -/
theorem integers_exact {name : String} {size : Nat} (declared : ofDeclaration name size = .ok scalar)
    (integer : scalar.IsInteger) :
    (1 ≤ size ∧ size ≤ 8) ∧
    (∀ value number, value.integer? = some number → ∀ (buffer : Buffer) (offset : Nat),
      offset + size ≤ buffer.size →
        (scalar.Ranges number →
          ∃ after, scalar.write value offset buffer = .ok () after ∧
            buffer.SameOutside after offset (offset + size) ∧
            (after.numberAt offset size : Int) = number % 2 ^ (8 * size) ∧
            ∃ again, scalar.read after offset = .ok again ∧ again.equal value = true) ∧
        (¬scalar.Ranges number →
          scalar.write value offset buffer = .error (.integerOutOfRange number size) buffer)) ∧
    ∀ run : List UInt8, run.length = size →
      ∃ value number, value.integer? = some number ∧ scalar.Ranges number ∧
        number % 2 ^ (8 * size) = BigEndian.number run ∧
        (∀ (buffer : Buffer) (offset : Nat), buffer.Holds offset run →
          scalar.read buffer offset = .ok value) ∧
        ∀ (buffer : Buffer) (offset : Nat), offset + size ≤ buffer.size →
          ∃ after, scalar.write value offset buffer = .ok () after ∧ after.Holds offset run := by
  obtain rfl := width_of_ofDeclaration declared integer
  refine ⟨⟨?_, scalar.width_le_eight⟩, ?_, ?_⟩
  · cases scalar with
    | unsigned width | signed width => exact width.positive
    | single | double | bool | char => cases integer
  · intro value number holds buffer offset room
    constructor
    · intro inside
      have admits := (admits_iff_ranges integer holds).mpr inside
      have length := length_bytes admits
      rw [← length] at room
      have lies := Buffer.holds_overwrite room
      refine ⟨_, write_of_image (image_eq_bytes admits) room, ?_, ?_, _,
        read_of_holds lies length, ?_⟩
      · rw [← length, ← Buffer.size_ofList]
        exact Buffer.sameOutside_overwrite (by rwa [Buffer.size_ofList])
      · rw [← number_bytes integer holds inside, ← lies.numberAt_eq, length]
      · rw [← fromWord_true]
        refine equal_fromWord admits ?_
        cases scalar with
        | unsigned | signed => exact True.intro
        | single | double | bool | char => cases integer
    · intro outside
      unfold write
      rw [image_of_not_ranges integer holds outside]
      rfl
  · intro run length
    obtain ⟨number, holds, inside, residue, image⟩ := exists_ofWord integer length
    refine ⟨_, number, holds, inside, residue,
      fun buffer offset lies => read_of_holds lies length, ?_⟩
    intro buffer offset room
    rw [← length] at room
    exact ⟨_, write_of_image image room, Buffer.holds_overwrite room⟩

/-- Three bytes hold the integers from -2 ^ 23 on. -/
theorem sample_short_integer :
    ∃ scalar, ofDeclaration "i24" 3 = .ok scalar ∧
      (∃ after, scalar.write (.signed (-2)) 1 (Buffer.zeros 5) = .ok () after ∧
        (after.numberAt 1 3 : Int) = 0xfffffe ∧
        ∃ again, scalar.read after 1 = .ok again ∧ again.equal (.signed (-2)) = true) ∧
      scalar.write (.unsigned 0x800000) 1 (Buffer.zeros 5) =
        .error (.integerOutOfRange 0x800000 3) (Buffer.zeros 5) ∧
      ∃ value, scalar.read (.ofList [0x80, 0, 0]) 0 = .ok value ∧
        value.integer? = some (-0x800000) := by
  have declared : ofDeclaration "i24" 3 = .ok (.signed ⟨3, by decide, by decide⟩) := by
    decide +kernel
  obtain ⟨-, writes, reads⟩ := integers_exact declared True.intro
  have room : 1 + 3 ≤ (Buffer.zeros 5).size := by decide
  obtain ⟨after, written, -, spelled, again⟩ :=
    (writes (.signed (-2)) (-2) rfl _ 1 room).1 (by decide)
  have refused := (writes (.unsigned 0x800000) 0x800000 rfl _ 1 room).2 (by decide)
  obtain ⟨value, number, holds, inside, residue, read, -⟩ := reads [0x80, 0, 0] rfl
  have least : number = -0x800000 := by
    have residue : number % 0x1000000 = 0x800000 := residue
    have inside : -0x800000 ≤ number ∧ number < 0x800000 := inside
    omega
  rw [least] at holds
  exact ⟨_, declared, ⟨after, written, spelled, again⟩, refused,
    value, read _ 0 (Buffer.holds_ofList _), holds⟩

end Scalar

end RecordCodec
