import RecordCodec.Proofs.Bytes.Buffer
import RecordCodec.Proofs.Codec.Decode
import RecordCodec.Proofs.Codec.Image

/-!
# Words of flags

A word of flags is read as the names of all flags inside it, which may be more
than were combined and, where flags overlap, spell fewer bits.  Combining those
names again does not change what the word contains, so reading a combination
is idempotent.
-/

namespace RecordCodec

/-- The bit of a word at a position. -/
def bitAt (word : UInt64) (position : Nat) : Bool :=
  word.toBitVec.getLsbD position

theorem eq_of_bitAt_eq {first second : UInt64}
    (bits : ∀ position, bitAt first position = bitAt second position) : first = second := by
  apply UInt64.toBitVec_inj.mp
  exact BitVec.eq_of_getLsbD_eq fun position _ => bits position

@[simp] theorem bitAt_or (first second : UInt64) (position : Nat) :
    bitAt (first ||| second) position = (bitAt first position || bitAt second position) := by
  simp [bitAt]

@[simp] theorem bitAt_and (first second : UInt64) (position : Nat) :
    bitAt (first &&& second) position = (bitAt first position && bitAt second position) := by
  simp [bitAt]

@[simp] theorem bitAt_zero (position : Nat) : bitAt 0 position = false := by
  simp [bitAt]

/-- A word has all bits of another one. -/
theorem and_eq_right_iff {whole part : UInt64} :
    whole &&& part = part ↔
      ∀ position, bitAt part position = true → bitAt whole position = true := by
  constructor
  · intro same position present
    rw [← same, bitAt_and, Bool.and_eq_true] at present
    exact present.1
  · intro within
    apply eq_of_bitAt_eq
    intro position
    rw [bitAt_and]
    cases present : bitAt part position with
    | false => simp
    | true => simp [within position present]

theorem and_not_eq_zero_iff {word mask : UInt64} :
    word &&& ~~~mask = 0 ↔ ∀ position, bitAt word position = true → bitAt mask position = true := by
  have bitAt_not (position : Nat) (inside : position < 64) :
      bitAt (~~~mask) position = !bitAt mask position := by
    simp [bitAt, inside]
  constructor
  · intro clear position present
    have inside : position < 64 := BitVec.lt_of_getLsbD present
    have absent := congrArg (fun bits => bitAt bits position) clear
    simpa [present, bitAt_not position inside] using absent
  · intro within
    apply eq_of_bitAt_eq
    intro position
    rw [bitAt_and, bitAt_zero]
    cases present : bitAt word position with
    | false => simp
    | true =>
        have inside : position < 64 := BitVec.lt_of_getLsbD present
        simp [bitAt_not position inside, within position present]

namespace Constant

/-- The word with the bits of all constants of a list. -/
def joined (constants : List Constant) : UInt64 :=
  constants.foldl (fun bits constant => bits ||| constant.value) 0

theorem bitAt_joined {constants : List Constant} {position : Nat} :
    bitAt (joined constants) position = true ↔
      ∃ constant ∈ constants, bitAt constant.value position = true := by
  suffices general : ∀ start : UInt64,
      bitAt (constants.foldl (fun bits constant => bits ||| constant.value) start) position = true ↔
        bitAt start position = true ∨
          ∃ constant ∈ constants, bitAt constant.value position = true by
    simpa [joined] using general 0
  induction constants with
  | nil => simp
  | cons constant rest ih =>
      intro start
      simp [ih, or_assoc]

end Constant

namespace ConstantSet

variable {set : ConstantSet}

theorem bitAt_mask {position : Nat} :
    bitAt set.mask position = true ↔
      ∃ constant ∈ set.constants, bitAt constant.value position = true :=
  Constant.bitAt_joined

/-- Declared constants are combined to the word with all their bits. -/
theorem combine_names (wellFormed : set.WellFormed) {chosen : List Constant}
    (declared : chosen ⊆ set.constants) :
    set.combine (chosen.map Constant.name) = .ok (Constant.joined chosen) := by
  unfold combine Constant.joined
  generalize (0 : UInt64) = start
  induction chosen generalizing start with
  | nil => rfl
  | cons constant rest ih =>
      obtain ⟨member, others⟩ := List.cons_subset.mp declared
      have value : set.valueOf constant.name = .ok constant.value := by
        rw [valueOf, wellFormed.withName?_eq_some.mpr ⟨member, rfl⟩]
      rw [List.map_cons, List.foldlM_cons, value]
      exact ih others (start ||| constant.value)

/-- The bits of combined constants are those of the constants. -/
theorem bitAt_combine {names : List String} {word : UInt64}
    (combined : set.combine names = .ok word) (position : Nat) :
    bitAt word position = true ↔
      ∃ name ∈ names, ∃ constant, set.withName? name = some constant ∧
        bitAt constant.value position = true := by
  suffices general : ∀ start : UInt64,
      names.foldlM (fun bits name => do return bits ||| (← set.valueOf name)) start = .ok word →
      (bitAt word position = true ↔ bitAt start position = true ∨
        ∃ name ∈ names, ∃ constant, set.withName? name = some constant ∧
          bitAt constant.value position = true) by
    simpa using general 0 combined
  clear combined
  induction names with
  | nil =>
      intro start folded
      rw [List.foldlM_nil, pure_eq_ok] at folded
      simp [folded]
  | cons name rest ih =>
      intro start folded
      simp only [List.foldlM_cons, bind_eq_ok, pure_eq_ok] at folded
      obtain ⟨_, ⟨value, known, rfl⟩, folded⟩ := folded
      rw [ih _ folded]
      unfold valueOf at known
      split at known
      · rename_i constant found
        obtain rfl := Except.ok.inj known
        simp [found, or_assoc]
      · cases known

/-- Words with no other bits than the constants of a set stand for the flags inside them. -/
theorem flagsOfWord_eq_ok_iff {word : UInt64} {names : List String} :
    set.flagsOfWord word = .ok names ↔
      (∀ position, bitAt word position = true → bitAt set.mask position = true) ∧
        names = set.contained word := by
  rw [← and_not_eq_zero_iff]
  simp only [flagsOfWord]
  split
  · rename_i known
    simp [known, eq_comm]
  · rename_i unknown
    simp [unknown]

/-- The word of combined constants has no bits besides theirs. -/
theorem bitAt_mask_of_combine {names : List String} {word : UInt64}
    (combined : set.combine names = .ok word) (position : Nat)
    (present : bitAt word position = true) : bitAt set.mask position = true := by
  obtain ⟨name, -, constant, found, bit⟩ := (bitAt_combine combined position).mp present
  exact bitAt_mask.mpr ⟨constant, List.mem_of_find?_eq_some found, bit⟩

theorem combine_lt (wellFormed : set.WellFormed) {names : List String} {word : UInt64}
    (combined : set.combine names = .ok word) : word.toNat < 256 ^ set.width.bytes := by
  rw [show (256 : Nat) = 2 ^ 8 from rfl, ← Nat.pow_mul]
  apply Nat.lt_pow_two_of_testBit
  intro position beyond
  rw [← Bool.not_eq_true]
  intro present
  obtain ⟨name, -, constant, found, bit⟩ := (bitAt_combine combined position).mp present
  have fits := wellFormed.fits constant (List.mem_of_find?_eq_some found)
  rw [show (256 : Nat) = 2 ^ 8 from rfl, ← Nat.pow_mul] at fits
  have absent : constant.value.toNat.testBit position = false :=
    Nat.testBit_lt_two_pow (Nat.lt_of_lt_of_le fits (Nat.pow_le_pow_right (by decide) beyond))
  exact absurd (bit.symm.trans absent) (by decide)

theorem bytes_flagsWord {names : List String} {word : UInt64}
    (combined : set.combine names = .ok word) :
    set.bytes (set.flagsWord (.flags names)) = BigEndian.bytes set.width.bytes word := by
  simp [flagsWord, combined, ConstantSet.bytes]

theorem word_bytes_flagsWord (wellFormed : set.WellFormed) {names : List String} {word : UInt64}
    (combined : set.combine names = .ok word) :
    BigEndian.word (set.bytes (set.flagsWord (.flags names))) = word := by
  rw [bytes_flagsWord combined]
  exact BigEndian.word_bytes set.width.atMostEight (combine_lt wellFormed combined)

/-- The constants with bits, all of which are in a word. -/
def inside (set : ConstantSet) (word : UInt64) : List Constant :=
  set.constants.filter fun constant =>
    constant.value != 0 && word &&& constant.value == constant.value

theorem mem_inside {word : UInt64} {constant : Constant} :
    constant ∈ set.inside word ↔
      constant ∈ set.constants ∧ constant.value ≠ 0 ∧ word &&& constant.value = constant.value := by
  simp [inside]

/-- The flags inside a word can be combined. -/
theorem combine_contained (wellFormed : set.WellFormed) (word : UInt64) :
    set.combine (set.contained word) = .ok (Constant.joined (set.inside word)) :=
  combine_names wellFormed (List.filter_subset_self _)

/-- The flags inside a word together contain the same flags as the word. -/
theorem contained_joined_inside (word : UInt64) :
    set.contained (Constant.joined (set.inside word)) = set.contained word := by
  have within : ∀ position, bitAt (Constant.joined (set.inside word)) position = true →
      bitAt word position = true := by
    intro position present
    obtain ⟨constant, among, bit⟩ := Constant.bitAt_joined.mp present
    exact and_eq_right_iff.mp (mem_inside.mp among).2.2 position bit
  unfold contained
  congr 1
  apply List.filter_congr
  intro constant declared
  by_cases empty : constant.value = 0
  · simp [empty]
  · have same : Constant.joined (set.inside word) &&& constant.value = constant.value ↔
        word &&& constant.value = constant.value := by
      rw [and_eq_right_iff]
      constructor
      · intro covered
        exact and_eq_right_iff.mpr fun position bit => within position (covered position bit)
      · intro covered position bit
        exact Constant.bitAt_joined.mpr
          ⟨constant, mem_inside.mpr ⟨declared, empty, covered⟩, bit⟩
    rw [Bool.eq_iff_iff]
    simp [empty, same]

end ConstantSet

section Reading

variable {set : ConstantSet} {options : DecodeOptions} {buffer : Buffer} {offset : Nat}

theorem Layout.read_flags_eq_ok_iff {value : Value} {used : Nat} :
    (Layout.flags set).read options buffer offset = .ok (value, used) ↔
      ∃ word, buffer.readWord offset set.width.bytes = .ok word ∧
        (∀ position, bitAt word position = true → bitAt set.mask position = true) ∧
        value = .flags (set.contained word) ∧ used = set.width.bytes := by
  simp only [Layout.read, ConstantSet.readFlags, bind_eq_ok, pure_eq_ok, Prod.mk.injEq]
  constructor
  · rintro ⟨names, ⟨word, stored, inside⟩, rfl, rfl⟩
    obtain ⟨known, rfl⟩ := ConstantSet.flagsOfWord_eq_ok_iff.mp inside
    exact ⟨word, stored, known, rfl, rfl⟩
  · rintro ⟨word, stored, known, rfl, rfl⟩
    have inside := ConstantSet.flagsOfWord_eq_ok_iff.mpr ⟨known, rfl⟩
    exact ⟨_, ⟨word, stored, inside⟩, rfl, rfl⟩

/-- A word of combined flags is read as all flags inside it. -/
theorem ConstantSet.read_combined (wellFormed : set.WellFormed) {names : List String}
    {word : UInt64} (combined : set.combine names = .ok word)
    (holds : buffer.Holds offset (BigEndian.bytes set.width.bytes word)) :
    (Layout.flags set).read options buffer offset =
      .ok (.flags (set.contained word), set.width.bytes) := by
  have stored := holds.readWord_eq
  rw [BigEndian.length_bytes,
    BigEndian.word_bytes set.width.atMostEight (combine_lt wellFormed combined)] at stored
  exact Layout.read_flags_eq_ok_iff.mpr ⟨word, stored, bitAt_mask_of_combine combined, rfl, rfl⟩

end Reading

end RecordCodec
