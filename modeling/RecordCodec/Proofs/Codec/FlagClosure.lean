import RecordCodec.Proofs.Codec.Normal

/-!
# Flags and their closure

Writing flags joins the bits of their constants, and reading lists every constant whose bits are
all in the word.  So what is read from flags that were written is their closure: the flags
themselves and those that they cover together.  The closure is written as the same word.

A word is read if each of its bits belongs to some constant.  The bits of a constant need not be
all there, and then it is not listed, so a word to which no constants are joined is written as a
smaller one.
-/

namespace RecordCodec

namespace ConstantSet

variable {set : ConstantSet}

/-- The constants with bits, all of which are in a word, in the order of their declaration. -/
structure Closure (set : ConstantSet) (word : UInt64) (flags : List Constant) : Prop where
  ordered : flags.Sublist set.constants
  distinct : (flags.map Constant.name).Nodup
  covered : ∀ constant, constant ∈ flags ↔ constant ∈ set.constants ∧ constant.value ≠ 0 ∧
    ∀ position, bitAt constant.value position = true → bitAt word position = true

/-- Each bit of a constant is a constant of its own. -/
def Single (set : ConstantSet) : Prop :=
  ∀ constant ∈ set.constants, ∀ position, bitAt constant.value position = true →
    ∃ alone ∈ set.constants, ∀ other, bitAt alone.value other = true ↔ other = position

theorem closure_inside (wellFormed : set.WellFormed) (word : UInt64) :
    set.Closure word (set.inside word) := by
  refine ⟨List.filter_sublist, ?_, fun constant => ?_⟩
  · exact wellFormed.names.sublist (List.filter_sublist.map Constant.name)
  · rw [mem_inside, and_eq_right_iff]

/-- A bit of a word is lost unless a constant inside the word has it. -/
theorem bitAt_mask_within {word : UInt64} {position : Nat} :
    bitAt (set.within word).mask position = true ↔
      ∃ constant ∈ set.constants, bitAt constant.value position = true ∧
        ∀ other, bitAt constant.value other = true → bitAt word other = true := by
  simp only [bitAt_mask, mem_within, and_eq_right_iff]
  constructor
  · rintro ⟨constant, ⟨declared, covered⟩, bit⟩
    exact ⟨constant, declared, bit, covered⟩
  · rintro ⟨constant, declared, bit, covered⟩
    exact ⟨constant, ⟨declared, covered⟩, bit⟩

/-- Nothing is lost of a word if each of its bits is of a constant inside it. -/
theorem mask_within_eq_iff_bits {word : UInt64} :
    (set.within word).mask = word ↔ ∀ position, bitAt word position = true →
      ∃ constant ∈ set.constants, bitAt constant.value position = true ∧
        ∀ other, bitAt constant.value other = true → bitAt word other = true := by
  constructor
  · intro whole position present
    rwa [← bitAt_mask_within, whole]
  · intro kept
    apply eq_of_bitAt_eq
    intro position
    rw [Bool.eq_iff_iff, bitAt_mask_within]
    constructor
    · rintro ⟨constant, -, bit, covered⟩
      exact covered position bit
    · exact kept position

/-- Nothing is lost of a word to which declared constants are joined, and of no other. -/
theorem mask_within_eq_iff {word : UInt64} :
    (set.within word).mask = word ↔
      ∃ chosen, chosen ⊆ set.constants ∧ Constant.joined chosen = word := by
  constructor
  · intro whole
    exact ⟨(set.within word).constants, List.filter_subset_self _, whole⟩
  · rintro ⟨chosen, declared, rfl⟩
    rw [mask_within_eq_iff_bits]
    intro position present
    obtain ⟨constant, member, bit⟩ := Constant.bitAt_joined.mp present
    exact ⟨constant, declared member, bit,
      fun other otherBit => Constant.bitAt_joined.mpr ⟨constant, member, otherBit⟩⟩

theorem Single.mask_within (single : set.Single) {word : UInt64}
    (known : ∀ position, bitAt word position = true → bitAt set.mask position = true) :
    (set.within word).mask = word := by
  rw [mask_within_eq_iff_bits]
  intro position present
  obtain ⟨constant, member, bit⟩ := bitAt_mask.mp (known position present)
  obtain ⟨alone, aloneMember, only⟩ := single constant member position bit
  refine ⟨alone, aloneMember, (only position).mpr rfl, fun other otherBit => ?_⟩
  rwa [(only other).mp otherBit]

theorem exists_chosen {names : List String} (declared : ∀ name ∈ names, set.Declares name) :
    ∃ chosen, chosen ⊆ set.constants ∧ chosen.map Constant.name = names := by
  induction names with
  | nil => exact ⟨[], List.nil_subset _, rfl⟩
  | cons name rest ih =>
      obtain ⟨⟨constant, member, rfl⟩, others⟩ := List.forall_mem_cons.mp declared
      obtain ⟨chosen, among, rfl⟩ := ih others
      exact ⟨constant :: chosen, List.cons_subset.mpr ⟨member, among⟩, rfl⟩

/-- The first of some names that is not declared. -/
theorem exists_first_undeclared {names : List String}
    (undeclared : ∃ name ∈ names, ¬set.Declares name) :
    ∃ known unknown rest, names = known ++ unknown :: rest ∧
      (∀ name ∈ known, set.Declares name) ∧ ¬set.Declares unknown := by
  classical
  have some : (names.find? fun name => ¬set.Declares name).isSome := by
    simpa using undeclared
  obtain ⟨unknown, first⟩ := Option.isSome_iff_exists.mp some
  obtain ⟨missing, known, rest, rfl, front⟩ := List.find?_eq_some_iff_append.mp first
  exact ⟨known, unknown, rest, rfl, by simpa using front, by simpa using missing⟩

/-- Names are combined up to the first that is not declared. -/
theorem combine_undeclared {known rest : List String} {unknown : String}
    (declared : ∀ name ∈ known, set.Declares name) (undeclared : ¬set.Declares unknown) :
    set.combine (known ++ unknown :: rest) = .error (.unknownEnumName set.name unknown) := by
  obtain ⟨word, front⟩ := combine_eq_ok_iff.mpr declared
  have missing : set.valueOf unknown = .error (.unknownEnumName set.name unknown) := by
    unfold valueOf
    split
    · rename_i constant found
      exact absurd (valueOf_eq_ok_iff.mp ⟨constant.value, by rw [valueOf, found]⟩) undeclared
    · rfl
  unfold combine at front ⊢
  simp only [List.foldlM_append, front, List.foldlM_cons, missing]
  rfl

/-- Flags that can be combined are written as the word that they are combined to. -/
theorem puts_write_flags {names : List String} {word : UInt64}
    (combined : set.combine names = .ok word) (offset : Nat) :
    Writing.Puts ((Layout.flags set).write (.flags names) offset) offset
      (BigEndian.bytes set.width.bytes word) set.width.bytes := by
  simp only [Layout.write, flagsWord, combined, write]
  exact (Writing.Puts.writeWord _ word).andReturn _

/-- The flags are written as the word of the constants that are chosen, which is read as the
closure, and the closure is written as the same word. -/
structure Normalises (set : ConstantSet) (chosen closure : List Constant) (buffer : Buffer)
    (offset : Nat) : Prop where
  written : (Layout.flags set).write (.flags (chosen.map Constant.name)) offset buffer =
    .ok set.width.bytes (buffer.overwrite offset
      (.ofList (BigEndian.bytes set.width.bytes (Constant.joined chosen))))
  read : ∀ options, (Layout.flags set).read options (buffer.overwrite offset
      (.ofList (BigEndian.bytes set.width.bytes (Constant.joined chosen)))) offset =
    .ok (.flags (closure.map Constant.name), set.width.bytes)
  rewritten : (Layout.flags set).write (.flags (closure.map Constant.name)) offset buffer =
    .ok set.width.bytes (buffer.overwrite offset
      (.ofList (BigEndian.bytes set.width.bytes (Constant.joined chosen))))

theorem normalises_inside (wellFormed : set.WellFormed) {chosen : List Constant}
    (declared : chosen ⊆ set.constants) {buffer : Buffer} {offset : Nat}
    (room : offset + set.width.bytes ≤ buffer.size) :
    set.Normalises chosen (set.inside (Constant.joined chosen)) buffer offset := by
  have combined := combine_names wellFormed declared
  have again := combine_contained wellFormed (Constant.joined chosen)
  rw [joined_inside, mask_within_eq_iff.mpr ⟨chosen, declared, rfl⟩] at again
  have roomForBytes : offset +
      (BigEndian.bytes set.width.bytes (Constant.joined chosen)).length ≤ buffer.size := by
    rwa [BigEndian.length_bytes]
  exact {
    written := puts_write_flags combined offset buffer roomForBytes
    read := fun _ => read_combined wellFormed combined (Buffer.holds_overwrite roomForBytes)
    rewritten := puts_write_flags again offset buffer roomForBytes }

end ConstantSet

namespace Schema

variable {declarations : List Declaration} {schema : Schema}

/-- Flags come from a declaration, with its constants in their order. -/
theorem exists_declaration_of_flags (accepted : ofDeclarations declarations = .ok schema)
    {name : String} {set : ConstantSet} (found : schema.find? name = some (.flags set)) :
    ∃ underlying, Declaration.enumeration set.name underlying
      (set.constants.map fun constant => (constant.name, constant.value)) true ∈ declarations := by
  rcases exists_assembled_of_find? accepted found with
    ⟨_, _, ⟨⟩⟩ | ⟨declaration, declared, notAlias, parts, assembled⟩
  match declaration with
  | .primitive _ _ | .record _ _ _ | .union _ _ _ _ =>
      simp [Declaration.assemble] at assembled
  | .alias _ _ => cases notAlias
  | .enumeration name underlying constants isFlags =>
      simp only [Declaration.assemble, bind_eq_ok, pure_eq_ok] at assembled
      obtain ⟨base, -, made, declaredSet, built⟩ := assembled
      cases isFlags with
      | false => cases built
      | true =>
          obtain rfl : made = set := Layout.flags.inj built
          obtain ⟨rfl, same, -⟩ := ConstantSet.ofDeclaration_spec declaredSet
          have back : made.constants.map (fun constant => (constant.name, constant.value)) =
              constants := by
            rw [same, List.map_map]
            exact List.map_id constants
          exact ⟨underlying, back ▸ declared⟩

theorem flags_wellFormed (accepted : ofDeclarations declarations = .ok schema) {name : String}
    {set : ConstantSet} (found : schema.find? name = some (.flags set)) : set.WellFormed := by
  cases wellFormed_of_find? accepted found with
  | flags distinct => exact distinct

/-- Flags are normalised to their closure by writing and reading, for every set of flags of an
accepted schema, and a name that is not declared is refused. -/
theorem flags_normalised (accepted : ofDeclarations declarations = .ok schema) {name : String}
    {set : ConstantSet} (found : schema.find? name = some (.flags set)) :
    (∃ underlying, Declaration.enumeration set.name underlying
        (set.constants.map fun constant => (constant.name, constant.value)) true ∈ declarations) ∧
    (∀ names, (∀ name ∈ names, set.Declares name) →
      ∃ chosen closure, chosen ⊆ set.constants ∧ chosen.map Constant.name = names ∧
        set.Closure (Constant.joined chosen) closure ∧
        ∀ buffer offset, offset + set.width.bytes ≤ buffer.size →
          set.Normalises chosen closure buffer offset) ∧
    ∀ names, (∃ name ∈ names, ¬set.Declares name) →
      ∃ known unknown rest, names = known ++ unknown :: rest ∧
        (∀ name ∈ known, set.Declares name) ∧ ¬set.Declares unknown ∧
        ∀ buffer offset, (Layout.flags set).write (.flags names) offset buffer =
          .error (.unknownEnumName set.name unknown) buffer := by
  have wellFormed := flags_wellFormed accepted found
  refine ⟨exists_declaration_of_flags accepted found, ?_, ?_⟩
  · intro names declared
    obtain ⟨chosen, among, rfl⟩ := ConstantSet.exists_chosen declared
    exact ⟨chosen, set.inside (Constant.joined chosen), among, rfl,
      ConstantSet.closure_inside wellFormed _,
      fun buffer offset room => ConstantSet.normalises_inside wellFormed among room⟩
  · intro names undeclared
    obtain ⟨known, unknown, rest, rfl, declared, missing⟩ :=
      ConstantSet.exists_first_undeclared undeclared
    refine ⟨known, unknown, rest, rfl, declared, missing, fun buffer offset => ?_⟩
    simp only [Layout.write, ConstantSet.flagsWord,
      ConstantSet.combine_undeclared declared missing, ConstantSet.write]
    rfl

theorem sample_flags_normalised :
    (∃ chosen closure, chosen.map Constant.name = ["wide", "bold", "wide"] ∧
      Sample.styles.Closure (Constant.joined chosen) closure ∧
      Sample.styles.Normalises chosen closure (Buffer.zeros 3) 1) ∧
    ∃ unknown, ¬Sample.styles.Declares unknown ∧
      (Layout.flags Sample.styles).write (.flags ["bold", "thin"]) 1 (Buffer.zeros 3) =
        .error (.unknownEnumName "Style" unknown) (Buffer.zeros 3) := by
  have found : Sample.schema.find? "Style" = some (.flags Sample.styles) := by decide +kernel
  obtain ⟨-, normalised, refused⟩ := flags_normalised Sample.accepted found
  obtain ⟨chosen, closure, -, names, closed, each⟩ :=
    normalised ["wide", "bold", "wide"] (by simp [ConstantSet.Declares, Sample.styles])
  obtain ⟨-, unknown, -, -, -, missing, stops⟩ :=
    refused ["bold", "thin"] ⟨"thin", by simp, by simp [ConstantSet.Declares, Sample.styles]⟩
  exact ⟨⟨chosen, closure, names, closed, each (Buffer.zeros 3) 1 (by decide)⟩,
    unknown, missing, stops (Buffer.zeros 3) 1⟩

/-- Flags that are read can be written, as the bits of the constants inside the word.  These are
the bits of the word itself exactly if it has been joined from constants, which it has wherever
each bit of a constant is a constant of its own. -/
theorem flags_written_back (accepted : ofDeclarations declarations = .ok schema) {name : String}
    {set : ConstantSet} (found : schema.find? name = some (.flags set)) {buffer : Buffer}
    {offset : Nat} {raw : UInt64} (stored : buffer.readWord offset set.width.bytes = .ok raw)
    (options : DecodeOptions) :
    ((∃ value used, (Layout.flags set).read options buffer offset = .ok (value, used)) ↔
      ∀ position, bitAt raw position = true → bitAt set.mask position = true) ∧
    ∀ value used, (Layout.flags set).read options buffer offset = .ok (value, used) →
      (∀ target place, place + set.width.bytes ≤ target.size →
        (Layout.flags set).write value place target = .ok set.width.bytes
          (target.overwrite place
            (.ofList (BigEndian.bytes set.width.bytes (set.within raw).mask)))) ∧
      ((set.within raw).mask = raw ↔
        ∃ chosen, chosen ⊆ set.constants ∧ Constant.joined chosen = raw) ∧
      (set.Single → (set.within raw).mask = raw) := by
  have wellFormed := flags_wellFormed accepted found
  constructor
  · constructor
    · rintro ⟨value, used, read⟩
      obtain ⟨word, again, known, -⟩ := Layout.read_flags_eq_ok_iff.mp read
      obtain rfl := Except.ok.inj (stored.symm.trans again)
      exact known
    · intro known
      exact ⟨_, _, Layout.read_flags_eq_ok_iff.mpr ⟨raw, stored, known, rfl, rfl⟩⟩
  · intro value used read
    obtain ⟨word, again, known, rfl, -⟩ := Layout.read_flags_eq_ok_iff.mp read
    obtain rfl := Except.ok.inj (stored.symm.trans again)
    refine ⟨fun target place room => ?_, ConstantSet.mask_within_eq_iff,
      fun single => single.mask_within known⟩
    have combined := ConstantSet.combine_contained wellFormed raw
    rw [ConstantSet.joined_inside] at combined
    exact ConstantSet.puts_write_flags combined place target (by rwa [BigEndian.length_bytes])

theorem sample_flags_written_back :
    (Layout.flags Sample.styles).read .standard (Buffer.ofList [7, 3]) 1 =
      .ok (.flags ["bold", "wide", "both"], 1) ∧
    (Layout.flags Sample.styles).write (.flags ["bold", "wide", "both"]) 0 (Buffer.zeros 2) =
      .ok 1 ((Buffer.zeros 2).overwrite 0 (.ofList [3])) := by
  have found : Sample.schema.find? "Style" = some (.flags Sample.styles) := by decide +kernel
  have stored : (Buffer.ofList [7, 3]).readWord 1 Sample.styles.width.bytes = .ok 3 := by
    decide +kernel
  have read : (Layout.flags Sample.styles).read .standard (Buffer.ofList [7, 3]) 1 =
      .ok (.flags ["bold", "wide", "both"], 1) := by decide +kernel
  obtain ⟨-, written⟩ := flags_written_back Sample.accepted found stored .standard
  exact ⟨read, (written _ _ read).1 (Buffer.zeros 2) 0 (by decide)⟩

end Schema

namespace Sample

/-- The only mode has two bits, and neither is a mode. -/
def paired : List Declaration :=
  [.enumeration "Mode" "u8" [("Both", 3)] true]

def modes : ConstantSet :=
  ⟨"Mode", styles.width, [⟨"Both", 3⟩]⟩

end Sample

/-- One of the two bits of a mode is read as no mode, and is not written again. -/
theorem Schema.partial_flags_not_written_back :
    ∃ schema, ofDeclarations Sample.paired = .ok schema ∧
      schema.find? "Mode" = some (.flags Sample.modes) ∧
      (Layout.flags Sample.modes).read .standard (Buffer.ofList [1]) 0 = .ok (.flags [], 1) ∧
      (Layout.flags Sample.modes).toBytes (.flags []) = .ok (Buffer.ofList [0]) ∧
      Buffer.ofList [0] ≠ Buffer.ofList [1] := by
  have accepted : ofDeclarations Sample.paired =
      .ok ((ofDeclarations Sample.paired).toOption.getD ⟨[], []⟩) :=
    eq_ok_getD (by decide +kernel) _
  refine ⟨_, accepted, ?_, ?_, ?_, ?_⟩
  · decide +kernel
  · decide +kernel
  · decide +kernel
  · decide

end RecordCodec
