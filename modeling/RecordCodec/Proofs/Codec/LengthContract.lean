import RecordCodec.Proofs.Codec.Settled

/-!
# The length contract

A type announces how long its values are: all alike, or for a union whose
records differ in length a header with the least and the greatest length.
What is written and what is read keeps to that, and a slot has room for it.
-/

namespace RecordCodec

namespace LengthContract

/-- The length is the one of all values, or that of the header and of the
record that the value selects, within the bounds. -/
def Promises (layout : Layout) (value : Value) (length : Nat) : LengthContract → Prop
  | .fixed promised => length = promised
  | .perVariant header least greatest =>
      ∃ union type payload selected, layout = .union union ∧ selected ∈ union.variants ∧
        value = .union type selected.name payload ∧
        length = header + selected.record.length ∧ least ≤ length ∧ length ≤ greatest

/-- The bounds differ, and there are variants that take the least and the
greatest length. -/
def Attained (layout : Layout) : LengthContract → Prop
  | .fixed _ => True
  | .perVariant header least greatest =>
      least < greatest ∧ ∃ union, layout = .union union ∧
        (∃ shortest ∈ union.variants, header + shortest.record.length = least) ∧
        ∃ longest ∈ union.variants, header + longest.record.length = greatest

end LengthContract

namespace UnionLayout

variable {union : UnionLayout}

/-- The bounds of a union with a variant are the lengths of its shortest and
its longest variant. -/
theorem exists_bounds (nonempty : union.variants ≠ []) :
    ∃ shortest ∈ union.variants, ∃ longest ∈ union.variants,
      (∀ variant ∈ union.variants, shortest.record.length ≤ variant.record.length ∧
        variant.record.length ≤ longest.record.length) ∧
      union.lengthContract =
        if shortest.record.length = longest.record.length then
          .fixed (union.headerLength + longest.record.length)
        else .perVariant union.headerLength (union.headerLength + shortest.record.length)
          (union.headerLength + longest.record.length) := by
  have measured : union.variants.map (fun variant => variant.record.length) ≠ [] := by
    simpa using nonempty
  obtain ⟨least, isLeast⟩ := Option.ne_none_iff_exists'.mp (mt List.min?_eq_none_iff.mp measured)
  obtain ⟨greatest, isGreatest⟩ :=
    Option.ne_none_iff_exists'.mp (mt List.max?_eq_none_iff.mp measured)
  obtain ⟨attained, atLeast⟩ := List.min?_eq_some_iff.mp isLeast
  obtain ⟨attainedToo, atMost⟩ := List.max?_eq_some_iff.mp isGreatest
  obtain ⟨shortest, isShortest, rfl⟩ := List.mem_map.mp attained
  obtain ⟨longest, isLongest, rfl⟩ := List.mem_map.mp attainedToo
  refine ⟨shortest, isShortest, longest, isLongest, ?_, ?_⟩
  · intro variant member
    have among := List.mem_map_of_mem (f := fun variant => variant.record.length) member
    exact ⟨atLeast _ among, atMost _ among⟩
  · simp only [lengthContract, isLeast, isGreatest, Option.getD_some]

theorem promises_of_mem {selected : VariantLayout} (member : selected ∈ union.variants)
    (type : String) (payload : RecordValue) :
    union.lengthContract.Promises (.union union) (.union type selected.name payload)
      (union.headerLength + selected.record.length) := by
  obtain ⟨shortest, -, longest, -, between, contract⟩ :=
    exists_bounds (List.ne_nil_of_mem member)
  obtain ⟨above, below⟩ := between selected member
  rw [contract]
  split
  · rename_i same
    change union.headerLength + selected.record.length = _
    omega
  · exact ⟨union, type, payload, selected, rfl, member, rfl, rfl, by omega, by omega⟩

/-- A union without variants has a fixed length, and so have unions all of
whose variants are equally long. -/
theorem attained_lengthContract : union.lengthContract.Attained (.union union) := by
  by_cases nonempty : union.variants = []
  · simp [lengthContract, nonempty, LengthContract.Attained]
  · obtain ⟨shortest, isShortest, longest, isLongest, between, contract⟩ := exists_bounds nonempty
    have below := (between longest isLongest).1
    rw [contract]
    split
    · exact True.intro
    · rename_i differ
      exact ⟨by omega, union, rfl, ⟨shortest, isShortest, rfl⟩, longest, isLongest, rfl⟩

end UnionLayout

namespace Layout

variable {layout : Layout}

theorem attained_lengthContract : layout.lengthContract.Attained layout := by
  cases layout with
  | union union => exact union.attained_lengthContract
  | scalar | enumeration | flags | record => exact True.intro

/-- The length that is announced for a value is one that the contract promises. -/
theorem promises_of_encodedLength {value : Value} {length : Nat}
    (announced : layout.encodedLength value = .ok length) :
    layout.lengthContract.Promises layout value length := by
  cases layout with
  | union union =>
      cases value with
      | union type variant payload =>
          simp only [encodedLength] at announced
          split at announced
          · rename_i selected found
            have member := List.mem_of_find?_eq_some found
            have named := List.find?_some found
            rw [beq_iff_eq] at named
            obtain rfl := Except.ok.inj announced
            rw [← named]
            exact UnionLayout.promises_of_mem member type payload
          · cases announced
      | _ => cases announced
  | scalar | enumeration | flags | record => exact (Except.ok.inj announced).symm

end Layout

namespace Schema

variable {declarations : List Declaration} {schema : Schema}

/-- Every type keeps to its length contract: the bounds are those of variants,
what is written has the length that is announced for the value and that the
contract promises, no more than a slot has, and so has what is read. -/
theorem lengths_keep_contract (accepted : ofDeclarations declarations = .ok schema)
    {name : String} {layout : Layout} (found : schema.find? name = some layout) :
    layout.lengthContract.Attained layout ∧
    (∀ value bytes, layout.toBytes value = .ok bytes →
      layout.encodedLength value = .ok bytes.size ∧
        layout.lengthContract.Promises layout value bytes.size ∧
        bytes.size ≤ layout.slotLength) ∧
    ∀ options (buffer : Buffer) offset value used,
      layout.read options buffer offset = .ok (value, used) →
        layout.lengthContract.Promises layout value used := by
  have wellFormed := wellFormed_of_find? accepted found
  refine ⟨layout.attained_lengthContract, ?_, ?_⟩
  · intro value bytes written
    obtain ⟨admits, rfl⟩ := wellFormed.toBytes_eq_ok_iff.mp written
    obtain ⟨announced, inside⟩ := wellFormed.measured value admits
    rw [Buffer.size_ofList]
    exact ⟨announced, Layout.promises_of_encodedLength announced, inside⟩
  · intro options buffer offset value used read
    have settled := wellFormed.settles options offset value used read
    exact Layout.promises_of_encodedLength settled.2.1

theorem sample_message_keeps_contract :
    Sample.layout.lengthContract = .perVariant 1 1 24 ∧
      (LengthContract.perVariant 1 1 24).Attained Sample.layout ∧
      Sample.layout.encodedLength Sample.receivedMessage = .ok 24 ∧
      (LengthContract.perVariant 1 1 24).Promises Sample.layout Sample.receivedMessage 24 := by
  have contract : Sample.layout.lengthContract = .perVariant 1 1 24 := by decide +kernel
  have read : Sample.layout.read ⟨false, true⟩ Sample.received 1 =
      .ok (Sample.receivedMessage, 24) := by decide +kernel
  obtain ⟨attained, -, reads⟩ := lengths_keep_contract Sample.accepted Sample.found
  rw [contract] at attained reads
  exact ⟨contract, attained, by decide +kernel, reads _ _ _ _ _ read⟩

end Schema

end RecordCodec
