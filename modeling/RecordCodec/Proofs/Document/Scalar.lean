import RecordCodec.Document.Read
import RecordCodec.Proofs.Codec.Scalar
import RecordCodec.Proofs.Document.Acceptance
import RecordCodec.Proofs.Number.Binary
import RecordCodec.Proofs.Value.Canonical

/-!
# Scalars and constants from their document

An integer comes back as the same number, of the signedness of its type, and a
float as its canonical pattern, whether it is shown as a number or as a text.
-/

namespace RecordCodec

@[simp] theorem orMismatch_eq_ok_iff {α : Type} {path : NodePath} {expected : NodeKind}
    {found : Option α} {value : α} :
    orMismatch path expected found = .ok value ↔ found = some value := by
  cases found <;> simp [orMismatch]

theorem floatOfDocument?_floatDocument (bits : UInt64) :
    floatOfDocument? (floatDocument bits) = some (Binary.canonicalDouble bits) := by
  unfold floatDocument JsonNumber.ofFloat? Binary.canonicalDouble
  by_cases finite : Binary.isFinite bits = true
  · rw [dif_pos finite, Binary.isNotANumber_of_isFinite finite]
    rfl
  · rw [dif_neg finite]
    rw [Bool.not_eq_true] at finite
    cases special : Binary.isNotANumber bits with
    | true => rfl
    | false =>
        rcases Binary.eq_infinity finite special with rfl | rfl
        · rfl
        · rfl

/-- A 32-bit float is shown with 64 bits and narrowed again. -/
theorem singleOfDouble_canonicalDouble_widen (bits : UInt32) :
    singleOfDouble (Binary.canonicalDouble (Binary.widen bits)) = Binary.canonicalSingle bits := by
  unfold Binary.canonicalDouble Binary.canonicalSingle singleOfDouble
  rw [Binary.isNotANumber_widen]
  cases special : Binary.single.isNotANumber bits.toNat with
  | true =>
      have quiet : Binary.isNotANumber Binary.quietDouble = true := by decide
      simp only [if_true, quiet]
  | false =>
      simp only [Bool.false_eq_true, if_false, Binary.isNotANumber_widen, special]
      exact Binary.narrow_widen special

namespace Scalar

variable {scalar : Scalar} {value : Value} {json : Json} {number : Int}

theorem document_of_integer? (integer : value.integer? = some number)
    (shown : scalar.document value = .ok json) :
    ∃ fits, json = .number (.integer number fits) := by
  simp only [document, bind_eq_ok] at shown
  obtain ⟨-, -, shown⟩ := shown
  cases value with
  | unsigned word | signed word =>
      obtain rfl := Option.some.inj integer
      exact ⟨_, (Except.ok.inj shown).symm⟩
  | _ => cases integer

theorem canonical_of_integer? (integer : value.integer? = some number) :
    value.canonical = value := by
  cases value with
  | unsigned | signed => rfl
  | _ => cases integer

/-- The document of a value stands for a value that means the same once floats are canonical. -/
theorem exists_ofDocument?_document (admits : scalar.Admits value)
    (shown : scalar.document value = .ok json) :
    ∃ again, scalar.ofDocument? json = some again ∧ scalar.Admits again ∧
      again.equal value.canonical = true := by
  have unfolded := shown
  simp only [document, bind_eq_ok] at unfolded
  obtain ⟨-, -, plain⟩ := unfolded
  cases scalar with
  | unsigned width =>
      obtain ⟨number, integer, least, greatest⟩ := admits
      obtain ⟨fits, rfl⟩ := document_of_integer? integer shown
      have again : (Value.unsigned (UInt64.ofNat number.toNat)).integer? = some number := by
        rw [Value.integer?, UInt64.toNat_ofNat', Nat.mod_eq_of_lt (by omega),
          Int.toNat_of_nonneg least]
      refine ⟨.unsigned (UInt64.ofNat number.toNat), ?_, ⟨number, again, least, greatest⟩, ?_⟩
      · simp [ofDocument?, Json.unsigned?, JsonNumber.toUnsigned?, least]
      · rw [canonical_of_integer? integer]
        exact Value.equal_of_integer? again integer
  | signed width =>
      obtain ⟨number, integer, least, greatest⟩ := admits
      obtain ⟨fits, rfl⟩ := document_of_integer? integer shown
      have same := toInt_ofInt width.atMostEight least greatest
      have again : (Value.signed (Int64.ofInt number)).integer? = some number := by
        rw [Value.integer?, same]
      have bound : number < 2 ^ 63 := same ▸ Int64.toInt_lt _
      refine ⟨.signed (Int64.ofInt number), ?_, ⟨number, again, least, greatest⟩, ?_⟩
      · simp only [ofDocument?, Json.signed?, JsonNumber.toSigned?, if_pos bound]
        rfl
      · rw [canonical_of_integer? integer]
        exact Value.equal_of_integer? again integer
  | single =>
      obtain ⟨bits, rfl⟩ := admits
      obtain rfl := Except.ok.inj plain
      refine ⟨.single (Binary.canonicalSingle bits), ?_, ⟨_, rfl⟩, ?_⟩
      · simp [ofDocument?, floatOfDocument?_floatDocument, singleOfDouble_canonicalDouble_widen]
      · simp [Value.canonical, Value.equal]
  | double =>
      obtain ⟨bits, rfl⟩ := admits
      obtain rfl := Except.ok.inj plain
      refine ⟨.double (Binary.canonicalDouble bits), ?_, ⟨_, rfl⟩, ?_⟩
      · simp [ofDocument?, floatOfDocument?_floatDocument]
      · simp [Value.canonical, Value.equal]
  | bool =>
      obtain ⟨truth, rfl⟩ := admits
      obtain rfl := Except.ok.inj plain
      exact ⟨.bool truth, rfl, ⟨truth, rfl⟩, by simp [Value.canonical, Value.equal]⟩
  | char =>
      rcases admits with ⟨text, rfl, short⟩ | ⟨number, rfl, small⟩
      · obtain rfl := Except.ok.inj plain
        exact ⟨.text text, rfl, .inl ⟨text, rfl, short⟩, by simp [Value.canonical, Value.equal]⟩
      · obtain rfl := Except.ok.inj plain
        refine ⟨.unsigned number, ?_, .inr ⟨number, rfl, small⟩, ?_⟩
        · simp [ofDocument?, Json.text?, Json.unsigned?, Json.ofUnsigned, JsonNumber.ofUnsigned,
            JsonNumber.toUnsigned?]
        · simp [Value.canonical, Value.equal]

/-- So the value of the document is accepted, whatever the path to it. -/
theorem exists_ofDocument_document (admits : scalar.Admits value)
    (shown : scalar.document value = .ok json) (path : NodePath) :
    ∃ again, scalar.ofDocument json path = .ok again ∧ again.equal value.canonical = true := by
  obtain ⟨again, found, fits, same⟩ := exists_ofDocument?_document admits shown
  obtain ⟨bytes, image⟩ := image_eq_ok_iff.mpr fits
  refine ⟨again, ?_, same⟩
  simp only [ofDocument, bind_eq_ok, pure_eq_ok, orMismatch_eq_ok_iff]
  exact ⟨again, found, bytes, image, rfl⟩

end Scalar

namespace ConstantSet

variable {set : ConstantSet}

theorem constantOfDocument_text {name : String} (declared : set.Declares name) (path : NodePath) :
    set.constantOfDocument (.text name) path = .ok (.constant name) := by
  obtain ⟨word, valued⟩ := valueOf_eq_ok_iff.mpr declared
  simp only [constantOfDocument, bind_eq_ok, pure_eq_ok, orMismatch_eq_ok_iff]
  exact ⟨name, rfl, word, valued, rfl⟩

theorem flagsOfDocument_ofTexts {names : List String}
    (declared : ∀ name ∈ names, set.Declares name) (path : NodePath) :
    set.flagsOfDocument (.ofTexts names) path = .ok (.flags names) := by
  obtain ⟨word, combined⟩ := combine_eq_ok_iff.mpr declared
  simp only [flagsOfDocument, bind_eq_ok, pure_eq_ok, orMismatch_eq_ok_iff, mapM_eq_ok]
  refine ⟨names.map Json.text, rfl, names, ?_, word, combined, rfl⟩
  rw [List.forall₂_map_left_iff, List.forall₂_same]
  exact fun name _ => rfl

end ConstantSet

end RecordCodec
