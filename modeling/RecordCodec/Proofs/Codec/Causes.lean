import RecordCodec.Codec.Encode
import RecordCodec.Proofs.Codec.Scalar
import RecordCodec.Proofs.Failure

/-!
# Why reading and the tests of values fail

Reading bytes fails because there are too few of them, because of a tag or of
flags that are not declared, or because of padding; a list that is too long for
memory stops the program.  The tests that writing a value and showing it have
in common fail because of something about the value.
-/

namespace RecordCodec

namespace Error

/-- The causes for which bytes are not read. -/
def OfBytes : Error → Prop
  | .outOfBounds _ _ _ | .unknownDiscriminant _ _ | .unknownFlags _ _ | .nonZeroPadding _ _ => True
  | _ => False

/-- The causes for which a value is neither written nor shown. -/
def OfValue : Error → Prop
  | .valueMismatch _ _ | .typeNameMismatch _ _ | .missingField _ _ | .unexpectedField _ _
  | .arrayLengthMismatch _ _ | .stringTooLong _ _ | .integerOutOfRange _ _ | .unknownEnumName _ _
  | .unknownVariant _ _ | .variantTagMismatch _ _ _ => True
  | _ => False

/-- The causes for which a document stands for no value. -/
def OfDocument : Error → Prop
  | .jsonMismatch _ _ | .missingField _ _ | .unexpectedField _ _ | .arrayLengthMismatch _ _
  | .stringTooLong _ _ | .integerOutOfRange _ _ | .unknownEnumName _ _ | .unknownVariant _ _ => True
  | _ => False

end Error

section Reading

variable {options : DecodeOptions} {buffer : Buffer}

theorem Buffer.failsWith_require (length offset need : Nat) :
    FailsWith Error.OfBytes (Buffer.require length offset need) := by
  unfold Buffer.require
  split
  · exact .of_ok _
  · exact .of_error True.intro

theorem Buffer.failsWith_read (offset count : Nat) :
    FailsWith Error.OfBytes (buffer.read offset count) :=
  (failsWith_require _ _ _).andReturn _

theorem Buffer.failsWith_readWord (offset width : Nat) :
    FailsWith Error.OfBytes (buffer.readWord offset width) :=
  (failsWith_read offset width).andReturn _

section Errors

variable {errors : Error → Prop}

theorem failsWith_reserveItems {count : Nat}
    (tooLong : itemLimit < count → errors (.panicked .capacityOverflow)) :
    FailsWith errors (reserveItems count) := by
  unfold reserveItems
  split
  · exact .of_ok _
  · rename_i long
    exact .of_error (tooLong (Nat.not_le.mp long))

theorem ConstantSet.failsWith_read (set : ConstantSet) {offset : Nat}
    (unknown : ∀ type tag, errors (.unknownDiscriminant type tag))
    (word : FailsWith errors (buffer.readWord offset set.width.bytes)) :
    FailsWith errors (set.read buffer offset) := by
  refine word.bind fun word _ => ?_
  unfold constantOfWord
  split
  · exact .of_ok _
  · exact .of_error (unknown _ _)

theorem ConstantSet.failsWith_readFlags (set : ConstantSet) {offset : Nat}
    (unknown : ∀ type bits, errors (.unknownFlags type bits))
    (word : FailsWith errors (buffer.readWord offset set.width.bytes)) :
    FailsWith errors (set.readFlags buffer offset) := by
  refine word.bind fun word _ => ?_
  simp only [flagsOfWord]
  split
  · exact .of_ok _
  · exact .of_error (unknown _ _)

variable (padding : ∀ type position, errors (.nonZeroPadding type position))
  {readElement : Nat → Except Error (Value × Nat)} {offset : Nat}

include padding

theorem failsWith_readSlot (element : FailsWith errors (readElement offset)) (layout : Layout) :
    FailsWith errors (readSlot options buffer readElement layout offset) := by
  refine element.bind fun result _ => ?_
  simp only
  split
  · split
    · exact .of_error (padding _ _)
    · exact .of_ok _
  · exact .of_ok _

/-- A field fails as its elements do, as the list of them, or as the bytes of its characters. -/
theorem failsWith_readField {layout : Layout} {count : Option Nat}
    (characters : layout.isChar = true → FailsWith errors (buffer.read offset (count.getD 1)))
    (list : ∀ length, count = some length → layout.isChar = false →
      FailsWith errors (reserveItems length))
    (elements : ∀ index < count.getD 1,
      FailsWith errors (readElement (offset + index * layout.slotLength))) :
    FailsWith errors (readField options buffer readElement layout count offset) := by
  unfold readField
  cases count with
  | none =>
      have element := elements 0 Nat.zero_lt_one
      rw [Nat.zero_mul, Nat.add_zero] at element
      exact failsWith_readSlot padding element layout
  | some count =>
      dsimp only
      split
      · rename_i isChar
        split
        · exact (characters isChar).andReturn _
        · exact (characters isChar).andReturn _
      · rename_i others
        refine (list count rfl (Bool.eq_false_iff.mpr others)).bind fun _ _ => ?_
        refine (FailsWith.mapM fun index among => ?_).andReturn _
        exact failsWith_readSlot padding (elements index (List.mem_range.mp among)) layout

end Errors

end Reading

/-! The tests of values. -/

theorem Scalar.failsWith_image (scalar : Scalar) (value : Value) :
    FailsWith Error.OfValue (scalar.image value) := by
  have integer (isSigned : Bool) (width : WordWidth) :
      FailsWith Error.OfValue (integerImage isSigned width.bytes value) := by
    cases known : value.integer? with
    | none =>
        rw [integerImage_of_not_integer known]
        exact .of_error True.intro
    | some number =>
        rw [integerImage_eq width.positive width.atMostEight isSigned known]
        split
        · exact .of_ok _
        · exact .of_error True.intro
  unfold image
  split
  · exact integer false _
  · exact integer true _
  · exact .of_ok _
  · exact .of_ok _
  · exact .of_ok _
  · unfold charImage
    split
    · split
      · exact .of_ok _
      · exact .of_ok _
      · exact .of_error True.intro
    · refine .andReturn ?_ _
      unfold checkUnsigned
      split
      · exact .of_ok _
      · exact .of_error True.intro
    · exact .of_error True.intro
  · exact .of_error True.intro

theorem ConstantSet.failsWith_valueOf (set : ConstantSet) (name : String) {errors : Error → Prop}
    (unknown : ∀ type name, errors (.unknownEnumName type name)) :
    FailsWith errors (set.valueOf name) := by
  unfold valueOf
  split
  · exact .of_ok _
  · exact .of_error (unknown _ _)

/-- Names are combined unless one of them is unknown. -/
theorem ConstantSet.failsWith_combine (set : ConstantSet) (names : List String)
    {errors : Error → Prop} (unknown : ∀ type name, errors (.unknownEnumName type name)) :
    FailsWith errors (set.combine names) := by
  unfold combine
  generalize (0 : UInt64) = bits
  induction names generalizing bits with
  | nil => exact .of_ok _
  | cons name rest ih =>
      rw [List.foldlM_cons]
      exact ((set.failsWith_valueOf name unknown).andReturn _).bind fun bits _ => ih bits

theorem ConstantSet.failsWith_constantWord (set : ConstantSet) (value : Value) :
    FailsWith Error.OfValue (set.constantWord value) := by
  unfold constantWord
  split
  · exact set.failsWith_valueOf _ fun _ _ => True.intro
  · exact .of_error True.intro

theorem ConstantSet.failsWith_flagsWord (set : ConstantSet) (value : Value) :
    FailsWith Error.OfValue (set.flagsWord value) := by
  unfold flagsWord
  split
  · exact set.failsWith_combine _ fun _ _ => True.intro
  · exact .of_error True.intro

theorem TextField.failsWith_requireCapacity (text : String) (capacity : Nat)
    {errors : Error → Prop} (tooLong : ∀ length capacity, errors (.stringTooLong length capacity)) :
    FailsWith errors (requireCapacity text capacity) := by
  unfold requireCapacity
  split
  · exact .of_ok _
  · exact .of_error (tooLong _ _)

theorem RecordLayout.failsWith_check (layout : RecordLayout) (record : RecordValue) :
    FailsWith Error.OfValue (layout.check record) := by
  unfold check
  split
  · split
    · exact .of_error True.intro
    · exact .of_ok _
  · exact .of_error True.intro

theorem RecordLayout.failsWith_fieldValue (type : String) (record : RecordValue) (name : String) :
    FailsWith Error.OfValue (RecordLayout.fieldValue type record name) := by
  unfold fieldValue
  split
  · exact .of_ok _
  · exact .of_error True.intro

theorem failsWith_expectRecord (value : Value) : FailsWith Error.OfValue (expectRecord value) := by
  unfold expectRecord
  split
  · exact .of_ok _
  · exact .of_error True.intro

theorem UnionLayout.failsWith_expect (name : String) (value : Value) :
    FailsWith Error.OfValue (UnionLayout.expect name value) := by
  unfold expect
  split
  · split
    · exact .of_ok _
    · exact .of_error True.intro
  · exact .of_error True.intro

theorem UnionLayout.failsWith_checkTag (type variant : String) (record : RecordValue)
    (path : List String) :
    FailsWith Error.OfValue (UnionLayout.checkTag type variant record path) := by
  fun_induction UnionLayout.checkTag type variant record path with
  | case1 => exact .of_ok _
  | case2 => exact .of_ok _
  | case3 => exact .of_error True.intro
  | case4 => exact .of_error True.intro
  | case5 => exact .of_error True.intro
  | case6 => assumption
  | case7 => exact .of_error True.intro

theorem Layout.failsWith_encodedLength (layout : Layout) (value : Value) :
    FailsWith Error.OfValue (layout.encodedLength value) := by
  unfold encodedLength
  split
  · split
    · exact .of_ok _
    · exact .of_error True.intro
  · exact .of_error True.intro
  · exact .of_ok _

end RecordCodec
