import Mathlib.Data.Option.Basic
import RecordCodec.Proofs.Document.Scalar
import RecordCodec.Proofs.Json.Nodes
import RecordCodec.Proofs.Number.Rounding

/-!
# Documents with rounded numbers

A document says of a float no more than the float holds.  `Layout.rounded`
replaces the numbers at the places of floats by what their floats hold and
keeps all else: every key, the length of every array, every text, every truth
value, every integer and whatever is at no place of the layout.
-/

namespace RecordCodec

namespace JsonNumber

/-- The number as a 64-bit float. -/
def inDouble (number : JsonNumber) : JsonNumber :=
  .float number.toFloat number.isFinite_toFloat

/-- The 32-bit float nearest to the number. -/
def nearestSingle : JsonNumber → UInt32
  | .integer value _ =>
      UInt32.ofNat (Binary.single.round (decide (value < 0)) value.natAbs 1)
  | .float bits _ => Binary.narrow bits

/-- The 32-bit float nearest to the 64-bit float that is nearest to the number. -/
def singleOfFloat (number : JsonNumber) : UInt32 :=
  Binary.narrow number.toFloat

end JsonNumber

/-- The document of a rounded number: a number, or a text if it was too great for its format. -/
def singleDocument (bits : UInt32) : Json :=
  match JsonNumber.ofFloat? (Binary.widen bits) with
  | some number => .number number
  | none => .text (if Binary.widen bits = Binary.positiveInfinity then "Infinity" else "-Infinity")

/-- The document of a field, with that of an element rounded or those of the items of an array. -/
def roundedField (rounded : Json → Json) (count : Option Nat) (json : Json) : Json :=
  match count, json with
  | none, json => rounded json
  | some _, .array items => .array (items.map rounded)
  | some _, json => json

mutual
/-- The document in which the numbers at the places of floats are rounded to them. -/
def Layout.rounded (toSingle : JsonNumber → UInt32) : Layout → Json → Json
  | .scalar _ .single, .number number => singleDocument (toSingle number)
  | .scalar _ .double, .number number => .number number.inDouble
  | .record layout, .object members => .object (RecordLayout.rounded toSingle layout members)
  | .union layout, .object members => .object (UnionLayout.rounded toSingle layout members)
  | _, json => json
def RecordLayout.rounded (toSingle : JsonNumber → UInt32) :
    RecordLayout → List JsonMember → List JsonMember
  | ⟨_, fields, _⟩, members => members.map fun member =>
      ⟨member.key, FieldLayout.roundedUnder toSingle fields member.key member.value⟩
/-- What stands under a key, rounded if it is the name of a field. -/
def FieldLayout.roundedUnder (toSingle : JsonNumber → UInt32) :
    List FieldLayout → String → Json → Json
  | [], _, json => json
  | ⟨name, element, count, _, _⟩ :: rest, key, json =>
      if name = key then roundedField (fun json => Layout.rounded toSingle element json) count json
      else FieldLayout.roundedUnder toSingle rest key json
/-- The members of the object of a union, rounded like those of the record that it names. -/
def UnionLayout.rounded (toSingle : JsonNumber → UInt32) :
    UnionLayout → List JsonMember → List JsonMember
  | ⟨_, discriminator, _, variants⟩, members =>
      match (variantNode discriminator (.object members)).bind Json.text? with
      | some variant => VariantLayout.roundedNamed toSingle variants variant members
      | none => members
def VariantLayout.roundedNamed (toSingle : JsonNumber → UInt32) :
    List VariantLayout → String → List JsonMember → List JsonMember
  | [], _, members => members
  | ⟨name, _, member⟩ :: rest, variant, members =>
      if name = variant then Layout.roundedMembers toSingle member members
      else VariantLayout.roundedNamed toSingle rest variant members
def Layout.roundedMembers (toSingle : JsonNumber → UInt32) :
    Layout → List JsonMember → List JsonMember
  | .record record, members => RecordLayout.rounded toSingle record members
  | _, members => members
end

theorem floatDocument_toFloat (number : JsonNumber) :
    floatDocument number.toFloat = .number number.inDouble := by
  rw [floatDocument, JsonNumber.ofFloat?, dif_pos number.isFinite_toFloat, JsonNumber.inDouble]

/-- A 32-bit float that stands for a number is shown as that number or as an infinity. -/
theorem floatDocument_widen {bits : UInt32}
    (number : Binary.single.isNotANumber bits.toNat = false) :
    floatDocument (Binary.widen bits) = singleDocument bits := by
  rw [floatDocument, singleDocument, Binary.isNotANumber_widen, number]
  cases JsonNumber.ofFloat? (Binary.widen bits) with
  | some number => rfl
  | none =>
      simp only [Bool.false_eq_true, if_false]
      split <;> rfl

/-- A float is given by a number or by the text of what no number of a document is. -/
theorem floatOfDocument?_cases {json : Json} {bits : UInt64}
    (found : floatOfDocument? json = some bits) :
    (∃ number, json = .number number ∧ bits = number.toFloat) ∨
      (json = .text "NaN" ∧ bits = Binary.quietDouble) ∨
      (json = .text "Infinity" ∧ bits = Binary.positiveInfinity) ∨
      (json = .text "-Infinity" ∧ bits = Binary.negativeInfinity) := by
  unfold floatOfDocument? at found
  split at found
  · exact .inr (.inl ⟨rfl, (Option.some.inj found).symm⟩)
  · exact .inr (.inr (.inl ⟨rfl, (Option.some.inj found).symm⟩))
  · exact .inr (.inr (.inr ⟨rfl, (Option.some.inj found).symm⟩))
  · cases json with
    | number number => exact .inl ⟨number, rfl, (Option.some.inj found).symm⟩
    | _ => cases found

/-- The document of the 64-bit float of a node. -/
theorem floatDocument_of_floatOfDocument? {json : Json} {bits : UInt64} {name : String}
    (found : floatOfDocument? json = some bits) :
    floatDocument bits =
      (Layout.scalar name .double).rounded JsonNumber.singleOfFloat json := by
  rcases floatOfDocument?_cases found with ⟨number, rfl, rfl⟩ | ⟨rfl, rfl⟩ | ⟨rfl, rfl⟩ | ⟨rfl, rfl⟩
  · exact floatDocument_toFloat number
  · rfl
  · rfl
  · rfl

/-- The document of the 32-bit float of a node. -/
theorem floatDocument_of_singleOfDouble {json : Json} {bits : UInt64} {name : String}
    (found : floatOfDocument? json = some bits) :
    floatDocument (Binary.widen (singleOfDouble bits)) =
      (Layout.scalar name .single).rounded JsonNumber.singleOfFloat json := by
  rcases floatOfDocument?_cases found with ⟨number, rfl, rfl⟩ | ⟨rfl, rfl⟩ | ⟨rfl, rfl⟩ | ⟨rfl, rfl⟩
  · have finite := number.isFinite_toFloat
    rw [singleOfDouble, Binary.isNotANumber_of_isFinite finite, if_neg Bool.false_ne_true]
    exact floatDocument_widen (Binary.isNotANumber_narrow finite)
  · rfl
  · rfl
  · rfl

namespace Scalar

/-- The document of the value of a node is the node with its number rounded. -/
theorem document_ofDocument {scalar : Scalar} {name : String} {json : Json} {path : NodePath}
    {value : Value} (read : scalar.ofDocument json path = .ok value) :
    scalar.document value =
      .ok ((Layout.scalar name scalar).rounded JsonNumber.singleOfFloat json) := by
  simp only [ofDocument, bind_eq_ok, pure_eq_ok, orMismatch_eq_ok_iff] at read
  obtain ⟨_, known, bytes, image, rfl⟩ := read
  simp only [document, image]
  cases scalar with
  | unsigned width =>
      rcases (Option.orElse_eq_some _ _ _).mp known with integer | ⟨-, integer⟩ <;>
        obtain ⟨word, found, rfl⟩ := Option.map_eq_some_iff.mp integer
      · rw [Json.eq_ofUnsigned found]
        rfl
      · rw [Json.eq_ofSigned found]
        rfl
  | signed width =>
      rcases (Option.orElse_eq_some _ _ _).mp known with integer | ⟨-, integer⟩ <;>
        obtain ⟨word, found, rfl⟩ := Option.map_eq_some_iff.mp integer
      · rw [Json.eq_ofSigned found]
        rfl
      · rw [Json.eq_ofUnsigned found]
        rfl
  | single =>
      obtain ⟨bits, found, rfl⟩ := Option.map_eq_some_iff.mp known
      exact congrArg Except.ok (floatDocument_of_singleOfDouble found)
  | double =>
      obtain ⟨bits, found, rfl⟩ := Option.map_eq_some_iff.mp known
      exact congrArg Except.ok (floatDocument_of_floatOfDocument? found)
  | bool =>
      obtain ⟨truth, found, rfl⟩ := Option.map_eq_some_iff.mp known
      obtain rfl := Json.bool?_eq_some_iff.mp found
      rfl
  | char =>
      rcases (Option.orElse_eq_some _ _ _).mp known with character | ⟨-, character⟩ <;>
        obtain ⟨content, found, rfl⟩ := Option.map_eq_some_iff.mp character
      · obtain rfl := Json.text?_eq_some_iff.mp found
        rfl
      · rw [Json.eq_ofUnsigned found]
        rfl

end Scalar

namespace ConstantSet

variable {set : ConstantSet} {json : Json} {path : NodePath} {value : Value}

theorem constantDocument_ofDocument (read : set.constantOfDocument json path = .ok value) :
    set.constantDocument value = .ok json := by
  simp only [constantOfDocument, bind_eq_ok, pure_eq_ok, orMismatch_eq_ok_iff] at read
  obtain ⟨name, isText, word, known, rfl⟩ := read
  obtain rfl := Json.text?_eq_some_iff.mp isText
  simp only [constantDocument, known]
  rfl

theorem flagsDocument_ofDocument (read : set.flagsOfDocument json path = .ok value) :
    set.flagsDocument value = .ok json := by
  simp only [flagsOfDocument, bind_eq_ok, pure_eq_ok, orMismatch_eq_ok_iff, mapM_eq_ok] at read
  obtain ⟨items, isArray, names, texts, word, known, rfl⟩ := read
  obtain rfl := Json.items?_eq_some_iff.mp isArray
  rw [Json.eq_ofTexts texts]
  simp only [flagsDocument, known]
  rfl

end ConstantSet

end RecordCodec
