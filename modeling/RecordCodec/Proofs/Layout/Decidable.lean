import RecordCodec.Layout.Basic

/-!
# Telling layouts apart

Two layouts are compared part by part, so that what resolving gives can be
compared with the layout that is expected.
-/

namespace RecordCodec

mutual
/-- The layouts are built alike from the same parts. -/
def Layout.same : Layout → Layout → Bool
  | .scalar firstName first, .scalar secondName second =>
      firstName == secondName && first == second
  | .enumeration first, .enumeration second => first == second
  | .flags first, .flags second => first == second
  | .record first, .record second => RecordLayout.same first second
  | .union first, .union second => UnionLayout.same first second
  | _, _ => false
termination_by structural first => first
def RecordLayout.same : RecordLayout → RecordLayout → Bool
  | ⟨name, fields, length⟩, other =>
      name == other.name && FieldLayout.sameAll fields other.fields && length == other.length
termination_by structural first => first
def FieldLayout.sameAll : List FieldLayout → List FieldLayout → Bool
  | [], [] => true
  | ⟨name, element, count, offset, length⟩ :: rest, other :: otherRest =>
      name == other.name && Layout.same element other.element && count == other.count &&
        offset == other.offset && length == other.length && FieldLayout.sameAll rest otherRest
  | _, _ => false
termination_by structural first => first
def UnionLayout.same : UnionLayout → UnionLayout → Bool
  | ⟨name, discriminator, discriminant, variants⟩, other =>
      name == other.name && discriminator == other.discriminator &&
        Layout.same discriminant other.discriminant &&
        VariantLayout.sameAll variants other.variants
termination_by structural first => first
def VariantLayout.sameAll : List VariantLayout → List VariantLayout → Bool
  | [], [] => true
  | ⟨name, tag, member⟩ :: rest, other :: otherRest =>
      name == other.name && tag == other.tag && Layout.same member other.member &&
        VariantLayout.sameAll rest otherRest
  | _, _ => false
termination_by structural first => first
end

mutual
theorem Layout.same_iff : ∀ first second : Layout, first.same second = true ↔ first = second
  | .record record, second => by cases second <;> simp [Layout.same, RecordLayout.same_iff record]
  | .union union, second => by cases second <;> simp [Layout.same, UnionLayout.same_iff union]
  | .scalar _ _, second | .enumeration _, second | .flags _, second => by
      cases second <;> simp [Layout.same]
termination_by structural first => first
theorem RecordLayout.same_iff :
    ∀ first second : RecordLayout, first.same second = true ↔ first = second
  | ⟨name, fields, length⟩, second => by
      cases second
      simp [RecordLayout.same, FieldLayout.sameAll_iff fields, and_assoc]
termination_by structural first => first
theorem FieldLayout.sameAll_iff :
    ∀ first second : List FieldLayout, FieldLayout.sameAll first second = true ↔ first = second
  | [], second => by cases second <;> simp [FieldLayout.sameAll]
  | ⟨name, element, count, offset, length⟩ :: rest, second => by
      cases second with
      | nil => simp [FieldLayout.sameAll]
      | cons other otherRest =>
          cases other
          simp [FieldLayout.sameAll, Layout.same_iff element, FieldLayout.sameAll_iff rest,
            and_assoc]
termination_by structural first => first
theorem UnionLayout.same_iff :
    ∀ first second : UnionLayout, first.same second = true ↔ first = second
  | ⟨name, discriminator, discriminant, variants⟩, second => by
      cases second
      simp [UnionLayout.same, Layout.same_iff discriminant, VariantLayout.sameAll_iff variants,
        and_assoc]
termination_by structural first => first
theorem VariantLayout.sameAll_iff :
    ∀ first second : List VariantLayout, VariantLayout.sameAll first second = true ↔ first = second
  | [], second => by cases second <;> simp [VariantLayout.sameAll]
  | ⟨name, tag, member⟩ :: rest, second => by
      cases second with
      | nil => simp [VariantLayout.sameAll]
      | cons other otherRest =>
          cases other
          simp [VariantLayout.sameAll, Layout.same_iff member,
            VariantLayout.sameAll_iff rest, and_assoc]
termination_by structural first => first
end

instance : DecidableEq Layout :=
  fun first second => decidable_of_iff _ (Layout.same_iff first second)

end RecordCodec
