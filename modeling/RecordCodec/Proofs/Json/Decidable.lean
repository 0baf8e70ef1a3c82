import RecordCodec.Json.Basic

/-!
# Telling documents apart

Two JSON values are compared part by part; the order of the members of an
object counts.
-/

namespace RecordCodec

mutual
/-- The JSON values are built alike from the same parts. -/
def Json.same : Json → Json → Bool
  | .null, .null => true
  | .bool first, .bool second => first == second
  | .number first, .number second => first == second
  | .text first, .text second => first == second
  | .array first, .array second => Json.sameItems first second
  | .object first, .object second => JsonMember.sameAll first second
  | _, _ => false
termination_by structural first => first
def Json.sameItems : List Json → List Json → Bool
  | [], [] => true
  | first :: firstRest, second :: secondRest =>
      Json.same first second && Json.sameItems firstRest secondRest
  | _, _ => false
termination_by structural first => first
def JsonMember.sameAll : List JsonMember → List JsonMember → Bool
  | [], [] => true
  | ⟨key, value⟩ :: rest, other :: otherRest =>
      key == other.key && Json.same value other.value && JsonMember.sameAll rest otherRest
  | _, _ => false
termination_by structural first => first
end

mutual
theorem Json.same_iff : ∀ first second : Json, first.same second = true ↔ first = second
  | .array items, second => by cases second <;> simp [Json.same, Json.sameItems_iff items]
  | .object members, second => by
      cases second <;> simp [Json.same, JsonMember.sameAll_iff members]
  | .null, second | .bool _, second | .number _, second | .text _, second => by
      cases second <;> simp [Json.same]
termination_by structural first => first
theorem Json.sameItems_iff :
    ∀ first second : List Json, Json.sameItems first second = true ↔ first = second
  | [], second => by cases second <;> simp [Json.sameItems]
  | item :: rest, second => by
      cases second <;> simp [Json.sameItems, Json.same_iff item, Json.sameItems_iff rest]
termination_by structural first => first
theorem JsonMember.sameAll_iff :
    ∀ first second : List JsonMember, JsonMember.sameAll first second = true ↔ first = second
  | [], second => by cases second <;> simp [JsonMember.sameAll]
  | ⟨key, value⟩ :: rest, second => by
      cases second with
      | nil => simp [JsonMember.sameAll]
      | cons other otherRest =>
          cases other
          simp [JsonMember.sameAll, Json.same_iff value, JsonMember.sameAll_iff rest]
termination_by structural first => first
end

instance : DecidableEq Json :=
  fun first second => decidable_of_iff _ (Json.same_iff first second)

end RecordCodec
