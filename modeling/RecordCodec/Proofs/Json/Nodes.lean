import RecordCodec.Json.Basic
import Mathlib.Data.List.Forall2

/-!
# Nodes of a document

A node of a document is asked for what it holds by kind.  What it gives leaves
no choice of the node: one kind of node holds texts, one holds truth values,
and an integer is held as a number that keeps all of its digits.
-/

namespace RecordCodec

theorem JsonNumber.eq_ofUnsigned {number : JsonNumber} {word : UInt64}
    (unsigned : number.toUnsigned? = some word) : number = .ofUnsigned word := by
  cases number with
  | integer value fits =>
      simp only [toUnsigned?] at unsigned
      split at unsigned
      · obtain rfl := Option.some.inj unsigned
        have same : ((UInt64.ofNat value.toNat).toNat : Int) = value := by
          rw [UInt64.toNat_ofNat', Nat.mod_eq_of_lt (by omega)]
          omega
        simp only [ofUnsigned, same]
      · cases unsigned
  | float bits finite => cases unsigned

theorem JsonNumber.eq_ofSigned {number : JsonNumber} {word : Int64}
    (signed : number.toSigned? = some word) : number = .ofSigned word := by
  cases number with
  | integer value fits =>
      simp only [toSigned?] at signed
      split at signed
      · obtain rfl := Option.some.inj signed
        have same : (Int64.ofInt value).toInt = value :=
          Int64.toInt_ofInt_of_le (by omega) (by omega)
        simp only [ofSigned, same]
      · cases signed
  | float bits finite => cases signed

namespace Json

variable {json : Json}

theorem text?_eq_some_iff {text : String} : json.text? = some text ↔ json = .text text := by
  cases json <;> simp [text?]

theorem bool?_eq_some_iff {truth : Bool} : json.bool? = some truth ↔ json = .bool truth := by
  cases json <;> simp [bool?]

theorem items?_eq_some_iff {items : List Json} :
    json.items? = some items ↔ json = .array items := by
  cases json <;> simp [items?]

theorem members?_eq_some_iff {members : List JsonMember} :
    json.members? = some members ↔ json = .object members := by
  cases json <;> simp [members?]

theorem eq_ofUnsigned {word : UInt64} (unsigned : json.unsigned? = some word) :
    json = .ofUnsigned word := by
  cases json with
  | number number => exact congrArg Json.number (JsonNumber.eq_ofUnsigned unsigned)
  | _ => cases unsigned

theorem eq_ofSigned {word : Int64} (signed : json.signed? = some word) :
    json = .ofSigned word := by
  cases json with
  | number number => exact congrArg Json.number (JsonNumber.eq_ofSigned signed)
  | _ => cases signed

theorem eq_ofTexts {items : List Json} {texts : List String}
    (each : List.Forall₂ (fun item text => item.text? = some text) items texts) :
    Json.array items = .ofTexts texts := by
  have same : items = texts.map Json.text := by
    rw [← List.forall₂_eq_eq_eq, List.forall₂_map_right_iff]
    exact each.imp fun _ _ isText => text?_eq_some_iff.mp isText
  rw [same, ofTexts]

theorem getPath?_object_cons (members : List JsonMember) (key : String) (keys : List String) :
    (Json.object members).getPath? (key :: keys) =
      (JsonMember.find? members key).bind fun json => json.getPath? keys :=
  rfl

end Json

end RecordCodec
