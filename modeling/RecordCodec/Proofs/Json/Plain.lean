import Mathlib.Data.List.Sort
import Mathlib.Data.String.Basic
import RecordCodec.Proofs.Json.Members

/-!
# Plain JSON values

In a plain value the members of every object are in the order of their keys and
repeat none.  Normalizing makes a value plain.  Members in order are the same
as soon as the same is found under every key, so an object that is put together
in another order is the same object once its members are sorted.
-/

namespace RecordCodec

namespace JsonMember

/-- The keys increase. -/
def Ordered (members : List JsonMember) : Prop :=
  members.Pairwise fun first second => first.key < second.key

variable {member : JsonMember} {members others : List JsonMember}

theorem Ordered.nodup (ordered : Ordered members) : (members.map key).Nodup :=
  List.pairwise_map.mpr (ordered.imp ne_of_lt)

theorem ordered_insert (member : JsonMember) (ordered : Ordered members) :
    Ordered (insert member members) := by
  induction members with
  | nil => exact List.pairwise_singleton _ _
  | cons first rest ih =>
      obtain ⟨least, rest⟩ := List.pairwise_cons.mp ordered
      unfold insert
      split
      · rename_i before
        refine List.pairwise_cons.mpr ⟨fun other among => ?_, ordered⟩
        rcases List.mem_cons.mp among with rfl | behind
        · exact before
        · exact before.trans (least other behind)
      · rename_i notBefore
        split
        · rename_i same
          refine List.pairwise_cons.mpr ⟨fun other among => ?_, rest⟩
          rw [same]
          exact least other among
        · rename_i differ
          refine List.pairwise_cons.mpr ⟨fun other among => ?_, ih rest⟩
          rcases mem_insert among with rfl | behind
          · exact lt_of_le_of_ne (not_lt.mp notBefore) (Ne.symm differ)
          · exact least other behind

theorem ordered_sort (members : List JsonMember) : Ordered (sort members) := by
  induction members using List.reverseRecOn with
  | nil => exact List.Pairwise.nil
  | append_singleton members member ih =>
      rw [sort_concat]
      exact ordered_insert member ih

theorem find?_eq_some_iff (distinct : (members.map key).Nodup) {wanted : String} {value : Json} :
    find? members wanted = some value ↔ (⟨wanted, value⟩ : JsonMember) ∈ members := by
  simp only [find?, Option.map_eq_some_iff, find?_key_eq_some distinct]
  constructor
  · rintro ⟨⟨_, _⟩, ⟨among, rfl⟩, rfl⟩
    exact among
  · intro among
    exact ⟨_, ⟨among, rfl⟩, rfl⟩

/-- Members in order are determined by what is found under each key. -/
theorem Ordered.ext (ordered : Ordered members) (othersOrdered : Ordered others)
    (same : ∀ key, find? members key = find? others key) : members = others := by
  have irreflexive {members : List JsonMember} (ordered : Ordered members) : members.Nodup :=
    ordered.imp fun less equal => absurd (congrArg key equal) (ne_of_lt less)
  have equivalent (member : JsonMember) : member ∈ members ↔ member ∈ others := by
    have here : find? members member.key = some member.value ↔
        (⟨member.key, member.value⟩ : JsonMember) ∈ members := find?_eq_some_iff ordered.nodup
    rw [same, find?_eq_some_iff othersOrdered.nodup] at here
    cases member
    exact here.symm
  exact ((List.perm_ext_iff_of_nodup (irreflexive ordered) (irreflexive othersOrdered)).mpr
    equivalent).eq_of_pairwise (fun _ _ _ _ less greater => absurd less greater.asymm) ordered
    othersOrdered

theorem find?_eq_none_iff {wanted : String} :
    find? members wanted = none ↔ ∀ member ∈ members, member.key ≠ wanted := by
  simp [find?]

/-- Members with distinct keys that are all found among members in order, and
that have all their keys, are the same members once they are sorted. -/
theorem Ordered.sort_eq (ordered : Ordered others) (distinct : (members.map key).Nodup)
    (each : ∀ member ∈ members, find? others member.key = some member.value)
    (covered : ∀ other ∈ others, ∃ member ∈ members, member.key = other.key) :
    sort members = others := by
  refine (ordered_sort members).ext ordered fun wanted => ?_
  by_cases present : ∃ member ∈ members, member.key = wanted
  · obtain ⟨member, among, rfl⟩ := present
    rw [find?_sort_of_mem distinct among, each member among]
  · have absent : find? (sort members) wanted = none :=
      find?_eq_none_iff.mpr fun member among same => present ⟨member, mem_of_mem_sort among, same⟩
    have missing : find? others wanted = none := find?_eq_none_iff.mpr fun other among same => by
      obtain ⟨member, inMembers, keys⟩ := covered other among
      exact present ⟨member, inMembers, keys.trans same⟩
    rw [absent, missing]

end JsonMember

mutual
/-- At every object the keys of the members increase. -/
def Json.Plain : Json → Prop
  | .array items => Json.AllPlain items
  | .object members => JsonMember.Ordered members ∧ JsonMember.AllPlain members
  | _ => True
def Json.AllPlain : List Json → Prop
  | [] => True
  | item :: rest => item.Plain ∧ Json.AllPlain rest
def JsonMember.AllPlain : List JsonMember → Prop
  | [] => True
  | ⟨_, value⟩ :: rest => value.Plain ∧ JsonMember.AllPlain rest
end

theorem Json.allPlain_iff {items : List Json} :
    Json.AllPlain items ↔ ∀ item ∈ items, item.Plain := by
  induction items with
  | nil => simp [Json.AllPlain]
  | cons item rest ih => simp [Json.AllPlain, ih]

theorem JsonMember.allPlain_iff {members : List JsonMember} :
    JsonMember.AllPlain members ↔ ∀ member ∈ members, member.value.Plain := by
  induction members with
  | nil => simp [JsonMember.AllPlain]
  | cons member rest ih =>
      cases member
      simp [JsonMember.AllPlain, ih]

theorem JsonMember.allPlain_sort {members : List JsonMember}
    (plain : JsonMember.AllPlain members) : JsonMember.AllPlain (JsonMember.sort members) := by
  rw [JsonMember.allPlain_iff] at plain ⊢
  exact fun member among => plain member (JsonMember.mem_of_mem_sort among)

/-- Under a key of a plain object a plain value is found. -/
theorem JsonMember.plain_of_find? {members : List JsonMember}
    (plain : JsonMember.AllPlain members) {key : String} {json : Json}
    (found : JsonMember.find? members key = some json) : json.Plain := by
  obtain ⟨member, among, rfl⟩ := Option.map_eq_some_iff.mp found
  exact JsonMember.allPlain_iff.mp plain member (List.mem_of_find?_eq_some among)

mutual
/-- Normalizing makes a value plain. -/
theorem Json.plain_normalize : ∀ json : Json, json.normalize.Plain
  | .array items => by
      rw [Json.normalize, Json.Plain]
      exact Json.allPlain_normalizeItems items
  | .object members => by
      rw [Json.normalize, Json.Plain]
      exact ⟨JsonMember.ordered_sort _,
        JsonMember.allPlain_sort (Json.allPlain_normalizeMembers members)⟩
  | .null | .bool _ | .number _ | .text _ => True.intro
theorem Json.allPlain_normalizeItems :
    ∀ items : List Json, Json.AllPlain (Json.normalizeItems items)
  | [] => True.intro
  | item :: rest => ⟨item.plain_normalize, Json.allPlain_normalizeItems rest⟩
theorem Json.allPlain_normalizeMembers :
    ∀ members : List JsonMember, JsonMember.AllPlain (Json.normalizeMembers members)
  | [] => True.intro
  | ⟨_, value⟩ :: rest => ⟨value.plain_normalize, Json.allPlain_normalizeMembers rest⟩
end

end RecordCodec
