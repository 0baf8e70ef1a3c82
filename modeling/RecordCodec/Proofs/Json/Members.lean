import Mathlib.Data.List.Induction
import RecordCodec.Json.Basic
import RecordCodec.Proofs.Keyed

/-!
# Members in order

Sorting the members of an object keeps what is found under each key, the last
member of a key counting, and brings in no member of its own.
-/

namespace RecordCodec.JsonMember

variable {member other : JsonMember} {members : List JsonMember}

theorem find?_cons (member : JsonMember) (members : List JsonMember) (key : String) :
    find? (member :: members) key =
      if member.key = key then some member.value else find? members key := by
  unfold find?
  by_cases same : member.key = key <;> simp [same]

/-- A member replaces what was found under its key, and nothing else. -/
theorem find?_insert (member : JsonMember) (members : List JsonMember) (key : String) :
    find? (insert member members) key =
      if member.key = key then some member.value else find? members key := by
  -- The order does not matter here: wherever the member ends up, only members with
  -- other keys are in front of it.
  induction members with
  | nil => exact find?_cons member [] key
  | cons first rest ih =>
      unfold insert
      split
      · exact find?_cons member (first :: rest) key
      · split
        · rename_i same
          rw [find?_cons, find?_cons, ← same]
          split <;> rfl
        · rename_i differ
          rw [find?_cons, find?_cons, ih]
          by_cases wanted : first.key = key
          · rw [if_pos wanted, if_neg (wanted ▸ differ), if_pos wanted]
          · rw [if_neg wanted, if_neg wanted]

theorem sort_concat (members : List JsonMember) (member : JsonMember) :
    sort (members ++ [member]) = insert member (sort members) := by
  simp [sort]

/-- Under a key the last of its members is found. -/
theorem find?_sort (members : List JsonMember) (key : String) :
    find? (sort members) key = find? members.reverse key := by
  induction members using List.reverseRecOn with
  | nil => rfl
  | append_singleton members member ih =>
      rw [sort_concat, find?_insert, ih, List.reverse_concat, find?_cons]

theorem find?_sort_of_mem (distinct : (members.map key).Nodup) (among : member ∈ members) :
    find? (sort members) member.key = some member.value := by
  have reversed : (members.reverse.map key).Nodup := by
    rw [List.map_reverse, List.nodup_reverse]
    exact distinct
  rw [find?_sort, find?, (find?_key_eq_some reversed).mpr ⟨List.mem_reverse.mpr among, rfl⟩]
  rfl

theorem mem_insert (among : other ∈ insert member members) : other = member ∨ other ∈ members := by
  induction members with
  | nil => exact .inl (List.mem_singleton.mp among)
  | cons first rest ih =>
      unfold insert at among
      split at among
      · exact List.mem_cons.mp among
      · split at among
        · rcases List.mem_cons.mp among with rfl | inRest
          · exact .inl rfl
          · exact .inr (List.mem_cons_of_mem _ inRest)
        · rcases List.mem_cons.mp among with rfl | inserted
          · exact .inr List.mem_cons_self
          · exact (ih inserted).imp_right (List.mem_cons_of_mem _)

theorem mem_of_mem_sort (among : member ∈ sort members) : member ∈ members := by
  induction members using List.reverseRecOn with
  | nil => exact among
  | append_singleton members last ih =>
      rw [sort_concat] at among
      rcases mem_insert among with rfl | earlier
      · exact List.mem_concat_self
      · exact List.mem_append_left _ (ih earlier)

end RecordCodec.JsonMember
