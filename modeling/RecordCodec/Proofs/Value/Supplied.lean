import Mathlib.Data.List.Induction
import RecordCodec.Proofs.Value.Built

/-!
# Records as they are supplied

A record to which fields are supplied one after the other is a finite map in the order of insertion:
it has each name once, where it was supplied first, with the value that was supplied last.  Records
that are read from bytes or from a document do not come about in this way, but they repeat no name
either, because the layout does not.
-/

namespace RecordCodec

namespace FieldValue

/-- The value that was supplied last under a name. -/
def findLast? (calls : List FieldValue) (name : String) : Option Value :=
  find? calls.reverse name

variable {calls : List FieldValue} {call : FieldValue} {name : String}

theorem find?_cons (first : FieldValue) (rest : List FieldValue) (name : String) :
    find? (first :: rest) name =
      if first.name = name then some first.value else find? rest name := by
  by_cases same : first.name = name
  · simp [find?, same]
  · simp [find?, same, beq_eq_false_iff_ne.mpr same]

theorem findLast?_concat (calls : List FieldValue) (call : FieldValue) (name : String) :
    findLast? (calls ++ [call]) name =
      if call.name = name then some call.value else findLast? calls name := by
  rw [findLast?, List.reverse_concat, find?_cons, findLast?]

theorem find?_set (fields : List FieldValue) (name : String) (value : Value) (other : String) :
    find? (set name value fields) other =
      if name = other then some value else find? fields other := by
  induction fields with
  | nil => rw [set, find?_cons]
  | cons first rest ih =>
      by_cases same : first.name = name
      · rw [set, if_pos same, find?_cons, find?_cons, same]
        split_ifs <;> rfl
      · rw [set, if_neg same, find?_cons, ih, find?_cons]
        by_cases found : first.name = other
        · rw [if_pos found, if_pos found, if_neg fun equal => same (found.trans equal.symm)]
        · rw [if_neg found, if_neg found]

end FieldValue

namespace RecordValue

/-- The record has what the calls supply: each name once, in the order in which the names were
supplied first, with the value that was supplied last. -/
structure Collects (record : RecordValue) (calls : List FieldValue) : Prop where
  distinct : record.Distinct
  supplied : ∀ name, name ∈ record.fields.map FieldValue.name ↔ name ∈ calls.map FieldValue.name
  ordered : (record.fields.map FieldValue.name).Pairwise fun first second =>
    (calls.map FieldValue.name).idxOf first < (calls.map FieldValue.name).idxOf second
  last : ∀ name, record.get? name = FieldValue.findLast? calls name

theorem collects_nil (type : String) : Collects ⟨type, []⟩ [] :=
  ⟨List.nodup_nil, fun _ => Iff.rfl, .nil, fun _ => rfl⟩

theorem Collects.set {record : RecordValue} {calls : List FieldValue}
    (collects : record.Collects calls) (call : FieldValue) :
    (record.set call.name call.value).Collects (calls ++ [call]) := by
  have names := FieldValue.names_set call.name call.value record.fields
  have given : (calls ++ [call]).map FieldValue.name =
      calls.map FieldValue.name ++ [call.name] := by simp
  -- a name that was supplied before keeps its first place
  have place {name : String} (member : name ∈ calls.map FieldValue.name) :
      (calls.map FieldValue.name ++ [call.name]).idxOf name =
        (calls.map FieldValue.name).idxOf name :=
    List.idxOf_append_of_mem member
  have ordered : (record.fields.map FieldValue.name).Pairwise fun first second =>
      (calls.map FieldValue.name ++ [call.name]).idxOf first <
        (calls.map FieldValue.name ++ [call.name]).idxOf second := by
    refine collects.ordered.imp_of_mem fun {first second} firstMember secondMember before => ?_
    rwa [place ((collects.supplied first).mp firstMember),
      place ((collects.supplied second).mp secondMember)]
  refine ⟨collects.distinct.set call.name call.value, fun name => ?_, ?_, fun name => ?_⟩
  · rw [RecordValue.set, names, given, List.mem_append, ← collects.supplied name]
    split
    · rename_i known
      simp only [List.mem_singleton]
      exact ⟨.inl, fun either => either.elim id fun same => same ▸ known⟩
    · rw [List.mem_append]
  · rw [RecordValue.set, names, given]
    split
    · exact ordered
    · rename_i new
      refine List.pairwise_append.mpr ⟨ordered, List.pairwise_singleton .., ?_⟩
      intro first member second last
      have known := (collects.supplied first).mp member
      have unknown := mt (collects.supplied call.name).mpr new
      rw [List.mem_singleton.mp last, place known, List.idxOf_append_of_notMem unknown]
      exact Nat.lt_add_right _ (List.idxOf_lt_length_iff.mpr known)
  · have held := collects.last name
    rw [RecordValue.get?] at held
    rw [RecordValue.get?, RecordValue.set, FieldValue.find?_set, FieldValue.findLast?_concat, held]

/-- One more call sets one more field. -/
theorem ofFields_concat (type : String) (calls : List FieldValue) (call : FieldValue) :
    ofFields type (calls ++ [call]) = (ofFields type calls).set call.name call.value :=
  List.foldl_concat ..

theorem collects_ofFields (type : String) (calls : List FieldValue) :
    (ofFields type calls).Collects calls := by
  induction calls using List.reverseRecOn with
  | nil => exact collects_nil type
  | append_singleton calls call ih =>
      rw [ofFields_concat]
      exact ih.set call

theorem type_ofFields (type : String) (calls : List FieldValue) :
    (ofFields type calls).type = type := by
  induction calls using List.reverseRecOn with
  | nil => rfl
  | append_singleton calls call ih =>
      rw [ofFields_concat]
      exact ih

/-- What counts of the calls is what was supplied last under each name. -/
theorem equal_ofFields_iff {type : String} {calls others : List FieldValue} :
    (ofFields type calls).equal (ofFields type others) = true ↔
      ∀ name, Option.Rel (fun value other => value.equal other = true)
        (FieldValue.findLast? calls name) (FieldValue.findLast? others name) := by
  have first := collects_ofFields type calls
  have second := collects_ofFields type others
  rw [equal_iff_get? first.distinct second.distinct, type_ofFields, type_ofFields]
  simp only [first.last, second.last, true_and]

theorem mem_of_findLast? {calls : List FieldValue} {name : String} {value : Value}
    (found : FieldValue.findLast? calls name = some value) : ⟨name, value⟩ ∈ calls := by
  rw [← (collects_ofFields "" calls).last] at found
  exact mem_of_mem_ofFields (mem_of_get? found)

/-- A record to which fields are supplied is a finite map in the order of insertion, and two such
records of one type mean the same exactly if the values do that were supplied last under each name.
What is read from bytes or from a document repeats no name in any of its records. -/
theorem insertion_ordered :
    (∀ type calls, (ofFields type calls).type = type ∧ (ofFields type calls).Collects calls) ∧
    (∀ type calls others, (ofFields type calls).equal (ofFields type others) = true ↔
      ∀ name, Option.Rel (fun value other => value.equal other = true)
        (FieldValue.findLast? calls name) (FieldValue.findLast? others name)) ∧
    (∀ type calls others, (∀ field ∈ calls, field.value.Built) →
      (∀ name, FieldValue.findLast? calls name = FieldValue.findLast? others name) →
        (ofFields type calls).equal (ofFields type others) = true) ∧
    ∀ declarations schema name layout, Schema.ofDeclarations declarations = .ok schema →
      schema.find? name = some layout →
        (∀ options buffer offset value used,
          layout.read options buffer offset = .ok (value, used) → value.NamesApart) ∧
        ∀ json path value, layout.ofDocument json path = .ok value → value.NamesApart := by
  refine ⟨fun type calls => ⟨type_ofFields type calls, collects_ofFields type calls⟩,
    fun _ _ _ => equal_ofFields_iff, ?_, ?_⟩
  · intro type calls others built same
    refine equal_ofFields_iff.mpr fun name => ?_
    rw [← same name]
    cases found : FieldValue.findLast? calls name with
    | none => exact .none
    | some value => exact .some (Value.equal_refl (built _ (mem_of_findLast? found)).namesApart)
  · intro declarations schema name layout accepted found
    have wellFormed := Schema.wellFormed_of_find? accepted found
    exact ⟨fun options buffer offset value used => wellFormed.namesApart_of_read offset value used,
      fun json path value read => (wellFormed.delivers json path value read).2⟩

end RecordValue

namespace Sample

/-- The fields of a corner, of which one is corrected, and those of the corner as it is meant. -/
def correctedFields : List FieldValue × List FieldValue :=
  ([⟨"left", .unsigned 3⟩, ⟨"top", .signed (-2)⟩, ⟨"left", .unsigned 5⟩],
    [⟨"top", .signed (-2)⟩, ⟨"left", .unsigned 5⟩])

theorem correctedFields_same (name : String) :
    FieldValue.findLast? correctedFields.1 name = FieldValue.findLast? correctedFields.2 name := by
  simp only [FieldValue.findLast?, correctedFields, List.reverse_cons, List.reverse_nil,
    List.nil_append, List.cons_append, FieldValue.find?_cons]
  split_ifs <;> rfl

end Sample

/-- A field that is corrected keeps its place, and the corner means what it should. -/
theorem RecordValue.sample_corrected :
    (RecordValue.ofFields "Corner" Sample.correctedFields.1).Collects Sample.correctedFields.1 ∧
      (RecordValue.ofFields "Corner" Sample.correctedFields.1).equal
        (RecordValue.ofFields "Corner" Sample.correctedFields.2) = true ∧
      Sample.receivedMessage.NamesApart := by
  obtain ⟨collected, -, same, yielded⟩ := RecordValue.insertion_ordered
  have built : ∀ field ∈ Sample.correctedFields.1, field.value.Built :=
    List.forall_mem_cons.mpr ⟨.leaf rfl, List.forall_mem_cons.mpr ⟨.leaf rfl,
      List.forall_mem_singleton.mpr (.leaf rfl)⟩⟩
  have read : Sample.layout.read ⟨false, true⟩ Sample.received 1 =
      .ok (Sample.receivedMessage, 24) := by decide +kernel
  exact ⟨(collected "Corner" _).2, same "Corner" _ _ built Sample.correctedFields_same,
    (yielded _ _ _ _ Sample.accepted Sample.found).1 _ _ _ _ _ read⟩

end RecordCodec
