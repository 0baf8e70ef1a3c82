import RecordCodec.Proofs.Document.Admitted
import RecordCodec.Proofs.Schema.WellFormed
import RecordCodec.Proofs.Value.Equivalence

/-!
# Values that can be built

Supplying the fields of a record one after the other is the only way to make
one, besides reading it from bytes or from a document.  So the records in a
value repeat no names, and equality by meaning is an equivalence.
-/

namespace RecordCodec

/-- The values that can be built from others or by reading, with their parts. -/
inductive Value.Built : Value → Prop
  | leaf {value : Value} (leaf : value.isLeaf = true) : Built value
  | array {items : List Value} (built : ∀ item ∈ items, Built item) : Built (.array items)
  | record {type : String} {fields : List FieldValue}
      (built : ∀ field ∈ fields, Built field.value) :
      Built (.record (RecordValue.ofFields type fields))
  | union {type variant : String} {payload : RecordValue} (built : Built (.record payload)) :
      Built (.union type variant payload)
  | payload {type variant : String} {payload : RecordValue}
      (built : Built (.union type variant payload)) : Built (.record payload)
  | part {part whole : Value} (built : Built whole) (inside : part.Inside whole) : Built part
  | yielded {declarations : List Declaration} {schema : Schema} {name : String} {layout : Layout}
      {value : Value} (accepted : Schema.ofDeclarations declarations = .ok schema)
      (found : schema.find? name = some layout) (yields : layout.Yields value) : Built value

theorem Value.Built.namesApart {value : Value} (built : value.Built) : value.NamesApart := by
  induction built with
  | leaf leaf => exact Value.namesApart_of_isLeaf leaf
  | array _ ih => exact Value.namesApart_array.mpr ih
  | @record type fields _ ih =>
      refine RecordValue.namesApart_iff.mpr ⟨RecordValue.distinct_ofFields type fields, ?_⟩
      exact fun field member => ih field (RecordValue.mem_of_mem_ofFields member)
  | union _ ih => exact ih
  | payload _ ih => exact ih
  | part _ inside ih => exact inside.namesApart ih
  | yielded accepted found yields =>
      exact (yields.admits (Schema.wellFormed_of_find? accepted found)).2

/-- Equality by meaning is an equivalence of the values that can be built.  Integers are equal
when their numbers are, floats when they are as wide and have the same bits, and records when they
have the same type and, under every name, nothing or equal values.  Records can as well be compared
by looking up the fields of the first, on either side of the comparison. -/
theorem Value.equality_is_equivalence :
    Equivalence (fun first second : { value : Value // value.Built } =>
      first.val.equal second.val = true) ∧
    (∀ (first second : Value) number other,
      first.integer? = some number → second.integer? = some other →
        (first.equal second = true ↔ number = other)) ∧
    (∀ bits value, (Value.single bits).equal value = true ↔ value = .single bits) ∧
    (∀ bits value, (Value.double bits).equal value = true ↔ value = .double bits) ∧
    ∀ first second : RecordValue, Value.Built (.record first) → Value.Built (.record second) →
      ((Value.record first).equal (.record second) = true ↔
        first.type = second.type ∧
          ∀ name, Option.Rel (fun value other => value.equal other = true) (first.get? name)
            (second.get? name)) ∧
      ((Value.record first).equal (.record second) = true ↔
        first.type = second.type ∧ first.fields.length = second.fields.length ∧
          ∀ field ∈ first.fields, ∃ value, second.get? field.name = some value ∧
            value.equal field.value = true) := by
  refine ⟨⟨?_, ?_, ?_⟩, ?_, ?_, ?_, ?_⟩
  · exact fun value => Value.equal_refl value.property.namesApart
  · exact fun {first _} => Value.equal_symm first.property.namesApart
  · exact Value.equal_trans
  · exact fun first second number other => Value.equal_integers_iff
  · exact fun bits value => Value.equal_iff_eq rfl
  · exact fun bits value => Value.equal_iff_eq rfl
  · intro first second firstBuilt secondBuilt
    have firstApart : first.NamesApart := firstBuilt.namesApart
    have secondApart : second.NamesApart := secondBuilt.namesApart
    rw [Value.equal]
    exact ⟨RecordValue.equal_iff_get? (RecordValue.namesApart_iff.mp firstApart).1
        (RecordValue.namesApart_iff.mp secondApart).1,
      RecordValue.equal_iff_found_equal firstApart secondApart⟩

namespace Sample

/-- The fields of a corner, and the same fields in another order and with another signedness. -/
def cornerFields : List FieldValue × List FieldValue :=
  ([⟨"left", .unsigned 3⟩, ⟨"top", .signed (-2)⟩], [⟨"top", .signed (-2)⟩, ⟨"left", .signed 3⟩])

theorem built_corners :
    Value.Built (.record (RecordValue.ofFields "Corner" cornerFields.1)) ∧
      Value.Built (.record (RecordValue.ofFields "Corner" cornerFields.2)) := by
  constructor
  · exact .record (List.forall_mem_cons.mpr ⟨.leaf rfl, List.forall_mem_singleton.mpr (.leaf rfl)⟩)
  · exact .record (List.forall_mem_cons.mpr ⟨.leaf rfl, List.forall_mem_singleton.mpr (.leaf rfl)⟩)

theorem built_receivedMessage : receivedMessage.Built := by
  have read : layout.read ⟨false, true⟩ received 1 = .ok (receivedMessage, 24) := by
    decide +kernel
  exact .yielded accepted found (.read read)

end Sample

theorem Value.sample_equality :
    Sample.receivedMessage.equal Sample.receivedMessage = true ∧
      ((Value.unsigned 3).equal (.signed 3) = true ↔ (3 : Int) = 3) ∧
      ∀ name, Option.Rel (fun value other => value.equal other = true)
        ((RecordValue.ofFields "Corner" Sample.cornerFields.1).get? name)
        ((RecordValue.ofFields "Corner" Sample.cornerFields.2).get? name) := by
  obtain ⟨equivalence, integers, -, -, records⟩ := Value.equality_is_equivalence
  obtain ⟨first, second⟩ := Sample.built_corners
  refine ⟨equivalence.refl ⟨_, Sample.built_receivedMessage⟩, integers _ _ 3 3 rfl rfl, ?_⟩
  exact ((records _ _ first second).1.mp (by decide)).2

end RecordCodec
