import RecordCodec.Proofs.Codec.Confined

/-!
# How long the values of a type may be

Records are measured against the limit while they are put together, unions are
not.  A union with its tag in front of a record of nearly the greatest length
therefore passes the limit, by less than the header is long.
-/

namespace RecordCodec

namespace Sample

/-- A record of the greatest length, and a union that puts a tag in front of it. -/
def oversized : List Declaration :=
  [.enumeration "Tag" "u8" [("Full", 1)] false,
    .record "Full" none [⟨"data", "u8", some 67108864⟩],
    .union "Headed" (.key "tag") (some "Tag") [.named "Full"]]

/-- The schema with that union. -/
def oversizedSchema : Schema :=
  (Schema.ofDeclarations oversized).toOption.getD ⟨[], []⟩

def headed : Layout :=
  .union ⟨"Headed", .key "tag", .enumeration ⟨"Tag", kinds.width, [⟨"Full", 1⟩]⟩,
    [⟨"Full", 1, .record ⟨"Full",
      [⟨"data", .scalar "u8" (.unsigned kinds.width), some 67108864, 0, 67108864⟩], 67108864⟩⟩]⟩

end Sample

namespace Schema

variable {declarations : List Declaration} {schema : Schema}

/-- A type of an accepted schema keeps to the limit exactly when it is not a
union with a tag in front of records that leave no room for it.  Every type
keeps to the limit with eight bytes more, and no value is announced to take
more than a slot, so no more is ever laid out for one. -/
theorem slotLength_le_layoutLimit_iff (accepted : ofDeclarations declarations = .ok schema)
    {layout : Layout} (member : layout ∈ schema.table) :
    (layout.slotLength ≤ layoutLimit ↔
      ∀ union key, layout = .union union → union.discriminator = .key key →
        ∀ variant ∈ union.variants,
          union.tags.width.bytes + variant.record.length ≤ layoutLimit) ∧
      layout.slotLength ≤ layoutLimit + 8 ∧
      ∀ value length, layout.encodedLength value = .ok length → length ≤ layout.slotLength := by
  have found := (distinct_of_ofDeclarations accepted).find?_of_mem member
  have wellFormed := wellFormed_of_find? accepted found
  refine ⟨?_, wellFormed.slotLength_le, fun _ _ => Layout.encodedLength_le⟩
  have word {length : Nat} (short : length ≤ 8) : length ≤ layoutLimit :=
    Nat.le_trans short (by decide)
  constructor
  · rintro fits union key rfl keyed variant among
    have inside := (UnionLayout.slotLength_le_iff.mp fits).2 variant among
    simpa only [UnionLayout.headerLength, keyed] using inside
  · intro room
    cases wellFormed with
    | @scalar _ scalar => exact word scalar.width_le_eight
    | @enumeration constants => exact word constants.width.atMostEight
    | @flags constants => exact word constants.width.atMostEight
    | record tiled => exact tiled.bounded
    | @union union _ records =>
        refine UnionLayout.slotLength_le_iff.mpr ⟨word union.headerLength_le, ?_⟩
        intro variant among
        cases shape : union.discriminator with
        | key key =>
            have inside := room union key rfl shape variant among
            simpa only [UnionLayout.headerLength, shape] using inside
        | path path offset =>
            have bounded := (records variant among).tiled.bounded
            simpa only [UnionLayout.headerLength, shape, Nat.zero_add] using bounded

theorem sample_message_within_limit :
    Sample.layout ∈ Sample.schema.table ∧
      (Sample.layout.slotLength ≤ layoutLimit ↔
        ∀ union key, Sample.layout = .union union → union.discriminator = .key key →
          ∀ variant ∈ union.variants,
            union.tags.width.bytes + variant.record.length ≤ layoutLimit) ∧
      Sample.layout.slotLength ≤ layoutLimit + 8 ∧
      ∀ value length, Sample.layout.encodedLength value = .ok length →
        length ≤ Sample.layout.slotLength := by
  have member : Sample.layout ∈ Sample.schema.table := by decide +kernel
  exact ⟨member, slotLength_le_layoutLimit_iff Sample.accepted member⟩

/-- The header of a union passes the limit that its record just keeps. -/
theorem headed_record_passes_limit :
    ofDeclarations Sample.oversized = .ok Sample.oversizedSchema ∧
      Sample.headed ∈ Sample.oversizedSchema.table ∧
      layoutLimit < Sample.headed.slotLength ∧
      Sample.headed.encodedLength (.union "Headed" "Full" ⟨"Full", []⟩) = .ok (layoutLimit + 1) := by
  refine ⟨eq_ok_getD ?_ _, ?_, ?_, ?_⟩
  · decide +kernel
  · decide +kernel
  · decide +kernel
  · decide +kernel

end Schema

end RecordCodec
