import RecordCodec.Proofs.Codec.Portable
import RecordCodec.Proofs.Failure

/-!
# Padding carries no meaning

Strict reading does the same as lenient reading, except that it may stop at
padding.  The byte where it stops lies behind the variant that its slot holds,
so lenient reading gives the same value whatever that byte is.
-/

namespace RecordCodec

/-- The first run gives what the second one gives, unless it stops at padding. -/
def Tightens {α : Type} (strict lenient : Except Error α) : Prop :=
  strict = lenient ∨ ∃ type position, strict = .error (.nonZeroPadding type position)

namespace Tightens

variable {α β : Type}

theorem refl (run : Except Error α) : Tightens run run :=
  .inl rfl

theorem stop (type : String) (position : Nat) (run : Except Error α) :
    Tightens (throw (.nonZeroPadding type position)) run :=
  .inr ⟨type, position, rfl⟩

theorem bind {strict lenient : Except Error α} {strictNext lenientNext : α → Except Error β}
    (first : Tightens strict lenient)
    (second : ∀ result, Tightens (strictNext result) (lenientNext result)) :
    Tightens (strict >>= strictNext) (lenient >>= lenientNext) := by
  rcases first with rfl | ⟨type, position, rfl⟩
  · cases strict with
    | error error => exact refl _
    | ok result => exact second result
  · exact .inr ⟨type, position, rfl⟩

theorem mapM {strict lenient : α → Except Error β}
    (each : ∀ item, Tightens (strict item) (lenient item)) (items : List α) :
    Tightens (items.mapM strict) (items.mapM lenient) := by
  induction items with
  | nil => exact refl _
  | cons item rest ih =>
      rw [List.mapM_cons, List.mapM_cons]
      exact (each item).bind fun _ => ih.bind fun _ => refl _

/-- What strict reading accepts, lenient reading gives. -/
theorem eq_of_ok {strict lenient : Except Error α} (tightens : Tightens strict lenient) {result : α}
    (accepted : strict = .ok result) : lenient = .ok result := by
  rcases tightens with rfl | ⟨type, position, rfl⟩
  · exact accepted
  · cases accepted

end Tightens

section Field

variable {asText : Bool} {buffer : Buffer} {strict lenient : Nat → Except Error (Value × Nat)}
  (tightens : ∀ offset, Tightens (strict offset) (lenient offset))

include tightens

theorem tightens_readSlot (element : Layout) (offset : Nat) :
    Tightens (readSlot ⟨true, asText⟩ buffer strict element offset)
      (readSlot ⟨false, asText⟩ buffer lenient element offset) := by
  refine (tightens offset).bind fun result => ?_
  simp only [if_true, Bool.false_eq_true, if_false]
  split
  · exact .stop _ _ _
  · exact .refl _

theorem tightens_readField (element : Layout) (count : Option Nat) (offset : Nat) :
    Tightens (readField ⟨true, asText⟩ buffer strict element count offset)
      (readField ⟨false, asText⟩ buffer lenient element count offset) := by
  cases count with
  | none => exact tightens_readSlot tightens element offset
  | some count =>
      simp only [readField]
      split
      · exact .refl _
      · exact (Tightens.refl _).bind fun _ =>
          (Tightens.mapM (fun _ => tightens_readSlot tightens element _) _).bind fun _ => .refl _

end Field

mutual
/-- Strict reading differs from lenient reading only by stopping at padding. -/
theorem Layout.tightens_read (asText : Bool) (buffer : Buffer) : ∀ (layout : Layout) (offset : Nat),
    Tightens (layout.read ⟨true, asText⟩ buffer offset) (layout.read ⟨false, asText⟩ buffer offset)
  | .scalar _ scalar, offset => by
      rw [Layout.read, Layout.read, Scalar.readScalar_eq, Scalar.readScalar_eq]
      exact .refl _
  | .enumeration _, _ => .refl _
  | .flags _, _ => .refl _
  | .record layout, offset => by
      rw [Layout.read, Layout.read]
      exact (RecordLayout.tightens_read asText buffer layout offset).bind fun _ => .refl _
  | .union layout, offset => by
      rw [Layout.read, Layout.read]
      exact UnionLayout.tightens_read asText buffer layout offset
theorem RecordLayout.tightens_read (asText : Bool) (buffer : Buffer) :
    ∀ (layout : RecordLayout) (offset : Nat),
      Tightens (layout.read ⟨true, asText⟩ buffer offset) (layout.read ⟨false, asText⟩ buffer offset)
  | ⟨_, fields, _⟩, offset => by
      rw [RecordLayout.read, RecordLayout.read]
      exact (Tightens.refl _).bind fun _ =>
        (FieldLayout.tightens_readAll asText buffer fields offset).bind fun _ => .refl _
theorem FieldLayout.tightens_readAll (asText : Bool) (buffer : Buffer) :
    ∀ (fields : List FieldLayout) (offset : Nat),
      Tightens (FieldLayout.readAll ⟨true, asText⟩ buffer fields offset)
        (FieldLayout.readAll ⟨false, asText⟩ buffer fields offset)
  | [], _ => .refl _
  | ⟨_, element, count, fieldOffset, _⟩ :: rest, offset => by
      rw [FieldLayout.readAll, FieldLayout.readAll]
      exact (tightens_readField (Layout.tightens_read asText buffer element) element count
        (offset + fieldOffset)).bind fun _ =>
          (FieldLayout.tightens_readAll asText buffer rest offset).bind fun _ => .refl _
theorem UnionLayout.tightens_read (asText : Bool) (buffer : Buffer) :
    ∀ (layout : UnionLayout) (offset : Nat),
      Tightens (layout.read ⟨true, asText⟩ buffer offset) (layout.read ⟨false, asText⟩ buffer offset)
  | ⟨_, _, _, variants⟩, offset => by
      rw [UnionLayout.read, UnionLayout.read]
      exact (Tightens.refl _).bind fun constant =>
        VariantLayout.tightens_readTagged asText buffer variants _ constant.value offset
theorem VariantLayout.tightens_readTagged (asText : Bool) (buffer : Buffer) :
    ∀ (variants : List VariantLayout) (union : UnionLayout) (tag : UInt64) (offset : Nat),
      Tightens (VariantLayout.readTagged ⟨true, asText⟩ buffer variants union tag offset)
        (VariantLayout.readTagged ⟨false, asText⟩ buffer variants union tag offset)
  | [], _, _, _ => .refl _
  | ⟨name, ownTag, member⟩ :: rest, union, tag, offset => by
      rw [VariantLayout.readTagged, VariantLayout.readTagged]
      split
      · exact Layout.tightens_readMember asText buffer member union name offset
      · exact VariantLayout.tightens_readTagged asText buffer rest union tag offset
theorem Layout.tightens_readMember (asText : Bool) (buffer : Buffer) :
    ∀ (member : Layout) (union : UnionLayout) (variant : String) (offset : Nat),
      Tightens (member.readMember ⟨true, asText⟩ buffer union variant offset)
        (member.readMember ⟨false, asText⟩ buffer union variant offset)
  | .record record, _, _, _ => by
      rw [Layout.readMember, Layout.readMember]
      exact (RecordLayout.tightens_read asText buffer record _).bind fun _ => .refl _
  | .scalar _ _, _, _, _ => .refl _
  | .enumeration _, _, _, _ => .refl _
  | .flags _, _, _, _ => .refl _
  | .union _, _, _, _ => .refl _
end

/-- Between two offsets, the byte at a position is not zero, and something is so
whatever byte is there. -/
structure Buffer.Idle (buffer : Buffer) (position start stop : Nat) (holds : Buffer → Prop) :
    Prop where
  above : start ≤ position
  below : position < stop
  nonzero : ∃ byte, buffer.toList[position]? = some byte ∧ byte ≠ 0
  remains : ∀ changed, buffer.SameOutside changed position (position + 1) → holds changed

theorem Buffer.Idle.imp {buffer : Buffer} {position start stop widerStart widerStop : Nat}
    {holds other : Buffer → Prop} (idle : buffer.Idle position start stop holds)
    (left : widerStart ≤ start) (right : stop ≤ widerStop)
    (follows : ∀ changed, buffer.SameOutside changed position (position + 1) → holds changed →
      other changed) : buffer.Idle position widerStart widerStop other :=
  ⟨Nat.le_trans left idle.above, Nat.lt_of_lt_of_le idle.below right, idle.nonzero,
    fun changed same => follows changed same (idle.remains changed same)⟩

theorem nonzero_of_firstNonZero? {buffer : Buffer} {start count position : Nat}
    (found : firstNonZero? (buffer.slice start count) start = some position) :
    start ≤ position ∧ position < start + count ∧
      ∃ byte, buffer.toList[position]? = some byte ∧ byte ≠ 0 := by
  obtain ⟨index, first, rfl⟩ := Option.map_eq_some_iff.mp found
  obtain ⟨bound, nonzero, -⟩ := List.findIdx?_eq_some_iff_getElem.mp first
  have inside : index < count := by
    rw [Buffer.toList_slice, List.length_take] at bound
    omega
  refine ⟨Nat.le_add_right _ _, Nat.add_lt_add_left inside start,
    (buffer.slice start count).toList[index], ?_, by simpa using nonzero⟩
  rw [← List.getElem?_eq_getElem bound, Buffer.toList_slice, List.getElem?_take, if_pos inside,
    List.getElem?_drop]

/-- Different slots of an array do not overlap. -/
theorem slots_apart (slot : Nat) {index other : Nat} (differ : index ≠ other) :
    index * slot + slot ≤ other * slot ∨ other * slot + slot ≤ index * slot := by
  rw [← Nat.succ_mul, ← Nat.succ_mul]
  rcases Nat.lt_or_gt_of_ne differ with before | behind
  · exact .inl (Nat.mul_le_mul_right slot before)
  · exact .inr (Nat.mul_le_mul_right slot behind)

/-- Where strict reading stops although lenient reading succeeds, there is a byte
of padding, on which the value does not depend. -/
def Layout.Idles (asText : Bool) (buffer : Buffer) (layout : Layout) : Prop :=
  ∀ offset value used type position, layout.read ⟨false, asText⟩ buffer offset = .ok (value, used) →
    layout.read ⟨true, asText⟩ buffer offset = .error (.nonZeroPadding type position) →
      buffer.Idle position offset (offset + used)
        fun changed => layout.read ⟨false, asText⟩ changed offset = .ok (value, used)

section Slots

variable {asText : Bool} {buffer : Buffer} {offset position : Nat} {type : String}
  {element : Layout} {value : Value} (wellFormed : element.WellFormed)
  (small : buffer.size < 2 ^ 64) (idles : element.Idles asText buffer)

include wellFormed small idles

theorem idle_of_readSlot
    (lenient : readSlot ⟨false, asText⟩ buffer (element.read ⟨false, asText⟩ buffer) element offset =
      .ok value)
    (strict : readSlot ⟨true, asText⟩ buffer (element.read ⟨true, asText⟩ buffer) element offset =
      .error (.nonZeroPadding type position)) :
    buffer.Idle position offset (offset + element.slotLength) fun changed =>
      readSlot ⟨false, asText⟩ changed (element.read ⟨false, asText⟩ changed) element offset =
        .ok value := by
  obtain ⟨used, read, -⟩ := readSlot_eq_ok_iff.mp lenient
  obtain ⟨room, inside⟩ := wellFormed.extent_of_read read
  have again (changed : Buffer)
      (same : element.read ⟨false, asText⟩ changed offset = .ok (value, used)) :
      readSlot ⟨false, asText⟩ changed (element.read ⟨false, asText⟩ changed) element offset =
        .ok value :=
    readSlot_eq_ok_iff.mpr ⟨used, same, nofun⟩
  unfold readSlot at strict
  cases strictRead : element.read ⟨true, asText⟩ buffer offset with
  | error error =>
      rw [strictRead] at strict
      obtain rfl := Except.error.inj strict
      exact (idles offset value used type position read strictRead).imp (Nat.le_refl _)
        (Nat.add_le_add_left inside offset) fun changed _ same => again changed same
  | ok result =>
      have known := (Layout.tightens_read asText buffer element offset).eq_of_ok strictRead
      obtain rfl := Except.ok.inj (known.symm.trans read)
      rw [strictRead] at strict
      cases found : firstNonZero? (buffer.slice (offset + used) (element.slotLength - used))
          (offset + used) with
      | none => simp [found, bind, Except.bind, pure, Except.pure] at strict
      | some stopped =>
          have stops : stopped = position := by
            simp [found, bind, Except.bind, throw, throwThe, MonadExceptOf.throw] at strict
            exact strict.2
          obtain ⟨above, below, nonzero⟩ := nonzero_of_firstNonZero? found
          subst stops
          refine ⟨by omega, by omega, nonzero, fun changed same => again changed ?_⟩
          have changedSmall : changed.size < 2 ^ 64 := by
            rw [same.size]
            exact small
          exact wellFormed.portable _ changedSmall offset offset value used read
            (same.alike room (.inl above))

/-- Where strict reading of a field stops, one of its slots has padding. -/
theorem idle_of_readField {count : Option Nat}
    (room : offset + element.slotLength * count.getD 1 ≤ buffer.size)
    (lenient : readField ⟨false, asText⟩ buffer (element.read ⟨false, asText⟩ buffer) element count
      offset = .ok value)
    (strict : readField ⟨true, asText⟩ buffer (element.read ⟨true, asText⟩ buffer) element count
      offset = .error (.nonZeroPadding type position)) :
    buffer.Idle position offset (offset + element.slotLength * count.getD 1) fun changed =>
      readField ⟨false, asText⟩ changed (element.read ⟨false, asText⟩ changed) element count offset =
        .ok value := by
  cases count with
  | none =>
      rw [Option.getD_none, Nat.mul_one]
      exact idle_of_readSlot wellFormed small idles lenient strict
  | some count =>
      rw [Option.getD_some] at room ⊢
      cases isChar : element.isChar with
      | true =>
          simp only [readField, isChar, if_true] at lenient strict
          rw [lenient] at strict
          cases strict
      | false =>
          simp only [readField, isChar, Bool.false_eq_true, if_false, bind_eq_ok, pure_eq_ok,
            mapM_eq_ok] at lenient ⊢
          simp only [readField, isChar, Bool.false_eq_true, if_false, bind_eq_error, pure_eq_error,
            and_false, exists_false, or_false] at strict
          obtain ⟨reserved, reservable, items, each, rfl⟩ := lenient
          rcases strict with refused | ⟨_, -, stopped⟩
          · rw [reservable] at refused
            cases refused
          obtain ⟨index, among, stopped⟩ := exists_error_of_mapM stopped
          have bound := List.mem_range.mp among
          obtain ⟨item, -, slotRead⟩ := exists_mem_of_forall₂ each among
          have idle := idle_of_readSlot wellFormed small idles slotRead stopped
          have inside := slot_le element.slotLength bound
          refine idle.imp (Nat.le_add_right _ _) (by omega) fun changed same held =>
            ⟨reserved, reservable, items, ?_, rfl⟩
          have both := (List.forall₂_and_left _ _).mpr
            ⟨fun index among => List.mem_range.mp among, each⟩
          refine both.imp ?_
          rintro other otherItem ⟨otherBound, otherRead⟩
          by_cases chosen : other = index
          · subst chosen
            rw [slotRead] at otherRead
            rwa [← Except.ok.inj otherRead]
          · have changedSmall : changed.size < 2 ^ 64 := by
              rw [same.size]
              exact small
            have otherInside := slot_le element.slotLength otherBound
            have above := idle.above
            have below := idle.below
            have apart := slots_apart element.slotLength chosen
            exact readSlot_of_alike wellFormed (wellFormed.portable _ changedSmall)
              (same.alike (by omega) (by omega)) otherRead

end Slots

section Layouts

variable {asText : Bool} {buffer : Buffer} {offset position : Nat} {type : String}

/-- A record that is read from two buffers was selected by the same tag in both. -/
theorem UnionLayout.Tagged.tag_of_read {options : DecodeOptions} {changed : Buffer}
    {union : UnionLayout} (tagged : union.Tagged)
    {selected : VariantLayout} (member : selected ∈ union.variants)
    (wellFormed : (Layout.record selected.record).WellFormed)
    (header : buffer.Alike offset changed offset union.headerLength)
    (tag : union.readTag buffer offset = .ok ⟨selected.name, selected.tag⟩) {payload : RecordValue}
    (read : selected.record.read options buffer (offset + union.headerLength) = .ok payload)
    (again : selected.record.read options changed (offset + union.headerLength) = .ok payload) :
    union.readTag changed offset = .ok ⟨selected.name, selected.tag⟩ := by
  obtain ⟨below, tag⟩ := tagged.readTag_eq_ok_iff.mp tag
  refine tagged.readTag_eq_ok_iff.mpr ⟨below, ?_⟩
  cases shape : union.discriminator with
  | key key =>
      simp only [UnionLayout.headerLength, UnionLayout.tagOffset, shape] at header tag ⊢
      rw [ConstantSet.read, Nat.add_zero, header.readWord_eq]
      exact tag
  | path path tagOffset =>
      simp only [UnionLayout.headerLength, UnionLayout.tagOffset, shape, Nat.add_zero]
        at read again tag ⊢
      obtain ⟨constant, tagRead, shown⟩ :=
        (tagged.leads member shape).tagAt?_of_read wellFormed read
      obtain ⟨other, otherRead, otherShown⟩ :=
        (tagged.leads member shape).tagAt?_of_read wellFormed again
      obtain rfl := Except.ok.inj (tagRead.symm.trans tag)
      have among := ((ConstantSet.read_eq_ok_iff tagged.tags).mp tag).1
      have otherAmong := ((ConstantSet.read_eq_ok_iff tagged.tags).mp otherRead).1
      have names := Option.some.inj (otherShown.symm.trans shown)
      rw [otherRead, eq_of_key_eq tagged.tags.names otherAmong among names]

/-- Where strict reading of a union stops, the selected record has padding. -/
theorem UnionLayout.idles {union : UnionLayout} (tagged : union.Tagged)
    (records : ∀ variant ∈ union.variants, (Layout.record variant.record).WellFormed)
    (idles : ∀ variant ∈ union.variants, (Layout.record variant.record).Idles asText buffer) :
    (Layout.union union).Idles asText buffer := by
  intro offset value used type position lenient strict
  simp only [Layout.read] at lenient strict ⊢
  obtain ⟨selected, member, payload, tag, read, rfl, rfl⟩ :=
    (UnionLayout.read_eq_ok_iff tagged).mp lenient
  have room := (RecordLayout.read_eq_ok_iff.mp read).1
  simp only [UnionLayout.read_of_tag tagged member tag, bind_eq_error, pure_eq_error, and_false,
    exists_false, or_false] at strict
  have idle := idles selected member (offset + union.headerLength) _ _ type position
    (Layout.read_record_eq_ok_iff.mpr ⟨payload, read, rfl, rfl⟩)
    (Layout.read_record_eq_error_iff.mpr strict)
  have behind := idle.above
  refine idle.imp (Nat.le_add_right _ _) (by omega) fun changed same held => ?_
  obtain ⟨_, again, ⟨⟩, -⟩ := Layout.read_record_eq_ok_iff.mp held
  have header : buffer.Alike offset changed offset union.headerLength :=
    same.alike (by omega) (.inl behind)
  exact (UnionLayout.read_eq_ok_iff tagged).mpr ⟨selected, member, payload,
    tagged.tag_of_read member (records selected member) header tag read again,
    again, rfl, rfl⟩

variable (small : buffer.size < 2 ^ 64)

include small

theorem FieldLayout.idle_of_readAll {fields : List FieldLayout} {start stop : Nat}
    (tile : FieldLayout.Tile fields start stop) (room : offset + stop ≤ buffer.size)
    (elements : ∀ field ∈ fields, field.element.WellFormed)
    (idles : ∀ field ∈ fields, field.element.Idles asText buffer) {values : List FieldValue}
    (lenient : FieldLayout.readAll ⟨false, asText⟩ buffer fields offset = .ok values)
    (strict : FieldLayout.readAll ⟨true, asText⟩ buffer fields offset =
      .error (.nonZeroPadding type position)) :
    buffer.Idle position (offset + start) (offset + stop) fun changed =>
      FieldLayout.readAll ⟨false, asText⟩ changed fields offset = .ok values := by
  induction fields generalizing start values with
  | nil => cases strict
  | cons field rest ih =>
      cases field with
      | mk name element count fieldOffset length =>
          obtain ⟨placed, sized, tile⟩ := tile
          have first := elements _ List.mem_cons_self
          have others := fun field among => elements field (List.mem_cons_of_mem _ among)
          have behind := tile.le
          simp only at placed sized first behind tile
          subst placed sized
          have changedSmall {changed : Buffer}
              (same : buffer.SameOutside changed position (position + 1)) :
              changed.size < 2 ^ 64 := by
            rw [same.size]
            exact small
          simp only [FieldLayout.readAll, bind_eq_ok, pure_eq_ok] at lenient ⊢
          simp only [FieldLayout.readAll, bind_eq_error, pure_eq_error, and_false, exists_false,
            or_false] at strict
          obtain ⟨value, fieldRead, restValues, restRead, rfl⟩ := lenient
          rcases strict with stopped | ⟨_, -, stopped⟩
          · have idle := idle_of_readField first small (idles _ List.mem_cons_self)
              (by omega) fieldRead stopped
            have below := idle.below
            refine idle.imp (Nat.le_refl _) (by omega) fun changed same held =>
              ⟨value, held, restValues, ?_, rfl⟩
            refine FieldLayout.readAll_of_alike tile others (fun field among =>
              (others field among).portable _ (changedSmall same)) ?_ restRead
            exact same.alike (by omega) (.inr (by omega))
          · have idle := ih tile others
              (fun field among => idles field (List.mem_cons_of_mem _ among)) restRead stopped
            have above := idle.above
            refine idle.imp (by omega) (Nat.le_refl _) fun changed same held =>
              ⟨value, ?_, restValues, held, rfl⟩
            refine readField_of_alike first (first.portable _ (changedSmall same)) ?_ fieldRead
            exact same.alike (by omega) (.inl (by omega))

/-- Where strict reading of a record stops, one of its fields has padding. -/
theorem RecordLayout.idles {layout : RecordLayout} (tiled : layout.Tiled)
    (elements : ∀ field ∈ layout.fields, field.element.WellFormed)
    (idles : ∀ field ∈ layout.fields, field.element.Idles asText buffer) :
    (Layout.record layout).Idles asText buffer := by
  intro offset value used type position lenient strict
  obtain ⟨record, read, rfl, rfl⟩ := Layout.read_record_eq_ok_iff.mp lenient
  obtain ⟨room, named, fieldsRead⟩ := RecordLayout.read_eq_ok_iff.mp read
  have stopped : FieldLayout.readAll ⟨true, asText⟩ buffer layout.fields offset =
      .error (.nonZeroPadding type position) := by
    have failed := Layout.read_record_eq_error_iff.mp strict
    cases layout with
    | mk name fields length =>
        simp only [RecordLayout.read, bind_eq_error, pure_eq_error, and_false, exists_false,
          or_false] at failed
        rcases failed with outside | ⟨_, -, failed⟩
        · have inside : Buffer.require buffer.size offset length = .ok () :=
            require_eq_ok_iff.mpr room
          rw [inside] at outside
          cases outside
        · exact failed
  refine (FieldLayout.idle_of_readAll small tiled.tile room elements idles fieldsRead stopped).imp
    (Nat.le_add_right _ _) (Nat.le_refl _) fun changed same held => ?_
  refine Layout.read_record_eq_ok_iff.mpr ⟨record, ?_, rfl, rfl⟩
  exact RecordLayout.read_eq_ok_iff.mpr ⟨by rw [same.size]; exact room, named, held⟩

/-- Where strict reading stops although lenient reading succeeds, there is a byte
of padding that means nothing, for every type of a resolved schema. -/
theorem Layout.WellFormed.idles {layout : Layout} (wellFormed : layout.WellFormed) :
    layout.Idles asText buffer := by
  induction wellFormed with
  | @scalar name scalar =>
      intro offset value used type position lenient strict
      simp only [Layout.read, Scalar.readScalar_eq] at lenient strict
      rw [lenient] at strict
      cases strict
  | @enumeration constants distinct =>
      intro offset value used type position lenient strict
      simp only [Layout.read] at lenient strict
      rw [lenient] at strict
      cases strict
  | @flags constants distinct =>
      intro offset value used type position lenient strict
      simp only [Layout.read] at lenient strict
      rw [lenient] at strict
      cases strict
  | record tiled elements idles => exact RecordLayout.idles small tiled elements idles
  | union tagged records idles => exact UnionLayout.idles tagged records idles

end Layouts

namespace Schema

variable {declarations : List Declaration} {schema : Schema}

/-- Strict reading accepts what lenient reading does and fails as lenient reading
does, except that it rejects padding: bytes that are not zero among those that
lenient reading takes, and that it takes whatever they are. -/
theorem strict_read_rejects_only_padding (accepted : ofDeclarations declarations = .ok schema)
    {name : String} {layout : Layout} (found : schema.find? name = some layout) {buffer : Buffer}
    (small : buffer.size < 2 ^ 64) (asText : Bool) (offset : Nat) :
    (∀ result, layout.read ⟨true, asText⟩ buffer offset = .ok result →
      layout.read ⟨false, asText⟩ buffer offset = .ok result) ∧
    (∀ error, layout.read ⟨false, asText⟩ buffer offset = .error error →
      layout.read ⟨true, asText⟩ buffer offset = .error error ∨
        ∃ type position,
          layout.read ⟨true, asText⟩ buffer offset = .error (.nonZeroPadding type position)) ∧
    (∀ value used error, layout.read ⟨false, asText⟩ buffer offset = .ok (value, used) →
      layout.read ⟨true, asText⟩ buffer offset = .error error →
        ∃ type position, error = .nonZeroPadding type position ∧
          offset ≤ position ∧ position < offset + used ∧
          (∃ byte, buffer.toList[position]? = some byte ∧ byte ≠ 0) ∧
          ∀ byte, layout.read ⟨false, asText⟩ (buffer.overwrite position (.ofList [byte])) offset =
            .ok (value, used)) := by
  have wellFormed := wellFormed_of_find? accepted found
  have tightens := layout.tightens_read asText buffer offset
  refine ⟨fun result accepts => tightens.eq_of_ok accepts, fun error fails => ?_,
    fun value used error lenient strict => ?_⟩
  · rw [fails] at tightens
    exact tightens
  · rcases tightens with same | ⟨type, position, stopped⟩
    · rw [same, lenient] at strict
      cases strict
    · obtain rfl := Except.error.inj (strict.symm.trans stopped)
      have idle := wellFormed.idles small offset value used type position lenient stopped
      refine ⟨type, position, rfl, idle.above, idle.below, idle.nonzero, fun byte => ?_⟩
      have room := (wellFormed.extent_of_read lenient).1
      have below := idle.below
      have inside : position + (Buffer.ofList [byte]).size ≤ buffer.size := by
        rw [Buffer.size_ofList, List.length_singleton]
        omega
      exact idle.remains _ (Buffer.sameOutside_overwrite inside)

theorem sample_received_padding_means_nothing :
    Sample.layout.read ⟨false, true⟩ Sample.received 1 = .ok (Sample.receivedMessage, 24) ∧
      Sample.layout.read ⟨true, true⟩ Sample.received 1 = .error (.nonZeroPadding "Shape" 12) ∧
      ∀ byte, Sample.layout.read ⟨false, true⟩
        (Sample.received.overwrite 12 (.ofList [byte])) 1 = .ok (Sample.receivedMessage, 24) := by
  have small : Sample.received.size < 2 ^ 64 := by decide
  have lenient : Sample.layout.read ⟨false, true⟩ Sample.received 1 =
      .ok (Sample.receivedMessage, 24) := by decide +kernel
  have strict : Sample.layout.read ⟨true, true⟩ Sample.received 1 =
      .error (.nonZeroPadding "Shape" 12) := by decide +kernel
  obtain ⟨-, -, rejects⟩ :=
    strict_read_rejects_only_padding Sample.accepted Sample.found small true 1
  obtain ⟨type, position, same, -, -, -, remains⟩ := rejects _ _ _ lenient strict
  obtain ⟨rfl, rfl⟩ := Error.nonZeroPadding.inj same
  exact ⟨lenient, strict, remains⟩

end Schema

end RecordCodec
