import RecordCodec.Proofs.Codec.Extent

/-!
# Reading never has a fault

Reading relies on facts that it does not test: that a slot lies inside the
buffer and has room for its element, and that every constant that is read as a
tag selects a variant.  Here it is done once more with these tests, each of
which fails with a fault.  That does the same as reading without the tests,
whatever the fault is, so none of the tests ever fails.
-/

namespace RecordCodec

/-- Fails with a fault unless a slot lies inside the buffer and has room for what is in it. -/
def guardSlot (fault : Error) (size slot used offset : Nat) : Except Error Unit :=
  if used ≤ slot ∧ offset + slot ≤ size then .ok () else .error fault

/-- Reads an element and tests its slot. -/
def readInSlot (fault : Error) (buffer : Buffer) (readElement : Nat → Except Error (Value × Nat))
    (slot offset : Nat) : Except Error (Value × Nat) := do
  let result ← readElement offset
  guardSlot fault buffer.size slot result.2 offset
  return result

mutual
/-- Reads a value, testing every slot and that every tag selects a variant. -/
def Layout.readGuarded (fault : Error) (options : DecodeOptions) (buffer : Buffer) :
    Layout → Nat → Except Error (Value × Nat)
  | .record layout, offset => do
      return (.record (← RecordLayout.readGuarded fault options buffer layout offset),
        layout.length)
  | .union layout, offset => UnionLayout.readGuarded fault options buffer layout offset
  | layout, offset => layout.read options buffer offset
def RecordLayout.readGuarded (fault : Error) (options : DecodeOptions) (buffer : Buffer) :
    RecordLayout → Nat → Except Error RecordValue
  | ⟨name, fields, length⟩, offset => do
      Buffer.require buffer.size offset length
      return ⟨name, ← FieldLayout.readAllGuarded fault options buffer fields offset⟩
def FieldLayout.readAllGuarded (fault : Error) (options : DecodeOptions) (buffer : Buffer) :
    List FieldLayout → Nat → Except Error (List FieldValue)
  | [], _ => return []
  | ⟨name, element, count, fieldOffset, _⟩ :: rest, offset => do
      let value ← readField options buffer
        (readInSlot fault buffer
          (fun offset => Layout.readGuarded fault options buffer element offset)
          element.slotLength)
        element count (offset + fieldOffset)
      return ⟨name, value⟩ :: (← FieldLayout.readAllGuarded fault options buffer rest offset)
def UnionLayout.readGuarded (fault : Error) (options : DecodeOptions) (buffer : Buffer) :
    UnionLayout → Nat → Except Error (Value × Nat)
  | ⟨name, discriminator, discriminant, variants⟩, offset => do
      let union : UnionLayout := ⟨name, discriminator, discriminant, []⟩
      let constant ← UnionLayout.readTag buffer union offset
      VariantLayout.readTaggedGuarded fault options buffer variants union constant.value offset
/-- Reads the first variant with a tag, and has a fault if there is none. -/
def VariantLayout.readTaggedGuarded (fault : Error) (options : DecodeOptions) (buffer : Buffer) :
    List VariantLayout → UnionLayout → UInt64 → Nat → Except Error (Value × Nat)
  | [], _, _, _ => throw fault
  | ⟨name, ownTag, member⟩ :: rest, union, tag, offset =>
      if ownTag = tag then Layout.readMemberGuarded fault options buffer member union name offset
      else VariantLayout.readTaggedGuarded fault options buffer rest union tag offset
/-- Reads the record of a variant, and has a fault if the member is none. -/
def Layout.readMemberGuarded (fault : Error) (options : DecodeOptions) (buffer : Buffer) :
    Layout → UnionLayout → String → Nat → Except Error (Value × Nat)
  | .record record, union, variant, offset => do
      let payload ← RecordLayout.readGuarded fault options buffer record
        (offset + union.headerLength)
      return (.union union.name variant payload, union.headerLength + record.length)
  | _, _, _, _ => throw fault
end

section Reading

variable {fault : Error} {options : DecodeOptions} {buffer : Buffer}

/-- The tests of reading never fail. -/
def Layout.ReadsSafely (fault : Error) (options : DecodeOptions) (buffer : Buffer)
    (layout : Layout) : Prop :=
  ∀ offset, layout.readGuarded fault options buffer offset = layout.read options buffer offset

section Field

variable {element : Layout} {offset : Nat} (wellFormed : element.WellFormed)

include wellFormed

theorem readInSlot_eq (room : offset + element.slotLength ≤ buffer.size) :
    readInSlot fault buffer (element.read options buffer) element.slotLength offset =
      element.read options buffer offset := by
  unfold readInSlot
  cases run : element.read options buffer offset with
  | error error => rfl
  | ok result =>
      have inside := (wellFormed.extent_of_read run).2
      have passes : guardSlot fault buffer.size element.slotLength result.2 offset = .ok () :=
        if_pos ⟨inside, room⟩
      change (guardSlot fault buffer.size element.slotLength result.2 offset >>= fun _ => _) = _
      rw [passes]
      rfl

theorem readSlot_guarded (room : offset + element.slotLength ≤ buffer.size) :
    readSlot options buffer
        (readInSlot fault buffer (element.read options buffer) element.slotLength) element offset =
      readSlot options buffer (element.read options buffer) element offset := by
  unfold readSlot
  rw [readInSlot_eq wellFormed room]

theorem readField_guarded {count : Option Nat}
    (room : offset + element.slotLength * count.getD 1 ≤ buffer.size) :
    readField options buffer
        (readInSlot fault buffer (element.read options buffer) element.slotLength) element count
        offset =
      readField options buffer (element.read options buffer) element count offset := by
  cases count with
  | none =>
      rw [Option.getD_none, Nat.mul_one] at room
      exact readSlot_guarded wellFormed room
  | some count =>
      rw [Option.getD_some] at room
      simp only [readField]
      split
      · rfl
      · have each : ∀ index ∈ List.range count, readSlot options buffer
            (readInSlot fault buffer (element.read options buffer) element.slotLength) element
            (offset + index * element.slotLength) =
          readSlot options buffer (element.read options buffer) element
            (offset + index * element.slotLength) := by
          intro index among
          have inside := slot_le element.slotLength (List.mem_range.mp among)
          exact readSlot_guarded wellFormed (by omega)
        rw [mapM_congr each]

end Field

theorem FieldLayout.readAllGuarded_eq {fields : List FieldLayout} {start stop offset : Nat}
    (tile : FieldLayout.Tile fields start stop) (room : offset + stop ≤ buffer.size)
    (elements : ∀ field ∈ fields, field.element.WellFormed)
    (safe : ∀ field ∈ fields, field.element.ReadsSafely fault options buffer) :
    FieldLayout.readAllGuarded fault options buffer fields offset =
      FieldLayout.readAll options buffer fields offset := by
  induction fields generalizing start with
  | nil => rfl
  | cons field rest ih =>
      have inside := tile.field_le List.mem_cons_self
      obtain ⟨-, -, tile⟩ := tile
      have others := ih tile (fun other among => elements other (List.mem_cons_of_mem _ among))
        fun other among => safe other (List.mem_cons_of_mem _ among)
      have element := elements _ List.mem_cons_self
      have same := funext (safe _ List.mem_cons_self)
      cases field with
      | mk name element count fieldOffset length =>
          simp only at same inside element
          simp only [FieldLayout.readAllGuarded, FieldLayout.readAll, others, same]
          rw [readField_guarded element (by omega)]

theorem RecordLayout.readGuarded_eq {layout : RecordLayout} (tiled : layout.Tiled)
    (elements : ∀ field ∈ layout.fields, field.element.WellFormed)
    (safe : ∀ field ∈ layout.fields, field.element.ReadsSafely fault options buffer)
    (offset : Nat) :
    layout.readGuarded fault options buffer offset = layout.read options buffer offset := by
  have tile := tiled.tile
  cases layout with
  | mk name fields length =>
      simp only [RecordLayout.readGuarded, RecordLayout.read]
      by_cases room : offset + length ≤ buffer.size
      · rw [FieldLayout.readAllGuarded_eq tile room elements safe]
      · rw [Buffer.require, if_neg room]
        rfl

theorem RecordLayout.readGuarded_of_safe {layout : RecordLayout}
    (safe : (Layout.record layout).ReadsSafely fault options buffer) (offset : Nat) :
    layout.readGuarded fault options buffer offset = layout.read options buffer offset := by
  have whole := safe offset
  simp only [Layout.readGuarded, Layout.read] at whole
  cases guarded : layout.readGuarded fault options buffer offset with
  | error error =>
      cases plain : layout.read options buffer offset with
      | error other => simpa [guarded, plain, bind, Except.bind] using whole
      | ok record => simp [guarded, plain, bind, Except.bind, pure, Except.pure] at whole
  | ok record =>
      cases plain : layout.read options buffer offset with
      | error other => simp [guarded, plain, bind, Except.bind, pure, Except.pure] at whole
      | ok other =>
          simpa [guarded, plain, bind, Except.bind, pure, Except.pure] using whole

theorem VariantLayout.readTaggedGuarded_eq {variants : List VariantLayout} {union : UnionLayout}
    {tag : UInt64} {selected : VariantLayout}
    (found : variants.find? (fun other => other.tag == tag) = some selected)
    (recorded : selected.member = .record selected.record) (offset : Nat) :
    VariantLayout.readTaggedGuarded fault options buffer variants union tag offset = (do
      let payload ← selected.record.readGuarded fault options buffer (offset + union.headerLength)
      return (.union union.name selected.name payload,
        union.headerLength + selected.record.length)) := by
  have chosen : VariantLayout.readTaggedGuarded fault options buffer variants union tag offset =
      selected.member.readMemberGuarded fault options buffer union selected.name offset := by
    apply choice_eq_of_found (fun variants =>
      VariantLayout.readTaggedGuarded fault options buffer variants union tag offset) _ found
    rintro ⟨name, tag, member⟩ rest
    rfl
  rw [chosen, recorded, Layout.readMemberGuarded]

/-- The constant that is read as the tag has a variant. -/
theorem UnionLayout.readGuarded_eq {union : UnionLayout} (tagged : union.Tagged)
    (safe : ∀ variant ∈ union.variants,
      (Layout.record variant.record).ReadsSafely fault options buffer) (offset : Nat) :
    union.readGuarded fault options buffer offset = union.read options buffer offset := by
  have guarded : union.readGuarded fault options buffer offset = (do
      let constant ← union.readTag buffer offset
      VariantLayout.readTaggedGuarded fault options buffer union.variants
        ⟨union.name, union.discriminator, union.discriminant, []⟩ constant.value offset) := by
    cases union
    rfl
  rw [guarded, UnionLayout.read_eq]
  cases tag : union.readTag buffer offset with
  | error error => rfl
  | ok constant =>
      obtain ⟨among, -⟩ :=
        (ConstantSet.read_eq_ok_iff tagged.tags).mp (tagged.readTag_eq_ok_iff.mp tag).2
      obtain ⟨selected, member, same⟩ := tagged.complete constant among
      have found := tagged.withTag?_eq_some.mpr ⟨member, same⟩
      have recorded := tagged.recorded selected member
      change VariantLayout.readTaggedGuarded fault options buffer union.variants
          ⟨union.name, union.discriminator, union.discriminant, []⟩ constant.value offset =
        VariantLayout.readTagged options buffer union.variants
          ⟨union.name, union.discriminator, union.discriminant, []⟩ constant.value offset
      rw [VariantLayout.readTaggedGuarded_eq found recorded,
        VariantLayout.readTagged_eq found recorded,
        RecordLayout.readGuarded_of_safe (safe selected member)]

/-- None of the tests of reading ever fails, for every type of a resolved schema. -/
theorem Layout.WellFormed.readsSafely {layout : Layout} (wellFormed : layout.WellFormed) :
    layout.ReadsSafely fault options buffer := by
  induction wellFormed with
  | scalar => exact fun _ => rfl
  | enumeration => exact fun _ => rfl
  | flags => exact fun _ => rfl
  | record tiled elements safe =>
      intro offset
      simp only [Layout.readGuarded, Layout.read,
        RecordLayout.readGuarded_eq tiled elements safe offset]
  | union tagged records safe =>
      intro offset
      simp only [Layout.readGuarded, Layout.read]
      exact UnionLayout.readGuarded_eq tagged safe offset

end Reading

end RecordCodec
