import RecordCodec.Proofs.Codec.Causes
import RecordCodec.Proofs.Codec.Confined
import RecordCodec.Proofs.Codec.Guarded.Read

/-!
# Writing never has a fault

Writing fills up a slot behind its element without a test that the slot lies
inside the buffer and that the element did not leave it.  Writing with that
test does the same, whatever the fault is, where the announced bytes have room.
There it fails only because of the value: every test of bounds on the way, of
a record, a text or a word, finds the room that was announced.
-/

namespace RecordCodec

/-- Writes an element and tests its slot. -/
def writeInSlot (fault : Error) (writeElement : Value → Nat → Writing Nat) (slot : Nat)
    (value : Value) (offset : Nat) : Writing Nat := do
  let written ← writeElement value offset
  fun buffer => Writing.ofExcept (guardSlot fault buffer.size slot written offset) buffer
  return written

mutual
/-- Writes a value, testing every slot before the rest of it is filled up. -/
def Layout.writeGuarded (fault : Error) : Layout → Value → Nat → Writing Nat
  | .record layout, value, offset => do
      RecordLayout.writeGuarded fault layout (← expectRecord value) offset
      return layout.length
  | .union layout, value, offset => do
      let (variant, payload) ← UnionLayout.expect layout.name value
      UnionLayout.writeGuarded fault layout variant payload offset
  | layout, value, offset => layout.write value offset
def RecordLayout.writeGuarded (fault : Error) : RecordLayout → RecordValue → Nat → Writing Unit
  | ⟨name, fields, length⟩, record, offset => do
      RecordLayout.check ⟨name, fields, length⟩ record
      Writing.require offset length
      FieldLayout.writeAllGuarded fault fields name record offset
def FieldLayout.writeAllGuarded (fault : Error) :
    List FieldLayout → String → RecordValue → Nat → Writing Unit
  | [], _, _, _ => pure ()
  | ⟨name, element, count, fieldOffset, _⟩ :: rest, type, record, offset => do
      let value ← RecordLayout.fieldValue type record name
      writeField
        (writeInSlot fault (fun value offset => Layout.writeGuarded fault element value offset)
          element.slotLength)
        element count value (offset + fieldOffset)
      FieldLayout.writeAllGuarded fault rest type record offset
def UnionLayout.writeGuarded (fault : Error) :
    UnionLayout → String → RecordValue → Nat → Writing Nat
  | ⟨name, discriminator, discriminant, variants⟩, variant, payload, offset =>
      VariantLayout.writeNamedGuarded fault variants ⟨name, discriminator, discriminant, []⟩ variant
        payload offset
def VariantLayout.writeNamedGuarded (fault : Error) :
    List VariantLayout → UnionLayout → String → RecordValue → Nat → Writing Nat
  | [], union, variant, _, _ => throw (.unknownVariant union.name variant)
  | ⟨name, _, member⟩ :: rest, union, variant, payload, offset =>
      if name = variant then
        Layout.writeMemberGuarded fault member union variant payload offset
      else VariantLayout.writeNamedGuarded fault rest union variant payload offset
/-- Writes the record of a variant, and has a fault if the member is none. -/
def Layout.writeMemberGuarded (fault : Error) :
    Layout → UnionLayout → String → RecordValue → Nat → Writing Nat
  | .record record, union, variant, payload, offset => do
      writeTag union variant payload offset
      RecordLayout.writeGuarded fault record payload (offset + union.headerLength)
      return union.headerLength + record.length
  | _, _, _, _, _ => throw fault
end

namespace Writing

variable {α β : Type} {offset length : Nat}

/-- Given room for the range, both actions do the same and fail only because of the value. -/
def Safe (guarded action : Writing α) (offset length : Nat) : Prop :=
  ∀ buffer : Buffer, offset + length ≤ buffer.size → guarded buffer = action buffer ∧
    ∀ error after, action buffer = .error error after → error.OfValue

namespace Safe

theorem pure (result : α) : Safe (Pure.pure result) (Pure.pure result) offset length :=
  fun _ _ => ⟨rfl, nofun⟩

theorem throw {error : Error} (cause : error.OfValue) :
    Safe (MonadExcept.throw error : Writing α) (MonadExcept.throw error) offset length := by
  refine fun _ _ => ⟨rfl, ?_⟩
  rintro _ _ ⟨⟩
  exact cause

/-- One action after another in a range that the first one does not leave. -/
theorem bind {guarded action : Writing α} {guardedNext next : α → Writing β}
    (first : Safe guarded action offset length) (confined : Confined action offset length)
    (second : ∀ result, Safe (guardedNext result) (next result) offset length) :
    Safe (guarded >>= guardedNext) (action >>= next) offset length := by
  intro buffer room
  obtain ⟨same, fails⟩ := first buffer room
  have outside := confined buffer room
  change EStateM.bind guarded guardedNext buffer = EStateM.bind action next buffer ∧
    ∀ error after, EStateM.bind action next buffer = .error error after → error.OfValue
  unfold left at outside
  cases run : action buffer with
  | error error stopped =>
      simp only [EStateM.bind, same, run]
      refine ⟨trivial, ?_⟩
      rintro _ _ ⟨⟩
      exact fails error stopped run
  | ok result between =>
      simp only [run] at outside
      simp only [EStateM.bind, same, run]
      exact second result between (by rw [outside.size]; exact room)

/-- A test of the value in front of an action, which may rely on its success. -/
theorem check {test : Except Error α} {guardedNext next : α → Writing β}
    (tests : FailsWith Error.OfValue test)
    (action : ∀ result, test = .ok result → Safe (guardedNext result) (next result) offset length) :
    Safe (ofExcept test >>= guardedNext) (ofExcept test >>= next) offset length := by
  cases test with
  | error error => exact throw (tests error rfl)
  | ok result => exact action result rfl

theorem test {test : Except Error α} (tests : FailsWith Error.OfValue test) :
    Safe (ofExcept test) (ofExcept test) offset length := by
  intro buffer room
  refine ⟨rfl, fun error after failed => ?_⟩
  cases test with
  | error other =>
      obtain ⟨rfl, -⟩ := EStateM.Result.error.inj failed
      exact tests _ rfl
  | ok result => cases failed

theorem require {need : Nat} (inside : need ≤ length) :
    Safe (Writing.require offset need) (Writing.require offset need) offset length := by
  intro buffer room
  have required : Buffer.require buffer.size offset need = .ok () := if_pos (by omega)
  refine ⟨rfl, fun error after failed => ?_⟩
  simp [Writing.require, required, ofExcept] at failed

theorem overwrite (start : Nat) (source : Buffer) :
    Safe (Writing.overwrite start source) (Writing.overwrite start source) offset length :=
  fun _ _ => ⟨rfl, nofun⟩

theorem widen {guarded action : Writing α} (safe : Safe guarded action offset length)
    {widerOffset widerLength : Nat} (stop : offset + length ≤ widerOffset + widerLength) :
    Safe guarded action widerOffset widerLength :=
  fun buffer room => safe buffer (Nat.le_trans stop room)

theorem write {bytes : Buffer} (inside : bytes.size ≤ length) :
    Safe (Writing.write offset bytes) (Writing.write offset bytes) offset length :=
  (require inside).bind .require fun _ => overwrite _ _

theorem writeWord {width : Nat} (inside : width ≤ length) (word : UInt64) :
    Safe (Writing.writeWord offset width word) (Writing.writeWord offset width word) offset
      length := by
  apply write
  rw [Buffer.size_ofList, BigEndian.length_bytes]
  exact inside

/-- Actions whose result is replaced. -/
theorem andReturn {guarded action : Writing α} (safe : Safe guarded action offset length)
    (result : β) :
    Safe (guarded >>= fun _ => Pure.pure result) (action >>= fun _ => Pure.pure result) offset
      length := by
  intro buffer room
  obtain ⟨same, fails⟩ := safe buffer room
  change EStateM.bind guarded _ buffer = EStateM.bind action _ buffer ∧
    ∀ error after, EStateM.bind action _ buffer = .error error after → error.OfValue
  simp only [EStateM.bind, same]
  refine ⟨trivial, ?_⟩
  cases run : action buffer with
  | error error stopped =>
      rintro _ _ ⟨⟩
      exact fails error stopped run
  | ok _ between => exact nofun

/-- Two actions are left as they are by a result that replaces their own. -/
theorem of_andReturn {guarded action : Writing Unit} {result : β}
    (safe : Safe (guarded >>= fun _ => Pure.pure result) (action >>= fun _ => Pure.pure result)
      offset length) : Safe guarded action offset length := by
  intro buffer room
  obtain ⟨same, fails⟩ := safe buffer room
  change EStateM.bind guarded _ buffer = EStateM.bind action _ buffer at same
  change ∀ error after, EStateM.bind action _ buffer = .error error after → _ at fails
  cases run : action buffer with
  | error error stopped =>
      simp only [EStateM.bind, run] at same fails
      refine ⟨?_, ?_⟩
      · cases ran : guarded buffer with
        | error other left => simpa [ran] using same
        | ok _ left =>
            simp only [ran] at same
            cases same
      · rintro _ _ ⟨⟩
        exact fails error stopped rfl
  | ok _ between =>
      simp only [EStateM.bind, run] at same
      refine ⟨?_, nofun⟩
      cases ran : guarded buffer with
      | error other left =>
          simp only [ran] at same
          cases same
      | ok _ left =>
          simp only [ran] at same
          obtain ⟨-, rfl⟩ := EStateM.Result.ok.inj same
          rfl

end Safe

end Writing

open Writing

/-- The tests of writing never fail where there is room for the announced length. -/
def Layout.WritesSafely (fault : Error) (layout : Layout) : Prop :=
  ∀ value length, (∀ announced, layout.encodedLength value = .ok announced → announced ≤ length) →
    ∀ offset, Safe (layout.writeGuarded fault value offset) (layout.write value offset) offset length

/-- No value takes more bytes than a slot has. -/
theorem Layout.WellFormed.le_slotLength_of_write {layout : Layout} (wellFormed : layout.WellFormed)
    {value : Value} {offset written : Nat} (yields : Yields (layout.write value offset) written) :
    written ≤ layout.slotLength := by
  have exact {α : Type} {action : Writing α} {length : Nat}
      (yields : Yields (action >>= fun _ => pure length) written) : written = length := by
    obtain ⟨_, -, _, _, returned⟩ := yields.of_bind
    exact (EStateM.Result.ok.inj returned).1.symm
  cases wellFormed with
  | scalar | enumeration | flags => exact Nat.le_of_eq (exact yields)
  | record =>
      simp only [Layout.write] at yields
      obtain ⟨_, -, yields⟩ := yields.of_bind
      exact Nat.le_of_eq (exact yields)
  | union tagged =>
      simp only [Layout.write] at yields
      obtain ⟨⟨variant, payload⟩, -, yields⟩ := yields.of_bind
      obtain ⟨selected, found⟩ :=
        UnionLayout.found_of_write (Yields · written) Yields.not_throw yields
      rw [tagged.write_eq found] at yields
      obtain ⟨_, -, yields⟩ := yields.of_bind
      rw [exact yields]
      exact UnionLayout.length_le_slotLength (List.mem_of_find?_eq_some found)

theorem Scalar.safe_write (scalar : Scalar) (value : Value) {length : Nat}
    (room : scalar.width ≤ length) (offset : Nat) :
    Safe (scalar.write value offset) (scalar.write value offset) offset length := by
  unfold Scalar.write
  cases image : scalar.image value with
  | ok bytes =>
      apply Safe.write
      rw [Buffer.size_ofList, Scalar.length_of_image image]
      exact room
  | error error => exact .throw (scalar.failsWith_image value error image)

theorem ConstantSet.safe_write (set : ConstantSet) {word : Except Error UInt64}
    (fails : FailsWith Error.OfValue word) {length : Nat} (room : set.width.bytes ≤ length)
    (offset : Nat) : Safe (set.write word offset) (set.write word offset) offset length := by
  cases word with
  | ok word => exact .writeWord room word
  | error error => exact .throw (fails error rfl)

theorem safe_writeText (text : String) (capacity offset : Nat) :
    Safe (TextField.write text capacity offset) (TextField.write text capacity offset) offset
      capacity := by
  refine .check (TextField.failsWith_requireCapacity _ _ fun _ _ => True.intro) fun _ checked => ?_
  have inside : text.utf8ByteSize ≤ capacity := by
    unfold TextField.requireCapacity at checked
    split at checked
    · assumption
    · cases checked
  have confined : Confined (Writing.overwrite offset text.toUTF8) offset capacity :=
    (Confined.overwrite text.toUTF8).widen (Nat.le_refl _) (Nat.add_le_add_left inside offset)
  exact (Safe.require (Nat.le_refl _)).bind .require fun _ =>
    (Safe.overwrite _ _).bind confined fun _ => .overwrite _ _

section Field

variable {fault : Error} {element : Layout} (wellFormed : element.WellFormed)
  (safe : element.WritesSafely fault)

include wellFormed safe

theorem safe_writeInSlot (value : Value) (offset : Nat) :
    Safe (writeInSlot fault (element.writeGuarded fault) element.slotLength value offset)
      (element.write value offset) offset element.slotLength := by
  have announced : ∀ length, element.encodedLength value = .ok length →
      length ≤ element.slotLength := fun _ => Layout.encodedLength_le
  intro buffer room
  obtain ⟨same, fails⟩ := safe value _ announced offset buffer room
  have outside := wellFormed.confined value _ announced offset buffer room
  refine ⟨?_, fails⟩
  change EStateM.bind (element.writeGuarded fault value offset) _ buffer = _
  unfold left at outside
  cases run : element.write value offset buffer with
  | error error stopped => simp only [EStateM.bind, same, run]
  | ok written between =>
      simp only [run] at outside
      have inside := wellFormed.le_slotLength_of_write ⟨buffer, between, run⟩
      have passes : guardSlot fault between.size element.slotLength written offset = .ok () :=
        if_pos ⟨inside, by rw [outside.size]; exact room⟩
      simp only [EStateM.bind, same, run]
      change EStateM.bind _ _ between = _
      simp only [EStateM.bind, passes, Writing.ofExcept]
      rfl

theorem safe_writeSlot (value : Value) (offset : Nat) :
    Safe (writeSlot (writeInSlot fault (element.writeGuarded fault) element.slotLength)
        element.slotLength value offset)
      (writeSlot element.write element.slotLength value offset) offset element.slotLength :=
  (safe_writeInSlot wellFormed safe value offset).bind
    (wellFormed.confined value _ (fun _ announced => Layout.encodedLength_le announced) offset)
    fun _ => .overwrite _ _

theorem safe_writeElements (items : List Value) (offset : Nat) :
    Safe (writeElements (writeInSlot fault (element.writeGuarded fault) element.slotLength)
        element.slotLength items offset)
      (writeElements element.write element.slotLength items offset) offset
      (element.slotLength * items.length) := by
  induction items generalizing offset with
  | nil => exact .pure ()
  | cons item rest ih =>
      have length : element.slotLength * (item :: rest).length =
          element.slotLength + element.slotLength * rest.length := by
        rw [List.length_cons, Nat.mul_succ, Nat.add_comm]
      rw [length]
      have first := safe_writeSlot wellFormed safe item offset
      have inside := confined_writeSlot wellFormed.confined item offset
      refine (first.widen ?_).bind (inside.widen (Nat.le_refl _) ?_) fun _ =>
        (ih (offset + element.slotLength)).widen ?_
      all_goals omega

theorem safe_writeField (count : Option Nat) (value : Value) (offset : Nat) :
    Safe (writeField (writeInSlot fault (element.writeGuarded fault) element.slotLength) element
        count value offset)
      (writeField element.write element count value offset) offset
      (element.slotLength * count.getD 1) := by
  cases count with
  | none =>
      rw [Option.getD_none, Nat.mul_one]
      exact safe_writeSlot wellFormed safe value offset
  | some count =>
      simp only [writeField, Option.getD_some]
      split
      · rename_i text isChar
        rw [slotLength_of_isChar isChar, Nat.one_mul]
        exact safe_writeText text count offset
      · split
        · rename_i length
          rw [← length]
          exact safe_writeElements wellFormed safe _ offset
        · exact .throw True.intro
      · exact .throw True.intro

end Field

section Layouts

variable {fault : Error}

theorem FieldLayout.safe_writeAll {fields : List FieldLayout} {start stop : Nat}
    (tile : FieldLayout.Tile fields start stop)
    (elements : ∀ field ∈ fields, field.element.WellFormed)
    (safe : ∀ field ∈ fields, field.element.WritesSafely fault) (type : String)
    (record : RecordValue) (offset : Nat) :
    Safe (FieldLayout.writeAllGuarded fault fields type record offset)
      (FieldLayout.writeAll fields type record offset) offset stop := by
  induction fields generalizing start with
  | nil => exact .pure ()
  | cons field rest ih =>
      have inside := tile.field_le List.mem_cons_self
      have first := elements _ List.mem_cons_self
      have firstSafe := safe _ List.mem_cons_self
      obtain ⟨-, -, tile⟩ := tile
      have others := ih tile (fun other among => elements other (List.mem_cons_of_mem _ among))
        fun other among => safe other (List.mem_cons_of_mem _ among)
      cases field with
      | mk name element count fieldOffset length =>
          simp only at inside first firstSafe
          refine .check (RecordLayout.failsWith_fieldValue _ _ _) fun value _ => ?_
          have written := safe_writeField first firstSafe count value (offset + fieldOffset)
          have place := confined_writeField first.confined count value (offset + fieldOffset)
          refine (written.widen ?_).bind (place.widen ?_ ?_) fun _ => others
          all_goals omega

theorem RecordLayout.safe_write {layout : RecordLayout} (tiled : layout.Tiled)
    (elements : ∀ field ∈ layout.fields, field.element.WellFormed)
    (safe : ∀ field ∈ layout.fields, field.element.WritesSafely fault) (record : RecordValue)
    (offset : Nat) :
    Safe (layout.writeGuarded fault record offset) (layout.write record offset) offset
      layout.length := by
  have tile := tiled.tile
  cases layout with
  | mk name fields length =>
      exact .check (RecordLayout.failsWith_check _ _) fun _ _ =>
        (Safe.require (Nat.le_refl _)).bind .require fun _ =>
          FieldLayout.safe_writeAll tile elements safe name record offset

theorem UnionLayout.Tagged.safe_writeTag {union : UnionLayout} (tagged : union.Tagged)
    {selected : VariantLayout} (member : selected ∈ union.variants) (payload : RecordValue)
    (offset : Nat) :
    Safe (writeTag union selected.name payload offset)
      (writeTag union selected.name payload offset) offset union.headerLength := by
  unfold writeTag UnionLayout.headerLength
  cases union.discriminator with
  | key key =>
      rw [tagged.expectTags_eq]
      change Safe (union.tags.write (union.tags.valueOf selected.name) offset)
        (union.tags.write (union.tags.valueOf selected.name) offset) offset union.tags.width.bytes
      rw [tagged.valueOf_eq member]
      exact .writeWord (Nat.le_refl _) _
  | path fields tagOffset => exact .test (UnionLayout.failsWith_checkTag _ _ _ _)

theorem UnionLayout.writeGuarded_eq {union : UnionLayout} {variant : String}
    {payload : RecordValue} {selected : VariantLayout}
    (found : union.withName? variant = some selected)
    (recorded : selected.member = .record selected.record) (offset : Nat) :
    union.writeGuarded fault variant payload offset = (do
      writeTag union selected.name payload offset
      selected.record.writeGuarded fault payload (offset + union.headerLength)
      return union.headerLength + selected.record.length) := by
  have chosen : union.writeGuarded fault variant payload offset =
      selected.member.writeMemberGuarded fault
        ⟨union.name, union.discriminator, union.discriminant, []⟩ selected.name payload offset := by
    cases union with
    | mk name discriminator discriminant variants =>
        apply choice_eq_of_found (fun variants => VariantLayout.writeNamedGuarded fault variants
          ⟨name, discriminator, discriminant, []⟩ variant payload offset) _ found
        rintro ⟨name, tag, member⟩ rest
        by_cases chosen : name = variant
        · subst chosen
          rfl
        · simp only [VariantLayout.writeNamedGuarded, if_neg chosen]
  rw [chosen, recorded]
  rfl

/-- Without a variant of the name, writing fails because of the value. -/
theorem UnionLayout.safe_write_unknown {union : UnionLayout} {variant : String}
    (unknown : union.withName? variant = none) (payload : RecordValue) (offset length : Nat) :
    Safe (union.writeGuarded fault variant payload offset) (union.write variant payload offset)
      offset length := by
  cases union with
  | mk name discriminator discriminant variants =>
      have missing := List.find?_eq_none.mp unknown
      simp only [beq_iff_eq] at missing
      simp only [UnionLayout.writeGuarded, UnionLayout.write]
      clear unknown
      induction variants with
      | nil => exact .throw True.intro
      | cons first rest ih =>
          obtain ⟨differs, others⟩ := List.forall_mem_cons.mp missing
          cases first
          simp only at differs
          rw [VariantLayout.writeNamedGuarded, VariantLayout.writeNamed, if_neg differs,
            if_neg differs]
          exact ih others

theorem UnionLayout.writesSafely {union : UnionLayout} (tagged : union.Tagged)
    (safe : ∀ variant ∈ union.variants, (Layout.record variant.record).WritesSafely fault) :
    (Layout.union union).WritesSafely fault := by
  intro value length room offset
  simp only [Layout.writeGuarded, Layout.write]
  refine .check (UnionLayout.failsWith_expect _ _) fun content expected => ?_
  obtain ⟨variant, payload⟩ := content
  obtain rfl := UnionLayout.expect_eq_ok_iff.mp expected
  cases found : union.withName? variant with
  | none => exact UnionLayout.safe_write_unknown found payload offset length
  | some selected =>
      have inside : union.headerLength + selected.record.length ≤ length := by
        apply room
        simp [Layout.encodedLength, found]
      obtain ⟨member, rfl⟩ := tagged.withName?_eq_some.mp found
      have tag := tagged.safe_writeTag member payload offset
      have tagPlace := tagged.confined_writeTag selected.name payload offset
      have announced : ∀ other, (Layout.record selected.record).encodedLength (.record payload) =
          .ok other → other ≤ selected.record.length :=
        fun _ announced => Nat.le_of_eq (Except.ok.inj announced).symm
      have whole := safe selected member (.record payload) _ announced (offset + union.headerLength)
      simp only [Layout.writeGuarded, Layout.write] at whole
      have record : Safe (selected.record.writeGuarded fault payload (offset + union.headerLength))
          (selected.record.write payload (offset + union.headerLength))
          (offset + union.headerLength) selected.record.length := .of_andReturn whole
      rw [UnionLayout.writeGuarded_eq found (tagged.recorded selected member),
        tagged.write_eq found]
      refine (tag.widen ?_).bind (tagPlace.widen (Nat.le_refl _) ?_) fun _ =>
        (record.widen ?_).andReturn _
      all_goals omega

/-- None of the tests of writing ever fails where there is room, and writing
fails only because of the value, for every type of a resolved schema. -/
theorem Layout.WellFormed.writesSafely {layout : Layout} (wellFormed : layout.WellFormed) :
    layout.WritesSafely fault := by
  induction wellFormed with
  | @scalar name scalar =>
      intro value length room offset
      have width : scalar.width ≤ length := room scalar.width rfl
      simp only [Layout.writeGuarded, Layout.write]
      exact (scalar.safe_write value width offset).andReturn _
  | @enumeration constants _ =>
      intro value length room offset
      have width : constants.width.bytes ≤ length := room _ rfl
      simp only [Layout.writeGuarded, Layout.write]
      exact (constants.safe_write (constants.failsWith_constantWord value) width offset).andReturn _
  | @flags constants _ =>
      intro value length room offset
      have width : constants.width.bytes ≤ length := room _ rfl
      simp only [Layout.writeGuarded, Layout.write]
      exact (constants.safe_write (constants.failsWith_flagsWord value) width offset).andReturn _
  | @record record tiled elements safe =>
      intro value length room offset
      have total : record.length ≤ length := room record.length rfl
      simp only [Layout.writeGuarded, Layout.write]
      refine .check (failsWith_expectRecord _) fun payload _ => ?_
      have written := RecordLayout.safe_write tiled elements safe payload offset
      exact (written.widen (Nat.add_le_add_left total offset)).andReturn _
  | union tagged records safe => exact UnionLayout.writesSafely tagged safe

theorem Layout.WellFormed.safe_write {layout : Layout} (wellFormed : layout.WellFormed)
    (fault : Error) {value : Value} {length : Nat}
    (announced : layout.encodedLength value = .ok length) (offset : Nat) :
    Safe (layout.writeGuarded fault value offset) (layout.write value offset) offset length := by
  refine wellFormed.writesSafely value length (fun other known => ?_) offset
  rw [announced] at known
  exact Nat.le_of_eq (Except.ok.inj known).symm

end Layouts

end RecordCodec
