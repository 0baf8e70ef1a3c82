import RecordCodec.Proofs.Keyed
import RecordCodec.Proofs.Success
import RecordCodec.Schema.Resolve

/-!
# Well-formed layouts

What resolving a declaration guarantees about the layout that it gives: the
constants of an enumeration are distinct and fit its width, the fields of a
record lie one behind the other without gaps up to its length, and the
variants of a union correspond one to one to the constants of its tag, which
lies where the discriminator says.  Reading and writing rely on nothing else.
-/

namespace RecordCodec

/-- No constant repeats a name or a value, and all values fit the width. -/
structure ConstantSet.WellFormed (set : ConstantSet) : Prop where
  names : (set.constants.map Constant.name).Nodup
  values : (set.constants.map Constant.value).Nodup
  fits : ∀ constant ∈ set.constants, constant.value.toNat < 256 ^ set.width.bytes

namespace ConstantSet.WellFormed

variable {set : ConstantSet} {constant : Constant}

theorem withName?_eq_some (wellFormed : set.WellFormed) {name : String} :
    set.withName? name = some constant ↔ constant ∈ set.constants ∧ constant.name = name :=
  find?_key_eq_some wellFormed.names

theorem withValue?_eq_some (wellFormed : set.WellFormed) {value : UInt64} :
    set.withValue? value = some constant ↔ constant ∈ set.constants ∧ constant.value = value :=
  find?_key_eq_some wellFormed.values

end ConstantSet.WellFormed

/-- The number of bytes of fields together. -/
def FieldLayout.total : List FieldLayout → Nat
  | [] => 0
  | field :: rest => field.length + total rest

/-- The fields lie one behind the other from `start` to `stop`, each as long as its elements. -/
def FieldLayout.Tile : List FieldLayout → (start stop : Nat) → Prop
  | [], start, stop => start = stop
  | field :: rest, start, stop =>
      field.offset = start ∧ field.length = field.element.slotLength * field.count.getD 1 ∧
        Tile rest (start + field.length) stop

namespace FieldLayout.Tile

variable {fields : List FieldLayout} {start stop : Nat}

theorem le (tile : FieldLayout.Tile fields start stop) : start ≤ stop := by
  induction fields generalizing start with
  | nil => exact Nat.le_of_eq tile
  | cons field rest ih => exact Nat.le_trans (Nat.le_add_right _ _) (ih tile.2.2)

theorem field_le (tile : FieldLayout.Tile fields start stop) {field : FieldLayout}
    (member : field ∈ fields) :
    field.offset + field.element.slotLength * field.count.getD 1 ≤ stop := by
  induction fields generalizing start with
  | nil => cases member
  | cons first rest ih =>
      obtain ⟨placed, sized, tile⟩ := tile
      rcases List.mem_cons.mp member with rfl | inRest
      · rw [← sized, placed]
        exact tile.le
      · exact ih tile inRest

theorem length_eq (tile : FieldLayout.Tile fields start stop) {field : FieldLayout}
    (member : field ∈ fields) :
    field.length = field.element.slotLength * field.count.getD 1 := by
  induction fields generalizing start with
  | nil => cases member
  | cons first rest ih =>
      obtain ⟨-, sized, tile⟩ := tile
      rcases List.mem_cons.mp member with rfl | inRest
      · exact sized
      · exact ih tile inRest

theorem stop_eq (tile : FieldLayout.Tile fields start stop) :
    stop = start + FieldLayout.total fields := by
  induction fields generalizing start with
  | nil => exact tile.symm
  | cons first rest ih => rw [ih tile.2.2, FieldLayout.total, Nat.add_assoc]

theorem first_offset (tile : FieldLayout.Tile fields start stop) {field : FieldLayout}
    (first : fields[0]? = some field) : field.offset = start := by
  cases fields with
  | nil => cases first
  | cons head rest =>
      obtain rfl := Option.some.inj first
      exact tile.1

theorem next_offset (tile : FieldLayout.Tile fields start stop) {index : Nat}
    {field following : FieldLayout} (placed : fields[index]? = some field)
    (behind : fields[index + 1]? = some following) :
    following.offset = field.offset + field.length := by
  induction fields generalizing start index with
  | nil => cases placed
  | cons first rest ih =>
      cases index with
      | zero =>
          obtain rfl := Option.some.inj placed
          rw [tile.1]
          exact first_offset tile.2.2 behind
      | succ index => exact ih tile.2.2 placed behind

end FieldLayout.Tile

/-- The fields of a record have distinct names and fill it without gaps. -/
structure RecordLayout.Tiled (record : RecordLayout) : Prop where
  names : (record.fields.map FieldLayout.name).Nodup
  tile : FieldLayout.Tile record.fields 0 record.length
  bounded : record.length ≤ layoutLimit

/-- The tag of a union is an enumeration and its members are records.  The variants correspond
to the constants of the tag, and the tag of every variant lies where the discriminator says. -/
structure UnionLayout.Tagged (union : UnionLayout) : Prop where
  enumerated : union.discriminant = .enumeration union.tags
  recorded : ∀ variant ∈ union.variants, variant.member = .record variant.record
  tags : union.tags.WellFormed
  selected : ∀ variant ∈ union.variants, ⟨variant.name, variant.tag⟩ ∈ union.tags.constants
  distinct : (union.variants.map VariantLayout.tag).Nodup
  complete : ∀ constant ∈ union.tags.constants,
    ∃ variant ∈ union.variants, variant.tag = constant.value
  keyed : ∀ key, union.discriminator = .key key →
    ∀ variant ∈ union.variants, variant.record.hasField key = false
  located : ∀ path offset, union.discriminator = .path path offset →
    ∀ variant ∈ union.variants, variant.record.locate path = .ok (union.tags, offset)

/-- A layout of which every part is as resolving makes it. -/
inductive Layout.WellFormed : Layout → Prop
  | scalar {name : String} {scalar : Scalar} : WellFormed (.scalar name scalar)
  | enumeration {constants : ConstantSet} (distinct : constants.WellFormed) :
      WellFormed (.enumeration constants)
  | flags {constants : ConstantSet} (distinct : constants.WellFormed) :
      WellFormed (.flags constants)
  | record {record : RecordLayout} (tiled : record.Tiled)
      (elements : ∀ field ∈ record.fields, WellFormed field.element) :
      WellFormed (.record record)
  | union {union : UnionLayout} (tagged : union.Tagged)
      (records : ∀ variant ∈ union.variants, WellFormed (.record variant.record)) :
      WellFormed (.union union)

namespace Layout.WellFormed

variable {record nested : RecordLayout} {field : FieldLayout}

theorem tiled (wellFormed : (Layout.record record).WellFormed) : record.Tiled := by
  cases wellFormed with
  | record tiled => exact tiled

theorem element (wellFormed : (Layout.record record).WellFormed)
    (member : field ∈ record.fields) : field.element.WellFormed := by
  cases wellFormed with
  | record _ elements => exact elements field member

theorem inner (wellFormed : (Layout.record record).WellFormed) (member : field ∈ record.fields)
    (shape : field.element = .record nested) : (Layout.record nested).WellFormed := by
  rw [← shape]
  exact wellFormed.element member

/-- An object or a buffer shows a union and its variant together, so what holds of the
record of the variant may not help: this induction goes to the elements of its fields. -/
@[elab_as_elim]
theorem elements_induction {motive : (layout : Layout) → layout.WellFormed → Prop}
    (scalar : ∀ name scalar, motive (.scalar name scalar) .scalar)
    (enumeration : ∀ constants distinct, motive (.enumeration constants) (.enumeration distinct))
    (flags : ∀ constants distinct, motive (.flags constants) (.flags distinct))
    (record : ∀ record tiled elements,
      (∀ field member, motive field.element (elements field member)) →
        motive (.record record) (.record tiled elements))
    (union : ∀ union tagged records,
      (∀ variant member (field : FieldLayout) (among : field ∈ variant.record.fields),
        motive field.element ((records variant member).element among)) →
        motive (.union union) (.union tagged records))
    {layout : Layout} (wellFormed : layout.WellFormed) : motive layout wellFormed := by
  suffices both : motive layout wellFormed ∧
      ∀ record (shape : layout = .record record) field (member : field ∈ record.fields),
        motive field.element ((shape ▸ wellFormed).element member) from both.1
  induction wellFormed with
  | scalar => exact ⟨scalar _ _, nofun⟩
  | enumeration distinct => exact ⟨enumeration _ distinct, nofun⟩
  | flags distinct => exact ⟨flags _ distinct, nofun⟩
  | record tiled elements ih =>
      have each := fun field member => (ih field member).1
      refine ⟨record _ tiled elements each, ?_⟩
      rintro _ ⟨⟩
      exact each
  | union tagged records ih =>
      exact ⟨union _ tagged records fun variant member => (ih variant member).2 _ rfl, nofun⟩

end Layout.WellFormed

/-- The path leads through fields of nested records to an enumeration at an offset. -/
inductive RecordLayout.Leads : RecordLayout → List String → ConstantSet → Nat → Prop
  | here {record : RecordLayout} {field : FieldLayout} {tags : ConstantSet}
      (member : field ∈ record.fields) (plain : field.count = none)
      (shape : field.element = .enumeration tags) : Leads record [field.name] tags field.offset
  | through {record inner : RecordLayout} {field : FieldLayout} {path : List String}
      {tags : ConstantSet} {offset : Nat} (member : field ∈ record.fields)
      (plain : field.count = none) (shape : field.element = .record inner)
      (deeper : Leads inner path tags offset) :
      Leads record (field.name :: path) tags (field.offset + offset)

namespace RecordLayout

theorem of_plainField? {record : RecordLayout} {name : String} {field : FieldLayout}
    (found : record.plainField? name = some field) :
    field ∈ record.fields ∧ field.name = name ∧ field.count = none := by
  have selected := List.find?_some found
  simp only [Bool.and_eq_true, beq_iff_eq, Option.isNone_iff_eq_none] at selected
  exact ⟨List.mem_of_find?_eq_some found, selected⟩

theorem leads_of_locate {record : RecordLayout} {path : List String} {tags : ConstantSet}
    {offset : Nat} (located : record.locate path = .ok (tags, offset)) :
    record.Leads path tags offset := by
  induction path generalizing record offset with
  | nil => simp [locate] at located
  | cons name path ih =>
      cases path with
      | nil =>
          simp only [locate] at located
          split at located
          · cases located
          · rename_i field found
            obtain ⟨member, rfl, plain⟩ := of_plainField? found
            split at located
            · rename_i constants shape
              obtain ⟨rfl, rfl⟩ := Prod.mk.inj (Except.ok.inj located)
              exact .here member plain shape
            · cases located
      | cons next path =>
          simp only [locate] at located
          split at located
          · cases located
          · rename_i field found
            obtain ⟨member, rfl, plain⟩ := of_plainField? found
            split at located
            · rename_i inner shape
              simp only [bind_eq_ok, pure_eq_ok] at located
              obtain ⟨⟨constants, inside⟩, deeper, same⟩ := located
              obtain ⟨rfl, rfl⟩ := Prod.mk.inj same
              exact .through member plain shape (ih deeper)
            · cases located

theorem Leads.ne_nil {record : RecordLayout} {path : List String} {tags : ConstantSet}
    {offset : Nat} (leads : record.Leads path tags offset) : path ≠ [] := by
  cases leads <;> simp

/-- A path of field names from a well-formed record ends at a well-formed enumeration. -/
theorem Leads.wellFormed {record : RecordLayout} {path : List String} {tags : ConstantSet}
    {offset : Nat} (leads : record.Leads path tags offset)
    (wellFormed : (Layout.record record).WellFormed) : tags.WellFormed := by
  induction leads with
  | here member _ shape =>
      have sound := wellFormed.element member
      rw [shape] at sound
      cases sound with
      | enumeration distinct => exact distinct
  | through member _ shape _ ih => exact ih (wellFormed.inner member shape)

theorem plainField?_eq_some {record : RecordLayout} {field : FieldLayout}
    (names : (record.fields.map FieldLayout.name).Nodup) (member : field ∈ record.fields)
    (plain : field.count = none) : record.plainField? field.name = some field := by
  cases found : record.plainField? field.name with
  | none => simpa [plain] using List.find?_eq_none.mp found field member
  | some other =>
      obtain ⟨among, same, -⟩ := of_plainField? found
      rw [eq_of_key_eq names among member same]

/-- From a well-formed record a path leads nowhere else than where it is found to end. -/
theorem Leads.locate_eq {record : RecordLayout} {path : List String} {tags : ConstantSet}
    {offset : Nat} (leads : record.Leads path tags offset)
    (wellFormed : (Layout.record record).WellFormed) : record.locate path = .ok (tags, offset) := by
  induction leads with
  | here member plain shape =>
      simp only [locate, plainField?_eq_some wellFormed.tiled.names member plain, shape]
  | @through record inner field path tags offset member plain shape deeper ih =>
      cases path with
      | nil => exact absurd rfl deeper.ne_nil
      | cons next path =>
          simp only [locate, plainField?_eq_some wellFormed.tiled.names member plain, shape]
          rw [ih (wellFormed.inner member shape)]
          rfl

end RecordLayout

namespace UnionLayout.Tagged

variable {union : UnionLayout} {variant : VariantLayout}

theorem leads (tagged : union.Tagged) (member : variant ∈ union.variants) {path : List String}
    {offset : Nat} (embedded : union.discriminator = .path path offset) :
    variant.record.Leads path union.tags offset :=
  RecordLayout.leads_of_locate (tagged.located path offset embedded variant member)

theorem names (tagged : union.Tagged) : (union.variants.map VariantLayout.name).Nodup := by
  rw [List.Nodup, List.pairwise_map]
  have tags := tagged.distinct
  rw [List.Nodup, List.pairwise_map] at tags
  refine tags.imp_of_mem ?_
  intro first second firstMember secondMember differ names
  have same := eq_of_key_eq tagged.tags.names (tagged.selected first firstMember)
    (tagged.selected second secondMember) names
  exact differ (congrArg Constant.value same)

theorem withName?_eq_some (tagged : union.Tagged) {name : String} :
    union.withName? name = some variant ↔ variant ∈ union.variants ∧ variant.name = name :=
  find?_key_eq_some tagged.names

theorem recorded_of_withName? (tagged : union.Tagged) {name : String}
    (found : union.withName? name = some variant) : variant.member = .record variant.record :=
  tagged.recorded variant (tagged.withName?_eq_some.mp found).1

theorem withTag?_eq_some (tagged : union.Tagged) {tag : UInt64} :
    union.withTag? tag = some variant ↔ variant ∈ union.variants ∧ variant.tag = tag :=
  find?_key_eq_some tagged.distinct

/-- A constant is named like the variant that it selects. -/
theorem name_eq (tagged : union.Tagged) {constant : Constant}
    (variantMember : variant ∈ union.variants) (member : constant ∈ union.tags.constants)
    (tags : variant.tag = constant.value) : variant.name = constant.name := by
  have same := eq_of_key_eq tagged.tags.values (tagged.selected variant variantMember) member tags
  exact congrArg Constant.name same

end UnionLayout.Tagged

end RecordCodec
