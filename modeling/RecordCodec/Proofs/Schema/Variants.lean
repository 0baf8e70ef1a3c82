import RecordCodec.Codec.Conformity
import RecordCodec.Proofs.Schema.Meaning
import RecordCodec.Proofs.Schema.Table

/-!
# Variants and the constants of the tag

A union takes its members one by one, each under a constant that none before it
has, and no constant may be left over.  So its variants and the constants of its
tag correspond one to one, and it does not matter whether a variant is looked up
by the value of its constant, as reading does, or by the name, as writing does.
Members that do not correspond to the constants in this way are refused.
-/

namespace RecordCodec

namespace VariantLayout

/-- The constant that selects a variant. -/
def constant (variant : VariantLayout) : Constant :=
  ⟨variant.name, variant.tag⟩

end VariantLayout

/-- The variants of a union correspond one to one to the constants of an enumeration of the
schema, and their records are records of the schema. -/
structure UnionLayout.Corresponds (schema : Schema) (union : UnionLayout) : Prop where
  /-- The tag is an enumeration, not a set of flags. -/
  tags : schema.find? union.tags.name = some (.enumeration union.tags)
  count : union.variants.length = union.tags.constants.length
  /-- A constant has a variant with its name and its value, and neither is that of another. -/
  one : ∀ constant ∈ union.tags.constants,
    ∃ variant ∈ union.variants, variant.name = constant.name ∧ variant.tag = constant.value ∧
      ∀ other ∈ union.variants,
        other.name = constant.name ∨ other.tag = constant.value → other = variant
  distinctNames : (union.variants.map VariantLayout.name).Nodup
  distinctTags : (union.variants.map VariantLayout.tag).Nodup
  found : ∀ constant ∈ union.tags.constants,
    ∃ variant, union.withTag? constant.value = some variant ∧
      union.withName? constant.name = some variant
  records : ∀ variant ∈ union.variants,
    schema.find? variant.record.name = some (.record variant.record)
  /-- A value takes as many bytes as the header and the record of its variant. -/
  lengths : ∀ variant ∈ union.variants, ∀ payload,
    (Layout.union union).encodedLength (.union union.name variant.name payload) =
      .ok (union.headerLength + (Layout.record variant.record).slotLength)
  headed : ∀ key, union.discriminator = .key key → union.headerLength = union.tags.width.bytes
  headless : ∀ path offset, union.discriminator = .path path offset → union.headerLength = 0
  /-- In front of a record its key is free. -/
  keyed : ∀ key, union.discriminator = .key key →
    ∀ variant ∈ union.variants, ∀ field ∈ variant.record.fields, field.name ≠ key

namespace UnionLayout.Tagged

variable {union : UnionLayout}

/-- The variants are selected by the constants of the tag, each by one. -/
theorem constants_perm (tagged : union.Tagged) :
    (union.variants.map VariantLayout.constant).Perm union.tags.constants := by
  have constants := tagged.tags.values.of_map
  have variants : (union.variants.map VariantLayout.constant).Nodup := by
    apply List.Nodup.of_map Constant.value
    rw [List.map_map]
    exact tagged.distinct
  refine (List.perm_ext_iff_of_nodup variants constants).mpr fun constant => ?_
  constructor
  · intro selects
    obtain ⟨variant, member, rfl⟩ := List.mem_map.mp selects
    exact tagged.selected variant member
  · intro declared
    obtain ⟨variant, member, tags⟩ := tagged.complete constant declared
    have names := tagged.name_eq member declared tags
    exact List.mem_map.mpr ⟨variant, member, by rw [VariantLayout.constant, names, tags]⟩

theorem names_perm (tagged : union.Tagged) :
    (union.variants.map VariantLayout.name).Perm (union.tags.constants.map Constant.name) := by
  have names := tagged.constants_perm.map Constant.name
  rwa [List.map_map] at names

end UnionLayout.Tagged

namespace Schema

variable {declarations : List Declaration} {schema : Schema}

section Accepted

variable (accepted : ofDeclarations declarations = .ok schema)

include accepted

theorem tagged_of_mem {union : UnionLayout} (member : .union union ∈ schema.table) :
    union.Tagged := by
  have found := (distinct_of_ofDeclarations accepted).find?_of_mem member
  cases wellFormed_of_find? accepted found with
  | union tagged => exact tagged

theorem corresponds_of_mem {union : UnionLayout} (member : .union union ∈ schema.table) :
    union.Corresponds schema := by
  have tagged := tagged_of_mem accepted member
  have known := (distinct_of_ofDeclarations accepted).find?_of_mem member
  have selectedBy : ∀ constant ∈ union.tags.constants,
      ∃ variant ∈ union.variants, variant.name = constant.name ∧ variant.tag = constant.value := by
    intro constant declared
    obtain ⟨variant, among, tags⟩ := tagged.complete constant declared
    exact ⟨variant, among, tagged.name_eq among declared tags, tags⟩
  refine
    { tags := find?_of_within accepted known (.single List.mem_cons_self)
      count := ?_
      one := ?_
      distinctNames := tagged.names
      distinctTags := tagged.distinct
      found := ?_
      records := ?_
      lengths := ?_
      headed := ?_
      headless := ?_
      keyed := ?_ }
  · simpa using tagged.constants_perm.length_eq
  · intro constant declared
    obtain ⟨variant, among, names, tags⟩ := selectedBy constant declared
    refine ⟨variant, among, names, tags, ?_⟩
    rintro other otherAmong (sameName | sameTag)
    · exact eq_of_key_eq tagged.names otherAmong among (sameName.trans names.symm)
    · exact eq_of_key_eq tagged.distinct otherAmong among (sameTag.trans tags.symm)
  · intro constant declared
    obtain ⟨variant, among, names, tags⟩ := selectedBy constant declared
    exact ⟨variant, tagged.withTag?_eq_some.mpr ⟨among, tags⟩,
      tagged.withName?_eq_some.mpr ⟨among, names⟩⟩
  · intro variant among
    have part : Layout.record variant.record ∈ (Layout.union union).parts :=
      List.mem_cons_of_mem _ (List.mem_map_of_mem among)
    exact find?_of_within accepted known (.single part)
  · intro variant among payload
    rw [Layout.encodedLength, tagged.withName?_eq_some.mpr ⟨among, rfl⟩]
    rfl
  · intro key shape
    rw [UnionLayout.headerLength, shape]
  · intro path offset shape
    rw [UnionLayout.headerLength, shape]
  · intro key shape variant among
    simpa [RecordLayout.hasField] using tagged.keyed key shape variant among

end Accepted

end Schema

namespace Declaration

/-- The members of a declared union are selected by the constants of the declared enumeration,
or of the one to which the path leads in one of them. -/
inductive SelectsBy (declarations : List Declaration) :
    DiscriminatorDeclaration → Option String → List MemberDeclaration → ConstantSet → Prop
  | declared {discriminator : DiscriminatorDeclaration} {reference : String}
      {members : List MemberDeclaration} {tags : ConstantSet}
      (means : Means declarations reference (.enumeration tags)) :
      SelectsBy declarations discriminator (some reference) members tags
  | embedded {path : List String} {discriminant : Option String}
      {members : List MemberDeclaration} {member : MemberDeclaration} {record : RecordLayout}
      {tags : ConstantSet} {offset : Nat} (among : member ∈ members)
      (means : Means declarations member.record (.record record))
      (leads : record.Leads path tags offset) :
      SelectsBy declarations (.path path) discriminant members tags

/-- The members of a union are resolved to what their records mean, in their order. -/
theorem forall₂_memberOf {related : String → Layout → Prop} {name : String}
    {members : List MemberDeclaration} {behind : List String} {layouts : List Layout}
    {resolved : List ResolvedMember}
    (references : List.Forall₂ related (members.map MemberDeclaration.record ++ behind) layouts)
    (made : (members.zip layouts).mapM (memberOf name) = .ok resolved) :
    List.Forall₂ (fun member result =>
        result.declaration = member ∧ related member.record (.record result.record))
      members resolved ∧ List.Forall₂ related behind (layouts.drop members.length) := by
  induction members generalizing layouts resolved with
  | nil =>
      obtain rfl : [] = resolved := by simpa using made
      exact ⟨.nil, references⟩
  | cons member members ih =>
      cases references with
      | @cons _ layout _ rest first references =>
          simp only [List.zip_cons_cons, List.mapM_cons, bind_eq_ok, pure_eq_ok] at made
          obtain ⟨result, single, results, made, rfl⟩ := made
          obtain ⟨each, last⟩ := ih references made
          cases layout with
          | record record =>
              obtain rfl := Except.ok.inj single
              exact ⟨.cons ⟨rfl, first⟩ each, last⟩
          | scalar _ _ | enumeration _ | flags _ | union _ => cases single

/-- The tag of a union is called like the declared enumeration, if there is one. -/
theorem name_of_tagOf {union reference : String} {discriminator : DiscriminatorDeclaration}
    {layout : Layout} {members : List ResolvedMember} {place : Discriminator} {tags : ConstantSet}
    (found : tagOf union discriminator (some (reference, layout)) members = .ok (place, tags)) :
    layout.name = tags.name := by
  cases discriminator with
  | key key =>
      simp only [tagOf] at found
      split at found
      · simp at found
      · simp only [bind_eq_ok, pure_eq_ok, Prod.mk.injEq] at found
        obtain ⟨declared, named, -, rfl⟩ := found
        cases layout with
        | enumeration constants =>
            obtain rfl := Except.ok.inj named
            rfl
        | scalar _ _ | flags _ | record _ | union _ => cases named
  | path path =>
      simp only [tagOf, bind_eq_ok] at found
      obtain ⟨common, -, found⟩ := found
      cases common with
      | none => simp at found
      | some placed =>
          dsimp only at found
          split at found
          · rename_i same
            obtain ⟨-, rfl⟩ := Prod.mk.inj (pure_eq_ok.mp found)
            exact same
          · simp at found

end Declaration

namespace Schema

open Declaration

variable {declarations : List Declaration} {schema : Schema}

section Accepted

variable (accepted : ofDeclarations declarations = .ok schema)

include accepted

/-- The variants of an accepted union are its members, selected by the constants of its tag. -/
theorem exists_union_of_declared {name : String} {discriminator : DiscriminatorDeclaration}
    {discriminant : Option String} {members : List MemberDeclaration}
    (declared : .union name discriminator discriminant members ∈ declarations) :
    ∃ union, schema.find? name = some (.union union) ∧
      union.variants.map VariantLayout.name = members.map MemberDeclaration.tag ∧
      ∀ tags, SelectsBy declarations discriminator discriminant members tags →
        union.tags = tags := by
  obtain ⟨layout, parts, found, references, assembled⟩ := exists_find?_of_mem accepted declared
  simp only [assemble, unionOf, bind_eq_ok, pure_eq_ok] at assembled
  obtain ⟨union, ⟨resolved, made, ⟨place, tags⟩, placed, built⟩, rfl⟩ := assembled
  obtain ⟨each, behind⟩ := forall₂_memberOf references made
  have distinct := (ofDeclarations_eq_ok_iff.mp accepted).1
  have gathers := UnionLayout.gathers_of_ofMembers built
  refine ⟨union, found, ?_, ?_⟩
  · rw [gathers.names]
    refine (map_eq_map_of_forall₂ (each.imp ?_)).symm
    rintro member result ⟨rfl, -⟩
    rfl
  · intro others selects
    rw [gathers.tags]
    cases selects with
    | @declared _ reference _ _ means =>
        obtain ⟨_, _, meansToo, -, rest⟩ := List.forall₂_cons_left_iff.mp behind
        rw [rest] at placed
        obtain rfl := meansToo.unique distinct means
        -- Either enumeration is known under its own name, and they have the same one.
        have known := find?_of_within accepted
          ((find?_eq_some_iff_means accepted).mpr means) .refl
        have tagged := find?_of_within accepted found (.single List.mem_cons_self)
        rw [gathers.tags] at tagged
        have same := known.symm.trans ((congrArg _ (name_of_tagOf placed)).trans tagged)
        exact (Layout.enumeration.inj (Option.some.inj same)).symm
    | @embedded path _ _ member record _ offset among means leads =>
        obtain ⟨result, inside, rfl, meansToo⟩ := exists_mem_of_forall₂ each among
        obtain rfl := Layout.record.inj (meansToo.unique distinct means)
        have wellFormed := wellFormed_of_find? accepted
          ((find?_eq_some_iff_means accepted).mpr means)
        rcases tagOf_spec placed with
          ⟨_, _, ⟨⟩, -⟩ | ⟨_, _, ⟨rfl⟩, -, -, located⟩
        · have same := (located result inside).symm.trans (leads.locate_eq wellFormed)
          exact (Prod.mk.inj (Except.ok.inj same)).1

theorem tags_perm_of_declared {name : String} {discriminator : DiscriminatorDeclaration}
    {discriminant : Option String} {members : List MemberDeclaration} {tags : ConstantSet}
    (declared : .union name discriminator discriminant members ∈ declarations)
    (selects : SelectsBy declarations discriminator discriminant members tags) :
    (members.map MemberDeclaration.tag).Perm (tags.constants.map Constant.name) ∧
      (tags.constants.map Constant.name).Nodup := by
  obtain ⟨union, found, names, selected⟩ := exists_union_of_declared accepted declared
  obtain rfl := selected tags selects
  cases wellFormed_of_find? accepted found with
  | union tagged => exact ⟨names ▸ tagged.names_perm, tagged.tags.names⟩

end Accepted

/-- Variants and constants of the tag correspond one to one in every union of an accepted schema.
A list of declarations with a union whose members leave out a constant, take one twice or name
one that is not declared is refused. -/
theorem variants_correspond_to_constants (declarations : List Declaration) :
    (∀ schema, ofDeclarations declarations = .ok schema →
      ∀ union, .union union ∈ schema.table → union.Corresponds schema) ∧
    ∀ name discriminator discriminant members tags,
      .union name discriminator discriminant members ∈ declarations →
      SelectsBy declarations discriminator discriminant members tags →
      ((∃ constant ∈ tags.constants, ∀ member ∈ members, member.tag ≠ constant.name) ∨
        ¬(members.map MemberDeclaration.tag).Nodup ∨
        ∃ member ∈ members, ∀ constant ∈ tags.constants, constant.name ≠ member.tag) →
      ∃ error, ofDeclarations declarations = .error error := by
  refine ⟨fun schema accepted union => corresponds_of_mem accepted, ?_⟩
  intro name discriminator discriminant members tags declared selects faulty
  cases outcome : ofDeclarations declarations with
  | error error => exact ⟨error, rfl⟩
  | ok schema =>
      obtain ⟨same, distinct⟩ := tags_perm_of_declared outcome declared selects
      rcases faulty with ⟨constant, among, missed⟩ | repeated | ⟨member, among, unknown⟩
      · have selected := same.mem_iff.mpr (List.mem_map_of_mem among)
        obtain ⟨member, inside, named⟩ := List.mem_map.mp selected
        exact absurd named (missed member inside)
      · exact absurd (same.nodup_iff.mpr distinct) repeated
      · have selects := same.mem_iff.mp (List.mem_map_of_mem among)
        obtain ⟨constant, inside, named⟩ := List.mem_map.mp selects
        exact absurd named (unknown constant inside)

end Schema

namespace Sample

/-- The kind inside a figure may be that of a label, but no member is selected by it. -/
def unpaired : List Declaration :=
  [.enumeration "Kind" "u8" [("Circle", 1), ("Label", 2)] false,
    .record "Circle" none [⟨"kind", "Kind", none⟩],
    .union "Figure" (.path ["kind"]) none [.named "Circle"]]

/-- A circle consists of its kind. -/
def disc : RecordLayout :=
  ⟨"Circle", [⟨"kind", .enumeration kinds, none, 0, 1⟩], 1⟩

theorem unpaired_kind : Means unpaired "Kind" (.enumeration kinds) := by
  have byte : Means unpaired "u8" (.scalar "u8" (.unsigned (width 0))) :=
    .builtIn (by decide) (by decide)
  have declared : .enumeration "Kind" "u8" [("Circle", 1), ("Label", 2)] false ∈ unpaired :=
    List.mem_cons_self
  exact .of_parts declared (.cons byte .nil) rfl

theorem unpaired_disc : Means unpaired "Circle" (.record disc) := by
  have declared : .record "Circle" none [⟨"kind", "Kind", none⟩] ∈ unpaired :=
    List.mem_cons_of_mem _ List.mem_cons_self
  exact .of_parts declared (.cons unpaired_kind .nil) rfl

end Sample

theorem Schema.sample_variants_correspond :
    (∃ shape, Layout.union shape ∈ Sample.schema.table ∧ Layout.union shape = Sample.shapeLayout ∧
      shape.Corresponds Sample.schema) ∧
    ∃ error, ofDeclarations Sample.unpaired = .error error := by
  obtain ⟨accepted, -⟩ := variants_correspond_to_constants Sample.declarations
  obtain ⟨-, refused⟩ := variants_correspond_to_constants Sample.unpaired
  have member : Sample.shapeLayout ∈ Sample.schema.table := by decide +kernel
  refine ⟨⟨_, member, rfl, accepted _ Sample.accepted _ member⟩, ?_⟩
  have leads : Sample.disc.Leads ["kind"] Sample.kinds 0 := RecordLayout.leads_of_locate rfl
  refine refused "Figure" (.path ["kind"]) none [.named "Circle"] Sample.kinds (by decide)
    (.embedded List.mem_cons_self Sample.unpaired_disc leads) (.inl ⟨⟨"Label", 2⟩, ?_⟩)
  exact ⟨by decide, by decide⟩

end RecordCodec
