import Mathlib.Data.List.Induction
import Mathlib.Logic.Relation
import RecordCodec.Proofs.Schema.WellFormed

/-!
# The table of an accepted schema

A layout refers to others by their places in the table, and all of these come
before its own: its parts were looked up before it was entered.  The enumeration
that a path of field names leads to is no reference of the union, but it is a
part of parts of its members, which the table has as well.
-/

namespace RecordCodec

namespace Layout

/-- The layouts that a layout refers to. -/
def parts : Layout → List Layout
  | .record fields => fields.fields.map FieldLayout.element
  | .union variants =>
      .enumeration variants.tags :: variants.variants.map fun variant => .record variant.record
  | .scalar _ _ | .enumeration _ | .flags _ => []

/-- A layout is another one, one of its parts, a part of a part, and so on. -/
def Within : Layout → Layout → Prop :=
  Relation.ReflTransGen fun part whole => part ∈ whole.parts

end Layout

/-- The enumeration at the end of a path of field names is deep inside the record. -/
theorem RecordLayout.Leads.within {record : RecordLayout} {path : List String}
    {tags : ConstantSet} {offset : Nat} (leads : record.Leads path tags offset) :
    (Layout.enumeration tags).Within (.record record) := by
  induction leads with
  | @here record field tags member _ shape =>
      refine .single ?_
      rw [← shape]
      exact List.mem_map_of_mem member
  | @through record inner field _ _ _ member _ shape _ ih =>
      refine ih.tail ?_
      rw [← shape]
      exact List.mem_map_of_mem member

namespace Declaration

variable {layouts : List Layout}

/-- The parts of a layout that is put together are inside of the references. -/
theorem parts_assemble {declaration : Declaration} {layout : Layout}
    (named : declaration.isAlias = false) (assembled : declaration.assemble layouts = .ok layout) :
    ∀ part ∈ layout.parts, ∃ reference ∈ layouts, part.Within reference := by
  match declaration with
  | .primitive name size =>
      simp only [assemble, bind_eq_ok, pure_eq_ok] at assembled
      obtain ⟨scalar, -, rfl⟩ := assembled
      simp [Layout.parts]
  | .alias name target => cases named
  | .enumeration name underlying constants isFlags =>
      simp only [assemble, bind_eq_ok, pure_eq_ok] at assembled
      obtain ⟨_, -, set, -, rfl⟩ := assembled
      cases isFlags <;> simp [Layout.parts]
  | .record name size fields =>
      simp only [assemble, bind_eq_ok, pure_eq_ok] at assembled
      obtain ⟨record, made, rfl⟩ := assembled
      obtain ⟨-, -, elements⟩ := recordOf_spec made
      simp only [Layout.parts, List.forall_mem_map]
      intro field member
      obtain ⟨declared, paired, same⟩ := elements field member
      exact ⟨_, (List.of_mem_zip paired).2, same ▸ .refl⟩
  | .union name discriminator discriminant members =>
      simp only [assemble, bind_eq_ok, pure_eq_ok] at assembled
      obtain ⟨union, made, rfl⟩ := assembled
      obtain ⟨resolved, place, tags, among, placed, built⟩ := members_of_unionOf made
      have gathers := UnionLayout.gathers_of_ofMembers built
      simp only [Layout.parts, List.forall_mem_cons, List.forall_mem_map]
      constructor
      · rw [gathers.tags]
        rcases tagOf_spec placed with
          ⟨key, reference, -, -, declared, -⟩ | ⟨path, offset, -, -, nonempty, located⟩
        · exact ⟨_, mem_of_discriminant declared, .refl⟩
        · obtain ⟨first, inside⟩ := List.exists_mem_of_ne_nil resolved nonempty
          exact ⟨_, among first inside,
            (RecordLayout.leads_of_locate (located first inside)).within⟩
      · intro variant member
        obtain ⟨owner, declared, same⟩ := gathers.records member
        rw [same]
        exact ⟨_, among owner declared, .refl⟩

end Declaration

/-- A list in which every layout comes behind its parts. -/
inductive Layout.Sorted : List Layout → Prop
  | nil : Sorted []
  | append {table : List Layout} {layout : Layout} (sorted : Sorted table)
      (parts : ∀ part ∈ layout.parts, part ∈ table) : Sorted (table ++ [layout])

namespace Layout.Sorted

variable {table : List Layout} {layout part : Layout}

theorem exists_before (sorted : Layout.Sorted table) {index : Nat}
    (placed : table[index]? = some layout) (member : part ∈ layout.parts) :
    ∃ earlier < index, table[earlier]? = some part := by
  induction sorted with
  | nil => simp at placed
  | @append table last _ parts ih =>
      rcases Nat.lt_or_ge index table.length with inside | behind
      · rw [List.getElem?_append_left inside] at placed
        obtain ⟨earlier, less, found⟩ := ih placed
        refine ⟨earlier, less, ?_⟩
        rwa [List.getElem?_append_left (Nat.lt_trans less inside)]
      · rw [List.getElem?_append_right behind] at placed
        obtain ⟨-, rfl⟩ : _ ∧ last = layout := by
          simpa [List.getElem?_singleton] using placed
        obtain ⟨earlier, bound, rfl⟩ := List.getElem_of_mem (parts part member)
        refine ⟨earlier, Nat.lt_of_lt_of_le bound behind, ?_⟩
        rw [List.getElem?_append_left bound, List.getElem?_eq_getElem bound]

theorem mem_of_within (sorted : Layout.Sorted table) (within : part.Within layout)
    (member : layout ∈ table) : part ∈ table := by
  induction within using Relation.ReflTransGen.head_induction_on with
  | refl => exact member
  | head inside _ ih =>
      obtain ⟨index, placed⟩ := List.mem_iff_getElem?.mp ih
      obtain ⟨earlier, -, found⟩ := sorted.exists_before placed inside
      exact List.mem_iff_getElem?.mpr ⟨earlier, found⟩

end Layout.Sorted

namespace Schema

/-- The table is sorted and has the layouts of all names, those of aliases
together with what they are declared to stand for. -/
structure Ordered (declarations : List Declaration) (schema : Schema) : Prop where
  sorted : Layout.Sorted schema.table
  listed : ∀ entry ∈ schema.entries, entry.2 ∈ schema.table
  linked : ∀ entry ∈ schema.aliases,
    ∃ target, Declaration.alias entry.1 target ∈ declarations ∧
      (target, entry.2) ∈ schema.entries

variable {declarations : List Declaration} {schema : Schema}

theorem Ordered.enter {declaration : Declaration} {layout : Layout} {parts : List Layout}
    (ordered : schema.Ordered declarations) (declared : declaration ∈ declarations)
    (assembled : declaration.assemble parts = .ok layout)
    (found : List.Forall₂ (fun name layout => (name, layout) ∈ schema.entries)
      declaration.references parts) :
    (schema.enter declaration layout).Ordered declarations := by
  have grows : Grows declarations schema (schema.enter declaration layout) :=
    .enter declared assembled
  have references : ∀ part ∈ parts, part ∈ schema.table := by
    intro part member
    obtain ⟨name, -, known⟩ := exists_mem_of_forall₂ found.flip member
    exact ordered.listed _ known
  have listed (new : layout ∈ (schema.enter declaration layout).table) :
      ∀ entry ∈ (schema.enter declaration layout).entries,
        entry.2 ∈ (schema.enter declaration layout).table := by
    intro entry member
    rcases List.mem_cons.mp ((entries_enter assembled).mem_iff.mp member) with rfl | old
    · exact new
    · exact grows.table.subset (ordered.listed entry old)
  -- An alias adds nothing to the table; everything else is put behind what it consists of.
  cases isAlias : declaration.isAlias with
  | true =>
      match declaration with
      | .alias name target =>
          cases found with
          | @cons _ part _ _ known rest =>
              obtain rfl : part = layout := Except.ok.inj assembled
              refine ⟨ordered.sorted, listed (ordered.listed _ known), ?_⟩
              intro entry member
              rcases List.mem_append.mp member with old | new
              · obtain ⟨other, linked, known⟩ := ordered.linked entry old
                exact ⟨other, linked, grows.entries known⟩
              · obtain rfl := List.mem_singleton.mp new
                exact ⟨target, declared, grows.entries known⟩
  | false =>
      rw [enter_eq_addLayout isAlias] at grows listed ⊢
      refine ⟨.append ordered.sorted ?_, listed (by simp [addLayout]), ?_⟩
      · intro part member
        obtain ⟨reference, among, within⟩ := Declaration.parts_assemble isAlias assembled part member
        exact ordered.sorted.mem_of_within within (references reference among)
      · intro entry member
        obtain ⟨other, linked, known⟩ := ordered.linked entry member
        exact ⟨other, linked, grows.entries known⟩

theorem ordered_builtIn (declarations : List Declaration) :
    (builtIn declarations).Ordered declarations := by
  have sorted (scalars : List (String × Scalar)) :
      Layout.Sorted (scalars.map fun entry => .scalar entry.1 entry.2) := by
    induction scalars using List.reverseRecOn with
    | nil => exact .nil
    | append_singleton front last ih =>
        rw [List.map_append]
        exact .append ih (by simp [Layout.parts])
  refine ⟨sorted _, ?_, by simp [builtIn]⟩
  rintro ⟨name, layout⟩ member
  rcases mem_entries_iff.mp member with ⟨listed, -⟩ | renamed
  · exact listed
  · simp [builtIn] at renamed

end Schema

theorem Settles.ordered {declarations pending : List Declaration} {names : List String}
    {before after : Schema} {layouts : List Layout}
    (settles : Settles pending names before layouts after) (among : pending ⊆ declarations)
    (ordered : before.Ordered declarations) : after.Ordered declarations := by
  induction settles with
  | nil => exact ordered
  | known _ _ ih => exact ih among ordered
  | declared _ selected inside assembled _ references rest =>
      refine rest among ?_
      have declared := among (List.mem_of_find?_eq_some selected)
      have ordered := references (List.Subset.trans (Declaration.others_subset _ _) among) ordered
      exact ordered.enter declared assembled inside.found

namespace Schema

variable {declarations : List Declaration} {schema : Schema}

/-- The place in the table of the layout that a name stands for. -/
def typeId? (schema : Schema) (name : String) : Option Nat :=
  (schema.find? name).bind schema.position?

/-- The layout at one place of the table refers to the layout at another. -/
def Stores (schema : Schema) (index stored : Nat) : Prop :=
  ∃ layout, schema.table[index]? = some layout ∧
    ∃ part ∈ layout.parts, schema.position? part = some stored

theorem position?_eq_some (names : (schema.table.map Layout.name).Nodup) {layout : Layout}
    {index : Nat} (placed : schema.table[index]? = some layout) :
    schema.position? layout = some index := by
  obtain ⟨bound, rfl⟩ := List.getElem?_eq_some_iff.mp placed
  refine List.findIdx?_eq_some_iff_getElem.mpr ⟨bound, by simp, ?_⟩
  intro earlier less
  have differ := List.pairwise_iff_getElem.mp names earlier index (by simp; omega) (by simpa) less
  simpa using differ

section Accepted

variable (accepted : ofDeclarations declarations = .ok schema)

include accepted

theorem ordered_of_ofDeclarations : schema.Ordered declarations := by
  obtain ⟨-, layouts, settles⟩ := ofDeclarations_eq_ok_iff.mp accepted
  exact settles.ordered (List.Subset.refl _) (ordered_builtIn declarations)

theorem mem_aliases_of_isAlias {declaration : Declaration} {layout : Layout}
    (declared : declaration ∈ declarations) (isAlias : declaration.isAlias = true)
    (known : (declaration.name, layout) ∈ schema.entries) :
    (declaration.name, layout) ∈ schema.aliases := by
  rcases mem_entries_iff.mp known with ⟨listed, named⟩ | renamed
  · rcases (grows_of_ofDeclarations accepted).newLayouts layout listed with
      builtIn | ⟨other, among, isOther, same⟩
    · have entry := mem_entries_iff.mpr (.inl ⟨builtIn, named⟩)
      exact absurd rfl ((mem_entries_builtIn.mp entry).1 declaration declared)
    · have names := (ofDeclarations_eq_ok_iff.mp accepted).1
      obtain rfl := eq_of_key_eq names among declared (same.trans named)
      rw [isAlias] at isOther
      cases isOther
  · exact renamed

theorem mem_table_of_not_isAlias {declaration : Declaration} {layout : Layout}
    (declared : declaration ∈ declarations) (isOther : declaration.isAlias = false)
    (known : (declaration.name, layout) ∈ schema.entries) :
    layout ∈ schema.table ∧ layout.name = declaration.name := by
  rcases mem_entries_iff.mp known with listed | renamed
  · exact listed
  · rcases (grows_of_ofDeclarations accepted).newAliases _ renamed with
      builtIn | ⟨other, among, isAlias, same⟩
    · cases builtIn
    · have names := (ofDeclarations_eq_ok_iff.mp accepted).1
      obtain rfl := eq_of_key_eq names among declared same
      rw [isAlias] at isOther
      cases isOther

/-- Behind the built-in types stands one layout for each declaration that is no alias. -/
theorem exists_settled : ∃ settled, schema.table = (builtIn declarations).table ++ settled ∧
    (settled.map Layout.name).Perm
      ((declarations.filter fun declaration => !declaration.isAlias).map Declaration.name) := by
  have grows := grows_of_ofDeclarations accepted
  have declaredNames := (ofDeclarations_eq_ok_iff.mp accepted).1
  obtain ⟨settled, split⟩ := grows.table
  have names := (distinct_of_ofDeclarations accepted).table
  rw [← split, List.map_append, List.nodup_append] at names
  refine ⟨settled, split.symm, (List.perm_ext_iff_of_nodup names.2.1
    (declaredNames.sublist (List.filter_sublist.map _))).mpr fun name => ?_⟩
  simp only [List.mem_map, List.mem_filter, Bool.not_eq_true']
  constructor
  · rintro ⟨layout, member, rfl⟩
    rcases grows.newLayouts layout (by simp [← split, member]) with
      builtIn | ⟨declaration, declared, isOther, same⟩
    · exact absurd rfl (names.2.2 _ (List.mem_map_of_mem builtIn) _ (List.mem_map_of_mem member))
    · exact ⟨declaration, ⟨declared, isOther⟩, same⟩
  · rintro ⟨declaration, ⟨declared, isOther⟩, rfl⟩
    obtain ⟨layout, known⟩ := exists_entry_of_mem accepted declared
    obtain ⟨listed, named⟩ := mem_table_of_not_isAlias accepted declared isOther known
    rw [← split, List.mem_append] at listed
    rcases listed with builtIn | member
    · have entry := mem_entries_iff.mpr (.inl ⟨builtIn, named⟩)
      exact absurd rfl ((mem_entries_builtIn.mp entry).1 declaration declared)
    · exact ⟨layout, member, named⟩

theorem find?_eq_of_alias {name target : String}
    (declared : Declaration.alias name target ∈ declarations) :
    schema.find? name = schema.find? target := by
  have distinct := distinct_of_ofDeclarations accepted
  obtain ⟨layout, known⟩ := exists_entry_of_mem accepted declared
  have renamed := mem_aliases_of_isAlias accepted declared rfl known
  obtain ⟨other, linked, found⟩ := (ordered_of_ofDeclarations accepted).linked _ renamed
  have names := (ofDeclarations_eq_ok_iff.mp accepted).1
  obtain ⟨-, rfl⟩ := Declaration.alias.inj (eq_of_key_eq names linked declared rfl)
  exact (distinct.find?_eq_some_iff.mpr known).trans (distinct.find?_eq_some_iff.mpr found).symm

/-- Whatever is deep inside a layout of an accepted schema is found under its own name. -/
theorem find?_of_within {name : String} {layout part : Layout}
    (found : schema.find? name = some layout) (within : part.Within layout) :
    schema.find? part.name = some part := by
  have ordered := ordered_of_ofDeclarations accepted
  have listed := ordered.listed _ (mem_entries_of_find? found)
  have among := ordered.sorted.mem_of_within within listed
  exact (distinct_of_ofDeclarations accepted).find?_eq_some_iff.mpr
    (mem_entries_iff.mpr (.inl ⟨among, rfl⟩))

end Accepted

/-- How the types of a schema are numbered. -/
structure Indexed (declarations : List Declaration) (schema : Schema) : Prop where
  /-- Whatever a layout refers to is found in the table before it. -/
  backwards : ∀ index layout, schema.table[index]? = some layout → ∀ part ∈ layout.parts,
    ∃ stored < index, schema.position? part = some stored ∧ schema.table[stored]? = some part
  names : (schema.table.map Layout.name).Nodup
  /-- The name of a layout stands for the place where it is. -/
  canonical : ∀ index layout, schema.table[index]? = some layout →
    schema.typeId? layout.name = some index
  /-- The place that a name stands for is that of the layout that is found. -/
  valid : ∀ name index, schema.typeId? name = some index →
    ∃ layout, schema.find? name = some layout ∧ schema.table[index]? = some layout
  /-- Behind the built-in types there is a layout for every declaration but the aliases. -/
  contents : ∃ settled, schema.table = (builtIn declarations).table ++ settled ∧
    (settled.map Layout.name).Perm
      ((declarations.filter fun declaration => !declaration.isAlias).map Declaration.name)
  /-- Exactly the declared and the built-in names stand for something. -/
  known : ∀ name, (∃ index, schema.typeId? name = some index) ↔
    (∃ declaration ∈ declarations, declaration.name = name) ∨
      ∃ scalar, (name, scalar) ∈ Scalar.builtIns
  /-- An alias stands for what its target stands for, and so on. -/
  aliases : ∀ name target, Relation.ReflTransGen
    (fun name target => Declaration.alias name target ∈ declarations) name target →
      schema.typeId? name = schema.typeId? target
  /-- Following references comes to an end. -/
  terminates : WellFounded fun stored index => schema.Stores index stored

/-- The types of an accepted schema are numbered so that references lead backwards. -/
theorem indexed_of_ofDeclarations (accepted : ofDeclarations declarations = .ok schema) :
    schema.Indexed declarations := by
  have distinct := distinct_of_ofDeclarations accepted
  have ordered := ordered_of_ofDeclarations accepted
  have place {index : Nat} {layout : Layout} (placed : schema.table[index]? = some layout) :
      schema.position? layout = some index :=
    position?_eq_some distinct.table placed
  have listed {name : String} {layout : Layout} (found : schema.find? name = some layout) :
      ∃ index, schema.table[index]? = some layout :=
    List.mem_iff_getElem?.mp (ordered.listed _ (mem_entries_of_find? found))
  have backwards : ∀ index layout, schema.table[index]? = some layout → ∀ part ∈ layout.parts,
      ∃ stored < index, schema.position? part = some stored ∧ schema.table[stored]? = some part := by
    intro index layout placed part member
    obtain ⟨stored, less, found⟩ := ordered.sorted.exists_before placed member
    exact ⟨stored, less, place found, found⟩
  refine
    { backwards
      names := distinct.table
      canonical := ?_
      valid := ?_
      contents := exists_settled accepted
      known := ?_
      aliases := ?_
      terminates := ?_ }
  · intro index layout placed
    have known := mem_entries_iff.mpr (.inl ⟨List.mem_iff_getElem?.mpr ⟨index, placed⟩, rfl⟩)
    rw [typeId?, distinct.find?_eq_some_iff.mpr known]
    exact place placed
  · intro name index number
    obtain ⟨layout, found, placed⟩ := Option.bind_eq_some_iff.mp number
    obtain ⟨other, stands⟩ := listed found
    obtain rfl : other = index := Option.some.inj ((place stands).symm.trans placed)
    exact ⟨layout, found, stands⟩
  · intro name
    rw [← exists_entry_iff accepted]
    simp only [typeId?, Option.bind_eq_some_iff, ← distinct.find?_eq_some_iff]
    constructor
    · rintro ⟨-, layout, found, -⟩
      exact ⟨layout, found⟩
    · rintro ⟨layout, found⟩
      obtain ⟨index, placed⟩ := listed found
      exact ⟨index, layout, found, place placed⟩
  · intro name target chain
    induction chain with
    | refl => rfl
    | tail _ declared ih => rw [ih, typeId?, find?_eq_of_alias accepted declared, typeId?]
  · refine Subrelation.wf ?_ Nat.lt_wfRel.wf
    rintro stored index ⟨layout, placed, part, member, found⟩
    obtain ⟨earlier, less, place, -⟩ := backwards index layout placed part member
    obtain rfl := Option.some.inj (place.symm.trans found)
    exact less

theorem sample_schema_indexed : Sample.schema.Indexed Sample.declarations :=
  indexed_of_ofDeclarations Sample.accepted

end Schema

end RecordCodec
