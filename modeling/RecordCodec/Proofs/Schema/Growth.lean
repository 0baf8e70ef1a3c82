import RecordCodec.Proofs.Schema.Assembled
import RecordCodec.Proofs.Schema.Settling

/-!
# How a schema grows

While names are looked up, the schema only grows: its table and its further
names keep what they have, and every new name is that of a declaration that
was pending.  An open declaration is not pending, so that no name is entered
twice, and whatever has been looked up stays known.
-/

namespace RecordCodec

namespace Schema

variable {schema before between after : Schema} {name : String} {layout : Layout}

/-- All names that a schema knows, with their layouts. -/
def entries (schema : Schema) : List (String × Layout) :=
  schema.table.map (fun layout => (layout.name, layout)) ++ schema.aliases

theorem mem_entries_iff :
    (name, layout) ∈ schema.entries ↔
      (layout ∈ schema.table ∧ layout.name = name) ∨ (name, layout) ∈ schema.aliases := by
  simp only [entries, List.mem_append, List.mem_map, Prod.mk.injEq]
  constructor
  · rintro (⟨listed, member, rfl, rfl⟩ | renamed)
    · exact .inl ⟨member, rfl⟩
    · exact .inr renamed
  · rintro (⟨member, rfl⟩ | renamed)
    · exact .inl ⟨layout, member, rfl, rfl⟩
    · exact .inr renamed

theorem find?_eq_lookup : schema.find? name = schema.entries.lookup name := by
  rw [find?, entries, List.lookup_append]
  congr 1
  induction schema.table with
  | nil => rfl
  | cons first rest ih =>
      rw [List.map_cons, List.find?_cons, List.lookup_cons, ih, BEq.comm]

theorem find?_eq_none_iff :
    schema.find? name = none ↔ ∀ entry ∈ schema.entries, entry.1 ≠ name := by
  rw [find?_eq_lookup, List.lookup_eq_none_iff]
  simp only [bne_iff_ne, ne_comm]

theorem mem_entries_of_find? (found : schema.find? name = some layout) :
    (name, layout) ∈ schema.entries := by
  rw [find?_eq_lookup, List.lookup_eq_some_iff] at found
  obtain ⟨front, back, split, -⟩ := found
  simp [split]

/-- No name is entered twice. -/
def Distinct (schema : Schema) : Prop :=
  (schema.entries.map Prod.fst).Nodup

theorem Distinct.find?_eq_some_iff (distinct : schema.Distinct) :
    schema.find? name = some layout ↔ (name, layout) ∈ schema.entries := by
  refine ⟨mem_entries_of_find?, fun member => ?_⟩
  cases found : schema.find? name with
  | none => exact absurd rfl (find?_eq_none_iff.mp found _ member)
  | some other =>
      have same := eq_of_key_eq distinct (mem_entries_of_find? found) member rfl
      exact congrArg (fun entry => some entry.2) same

theorem Distinct.find?_of_mem (distinct : schema.Distinct) (member : layout ∈ schema.table) :
    schema.find? layout.name = some layout :=
  distinct.find?_eq_some_iff.mpr (mem_entries_iff.mpr (.inl ⟨member, rfl⟩))

theorem Distinct.table (distinct : schema.Distinct) : (schema.table.map Layout.name).Nodup := by
  rw [Distinct, entries, List.map_append, List.map_map] at distinct
  exact (List.nodup_append.mp distinct).1

theorem enter_eq_addLayout {declaration : Declaration} (named : declaration.isAlias = false) :
    schema.enter declaration layout = schema.addLayout layout := by
  match declaration with
  | .alias _ _ => cases named
  | .primitive _ _ | .enumeration _ _ _ _ | .record _ _ _ | .union _ _ _ _ => rfl

/-- Entering a declaration adds its name with its layout. -/
theorem entries_enter {declaration : Declaration} {parts : List Layout}
    (assembled : declaration.assemble parts = .ok layout) :
    (schema.enter declaration layout).entries.Perm
      ((declaration.name, layout) :: schema.entries) := by
  cases isAlias : declaration.isAlias with
  | true =>
      match declaration with
      | .alias name target =>
          simp only [enter, addAlias, entries, ← List.append_assoc]
          exact List.perm_append_singleton _ _
  | false =>
      rw [enter_eq_addLayout isAlias, ← Declaration.name_assemble isAlias assembled]
      simp only [addLayout, entries, List.map_append, List.map_cons, List.map_nil,
        List.append_assoc]
      exact List.perm_middle

/-- A schema keeps what it knows, and comes to know names of pending declarations. -/
structure Grows (pending : List Declaration) (before after : Schema) : Prop where
  table : before.table <+: after.table
  aliases : before.aliases <+: after.aliases
  /-- The new layouts of the table are declared as such. -/
  newLayouts : ∀ layout ∈ after.table, layout ∈ before.table ∨
    ∃ declaration ∈ pending, declaration.isAlias = false ∧ declaration.name = layout.name
  /-- The new further names are declared as such. -/
  newAliases : ∀ entry ∈ after.aliases, entry ∈ before.aliases ∨
    ∃ declaration ∈ pending, declaration.isAlias = true ∧ declaration.name = entry.1

namespace Grows

variable {pending : List Declaration}

theorem refl (schema : Schema) : Grows pending schema schema :=
  ⟨List.prefix_refl _, List.prefix_refl _, fun _ => .inl, fun _ => .inl⟩

theorem trans (first : Grows pending before between) (second : Grows pending between after) :
    Grows pending before after := by
  refine ⟨first.table.trans second.table, first.aliases.trans second.aliases, ?_, ?_⟩
  · intro layout member
    exact (second.newLayouts layout member).elim (first.newLayouts layout) .inr
  · intro entry member
    exact (second.newAliases entry member).elim (first.newAliases entry) .inr

theorem widen {fewer : List Declaration} (grows : Grows fewer before after)
    (among : fewer ⊆ pending) : Grows pending before after := by
  refine ⟨grows.table, grows.aliases, ?_, ?_⟩
  · intro layout member
    exact (grows.newLayouts layout member).imp_right
      fun ⟨declaration, declared, new⟩ => ⟨declaration, among declared, new⟩
  · intro entry member
    exact (grows.newAliases entry member).imp_right
      fun ⟨declaration, declared, new⟩ => ⟨declaration, among declared, new⟩

theorem entries (grows : Grows pending before after) : before.entries ⊆ after.entries := by
  rintro ⟨name, layout⟩ member
  rw [mem_entries_iff] at member ⊢
  exact member.imp (fun listed => ⟨grows.table.subset listed.1, listed.2⟩)
    (fun renamed => grows.aliases.subset renamed)

theorem new (grows : Grows pending before after) {entry : String × Layout}
    (member : entry ∈ after.entries) :
    entry ∈ before.entries ∨ ∃ declaration ∈ pending, declaration.name = entry.1 := by
  obtain ⟨name, layout⟩ := entry
  rw [mem_entries_iff] at member ⊢
  rcases member with ⟨listed, rfl⟩ | renamed
  · rcases grows.newLayouts layout listed with old | ⟨declaration, declared, -, named⟩
    · exact .inl (.inl ⟨old, rfl⟩)
    · exact .inr ⟨declaration, declared, named⟩
  · rcases grows.newAliases _ renamed with old | ⟨declaration, declared, -, named⟩
    · exact .inl (.inr old)
    · exact .inr ⟨declaration, declared, named⟩

theorem enter {declaration : Declaration} {parts : List Layout}
    (among : declaration ∈ pending) (assembled : declaration.assemble parts = .ok layout) :
    Grows pending schema (schema.enter declaration layout) := by
  cases isAlias : declaration.isAlias with
  | true =>
      match declaration with
      | .alias name target =>
          refine ⟨List.prefix_refl _, List.prefix_append _ _, fun _ => .inl, ?_⟩
          intro entry member
          rcases List.mem_append.mp member with old | new
          · exact .inl old
          · obtain rfl := List.mem_singleton.mp new
            exact .inr ⟨_, among, rfl, rfl⟩
  | false =>
      rw [enter_eq_addLayout isAlias]
      refine ⟨List.prefix_append _ _, List.prefix_refl _, ?_, fun _ => .inl⟩
      intro other member
      rcases List.mem_append.mp member with old | new
      · exact .inl old
      · obtain rfl := List.mem_singleton.mp new
        exact .inr ⟨_, among, isAlias, (Declaration.name_assemble isAlias assembled).symm⟩

end Grows

end Schema

theorem Declaration.others_subset (name : String) (declarations : List Declaration) :
    others name declarations ⊆ declarations :=
  fun _ member => (List.mem_filter.mp member).1

namespace Settles

open Declaration Schema

variable {pending : List Declaration} {names : List String} {before after : Schema}
  {layouts : List Layout}

theorem grows (settles : Settles pending names before layouts after) :
    Grows pending before after := by
  induction settles with
  | nil => exact .refl _
  | known _ _ ih => exact ih
  | declared _ selected _ assembled _ references rest =>
      refine ((references.widen (others_subset _ _)).trans ?_).trans rest
      exact Grows.enter (List.mem_of_find?_eq_some selected) assembled

/-- What has been looked up is known afterwards. -/
theorem found (settles : Settles pending names before layouts after) :
    List.Forall₂ (fun name layout => (name, layout) ∈ after.entries) names layouts := by
  induction settles with
  | nil => exact .nil
  | known found rest ih => exact .cons (rest.grows.entries (mem_entries_of_find? found)) ih
  | declared _ selected _ assembled rest _ ih =>
      refine .cons (rest.grows.entries ?_) ih
      have named := List.find?_some selected
      rw [beq_iff_eq] at named
      rw [(entries_enter assembled).mem_iff, named]
      exact List.mem_cons_self

theorem distinct (settles : Settles pending names before layouts after)
    (starts : before.Distinct) : after.Distinct := by
  induction settles with
  | nil => exact starts
  | known _ _ ih => exact ih starts
  | @declared pending declaration name _ before between _ layout _ _ unknown selected inside
      assembled _ references rest =>
      apply rest
      have named := List.find?_some selected
      rw [beq_iff_eq] at named
      rw [Distinct, ((entries_enter assembled).map Prod.fst).nodup_iff, List.map_cons,
        List.nodup_cons]
      refine ⟨?_, references starts⟩
      -- The declaration is open while its references are looked up, and thus stays unknown.
      rintro entered
      obtain ⟨entry, member, same⟩ := List.mem_map.mp entered
      rcases inside.grows.new member with old | ⟨other, among, sameName⟩
      · exact find?_eq_none_iff.mp unknown entry old (same.trans named)
      · have differs := (List.mem_filter.mp among).2
        simp [sameName, same, named] at differs

/-- What holds of a layout that is put together where it holds of the references
holds of all that the schema comes to know. -/
theorem entries_hold {declarations : List Declaration} {holds : String → Layout → Prop}
    (assembled : ∀ declaration ∈ declarations, ∀ parts layout,
      List.Forall₂ holds declaration.references parts →
        declaration.assemble parts = .ok layout → holds declaration.name layout)
    (settles : Settles pending names before layouts after) (among : pending ⊆ declarations)
    (starts : ∀ entry ∈ before.entries, holds entry.1 entry.2) :
    ∀ entry ∈ after.entries, holds entry.1 entry.2 := by
  induction settles with
  | nil => exact starts
  | known _ _ ih => exact ih among starts
  | declared _ selected inside made _ references rest =>
      apply rest among
      have known := references (List.Subset.trans (others_subset _ _) among) starts
      have parts := inside.found.imp fun _ _ member => known _ member
      intro entry member
      rcases List.mem_cons.mp ((entries_enter made).mem_iff.mp member) with rfl | old
      · exact assembled _ (among (List.mem_of_find?_eq_some selected)) _ _ parts made
      · exact known entry old

end Settles

namespace Schema

variable {declarations : List Declaration}

theorem mem_entries_builtIn {name : String} {layout : Layout} :
    (name, layout) ∈ (builtIn declarations).entries ↔
      (∀ declaration ∈ declarations, declaration.name ≠ name) ∧
        ∃ scalar, (name, scalar) ∈ Scalar.builtIns ∧ layout = .scalar name scalar := by
  simp only [mem_entries_iff, builtIn, List.not_mem_nil, or_false, List.mem_map, List.mem_filter,
    Bool.not_eq_true', List.any_eq_false, beq_iff_eq, Prod.exists]
  constructor
  · rintro ⟨⟨_, scalar, ⟨member, free⟩, rfl⟩, rfl⟩
    exact ⟨free, scalar, member, rfl⟩
  · rintro ⟨free, scalar, member, rfl⟩
    exact ⟨⟨name, scalar, ⟨member, free⟩, rfl⟩, rfl⟩

theorem builtIns_distinct : (Scalar.builtIns.map Prod.fst).Nodup := by decide

theorem distinct_builtIn (declarations : List Declaration) : (builtIn declarations).Distinct := by
  rw [Distinct, entries, builtIn, List.append_nil, List.map_map, List.map_map]
  exact builtIns_distinct.sublist (List.filter_sublist.map Prod.fst)

section Accepted

variable {schema : Schema} (accepted : ofDeclarations declarations = .ok schema)

include accepted

theorem grows_of_ofDeclarations : Grows declarations (builtIn declarations) schema := by
  obtain ⟨-, layouts, settles⟩ := ofDeclarations_eq_ok_iff.mp accepted
  exact settles.grows

theorem distinct_of_ofDeclarations : schema.Distinct := by
  obtain ⟨-, layouts, settles⟩ := ofDeclarations_eq_ok_iff.mp accepted
  exact settles.distinct (distinct_builtIn declarations)

/-- What holds of the built-in types and of whatever is put together from layouts of
which it holds does so for all names of an accepted schema. -/
theorem holds_of_find? (holds : String → Layout → Prop)
    (builtIns : ∀ entry ∈ (builtIn declarations).entries, holds entry.1 entry.2)
    (assembled : ∀ declaration ∈ declarations, ∀ parts layout,
      List.Forall₂ holds declaration.references parts →
        declaration.assemble parts = .ok layout → holds declaration.name layout)
    {name : String} {layout : Layout} (found : schema.find? name = some layout) :
    holds name layout := by
  obtain ⟨-, layouts, settles⟩ := ofDeclarations_eq_ok_iff.mp accepted
  exact settles.entries_hold assembled (List.Subset.refl _) builtIns _ (mem_entries_of_find? found)

/-- Every type besides scalars is put together from a declaration that is no alias. -/
theorem exists_assembled_of_find? {name : String} {layout : Layout}
    (found : schema.find? name = some layout) :
    (∃ name scalar, layout = .scalar name scalar) ∨
      ∃ declaration ∈ declarations, declaration.isAlias = false ∧
        ∃ parts, declaration.assemble parts = .ok layout := by
  refine holds_of_find? accepted (fun _ layout =>
    (∃ name scalar, layout = .scalar name scalar) ∨
      ∃ declaration ∈ declarations, declaration.isAlias = false ∧
        ∃ parts, declaration.assemble parts = .ok layout) ?_ ?_ found
  · rintro ⟨name, layout⟩ member
    obtain ⟨-, scalar, -, rfl⟩ := mem_entries_builtIn.mp member
    exact .inl ⟨name, scalar, rfl⟩
  · intro declaration declared parts layout references assembled
    match declaration with
    | .alias name target =>
        obtain ⟨_, -, holds⟩ := exists_mem_of_forall₂ references.flip
          (Declaration.mem_of_onlyReference assembled)
        exact holds
    | .primitive _ _ | .enumeration _ _ _ _ | .record _ _ _ | .union _ _ _ _ =>
        exact .inr ⟨_, declared, rfl, parts, assembled⟩

theorem exists_entry_of_mem {declaration : Declaration} (declared : declaration ∈ declarations) :
    ∃ layout, (declaration.name, layout) ∈ schema.entries := by
  obtain ⟨-, layouts, settles⟩ := ofDeclarations_eq_ok_iff.mp accepted
  obtain ⟨layout, -, known⟩ := exists_mem_of_forall₂ settles.found (List.mem_map_of_mem declared)
  exact ⟨layout, known⟩

theorem exists_entry_iff {name : String} :
    (∃ layout, (name, layout) ∈ schema.entries) ↔
      (∃ declaration ∈ declarations, declaration.name = name) ∨
        ∃ scalar, (name, scalar) ∈ Scalar.builtIns := by
  constructor
  · rintro ⟨layout, known⟩
    rcases (grows_of_ofDeclarations accepted).new known with builtIn | declared
    · obtain ⟨-, scalar, member, -⟩ := mem_entries_builtIn.mp builtIn
      exact .inr ⟨scalar, member⟩
    · exact .inl declared
  · rintro (⟨declaration, declared, rfl⟩ | ⟨scalar, member⟩)
    · exact exists_entry_of_mem accepted declared
    · by_cases declared : ∃ declaration ∈ declarations, declaration.name = name
      · obtain ⟨declaration, declared, rfl⟩ := declared
        exact exists_entry_of_mem accepted declared
      · have free : ∀ declaration ∈ declarations, declaration.name ≠ name := by
          simpa using declared
        have entry := mem_entries_builtIn.mpr ⟨free, scalar, member, rfl⟩
        exact ⟨_, (grows_of_ofDeclarations accepted).entries entry⟩

end Accepted

end Schema

end RecordCodec
