import Mathlib.Logic.Relation
import RecordCodec.Proofs.Schema.WellFormed

/-!
# What names mean

What a name stands for can be said without a table and without an order: a
built-in name that is not declared stands for its scalar, and a declared one for
the layout that is put together from what its references stand for.  An accepted
schema knows exactly what its names mean, and a list of declarations with
distinct names is accepted exactly if each of them means something.  Neither
depends on the order of the declarations or on those that a name does not reach.
-/

namespace RecordCodec

/-- What a name stands for, in whatever order the declarations are written. -/
inductive Means (declarations : List Declaration) : String → Layout → Prop
  | builtIn {name : String} {scalar : Scalar}
      (free : ∀ declaration ∈ declarations, declaration.name ≠ name)
      (member : (name, scalar) ∈ Scalar.builtIns) :
      Means declarations name (.scalar name scalar)
  | declared {declaration : Declaration} {name : String} {parts : List Layout} {layout : Layout}
      (member : declaration ∈ declarations) (named : declaration.name = name)
      (length : declaration.references.length = parts.length)
      (references : ∀ reference part, (reference, part) ∈ declaration.references.zip parts →
        Means declarations reference part)
      (assembled : declaration.assemble parts = .ok layout) :
      Means declarations name layout

namespace Declaration

/-- A name is declared with a reference to another one. -/
def Refers (declarations : List Declaration) (name reference : String) : Prop :=
  ∃ declaration ∈ declarations, declaration.name = name ∧ reference ∈ declaration.references

/-- A name refers to another one through any number of declarations. -/
def Reaches (declarations : List Declaration) : String → String → Prop :=
  Relation.ReflTransGen (Refers declarations)

/-- The declaration is one of those that a name reaches. -/
def Reached (declarations : List Declaration) (name : String) (declaration : Declaration) : Prop :=
  declaration ∈ declarations ∧ Reaches declarations name declaration.name

end Declaration

open Declaration

namespace Means

variable {declarations : List Declaration} {name : String} {layout other : Layout}

theorem unique (distinct : (declarations.map Declaration.name).Nodup)
    (first : Means declarations name layout) (second : Means declarations name other) :
    layout = other := by
  induction first generalizing other with
  | builtIn free member =>
      cases second with
      | builtIn _ memberToo =>
          have same := eq_of_key_eq Schema.builtIns_distinct member memberToo rfl
          rw [(Prod.mk.inj same).2]
      | declared memberToo named => exact absurd named (free _ memberToo)
  | declared member named length _ assembled ih =>
      cases second with
      | builtIn free _ => exact absurd named (free _ member)
      | declared memberToo namedToo lengthToo references assembledToo =>
          obtain rfl := eq_of_key_eq distinct member memberToo (named.trans namedToo.symm)
          have unique : List.Forall₂ (fun reference part =>
              ∀ other, Means declarations reference other → part = other) _ _ :=
            List.forall₂_iff_zip.mpr ⟨length, fun inside _ means => ih _ _ inside means⟩
          have means : List.Forall₂ (Means declarations) _ _ :=
            List.forall₂_iff_zip.mpr ⟨lengthToo, fun inside => references _ _ inside⟩
          obtain rfl := eq_of_forall₂ (fun _ _ other unique means => unique other means) unique means
          exact Except.ok.inj (assembled.symm.trans assembledToo)

/-- What is put together from what the references of a declaration mean is what it means. -/
theorem of_parts {declaration : Declaration} {parts : List Layout}
    (declared : declaration ∈ declarations)
    (references : List.Forall₂ (Means declarations) declaration.references parts)
    (assembled : declaration.assemble parts = .ok layout) :
    Means declarations declaration.name layout := by
  obtain ⟨length, means⟩ := List.forall₂_iff_zip.mp references
  exact .declared declared rfl length (fun _ _ paired => means paired) assembled

/-- A declared name means nothing but what is put together so. -/
theorem exists_parts (distinct : (declarations.map Declaration.name).Nodup)
    {declaration : Declaration} (declared : declaration ∈ declarations)
    (means : Means declarations declaration.name layout) :
    ∃ parts, List.Forall₂ (Means declarations) declaration.references parts ∧
      declaration.assemble parts = .ok layout := by
  cases means with
  | builtIn free _ => exact absurd rfl (free declaration declared)
  | @declared other _ parts _ member named length references assembled =>
      obtain rfl := eq_of_key_eq distinct member declared named
      exact ⟨parts, List.forall₂_iff_zip.mpr ⟨length, fun inside => references _ _ inside⟩,
        assembled⟩

/-- What means something does not refer to itself, not even through others. -/
theorem not_reaches_self (distinct : (declarations.map Declaration.name).Nodup)
    (means : Means declarations name layout) :
    ¬Relation.TransGen (Refers declarations) name name := by
  induction means with
  | builtIn free _ =>
      intro cycle
      obtain ⟨_, ⟨declaration, declared, named, _⟩, _⟩ := Relation.TransGen.head'_iff.mp cycle
      exact free declaration declared named
  | @declared declaration name parts _ member named length _ _ ih =>
      intro cycle
      obtain ⟨reference, refers, back⟩ := Relation.TransGen.head'_iff.mp cycle
      obtain ⟨again, declared, namedToo, among⟩ := refers
      obtain rfl := eq_of_key_eq distinct declared member (namedToo.trans named.symm)
      have paired := List.forall₂_iff_zip.mpr ⟨length, fun inside => ih _ _ inside⟩
      -- The cycle also leads from the reference through the name back to the reference.
      obtain ⟨part, -, acyclic⟩ := exists_mem_of_forall₂ paired among
      exact acyclic (.tail' back ⟨again, declared, namedToo, among⟩)

/-- A name means the same wherever the names that it reaches are declared alike. -/
theorem transfer {others : List Declaration} (means : Means declarations name layout)
    (alike : ∀ declaration, Reaches declarations name declaration.name →
      (declaration ∈ declarations ↔ declaration ∈ others)) : Means others name layout := by
  induction means with
  | builtIn free member =>
      refine .builtIn ?_ member
      rintro declaration declared rfl
      exact free declaration ((alike declaration .refl).mpr declared) rfl
  | @declared declaration name parts _ member named length _ assembled ih =>
      subst named
      refine .declared ((alike declaration .refl).mp member) rfl length ?_ assembled
      intro reference part inside
      refine ih reference part inside fun further reaches => alike further ?_
      exact .head ⟨declaration, member, rfl, (List.of_mem_zip inside).1⟩ reaches

end Means

namespace Schema

/-- The schema knows the built-in names, and nothing but what names mean. -/
structure Sound (declarations : List Declaration) (schema : Schema) : Prop where
  means : ∀ entry ∈ schema.entries, Means declarations entry.1 entry.2
  builtIns : (builtIn declarations).entries ⊆ schema.entries

variable {declarations pending : List Declaration} {schema before after : Schema}

theorem sound_builtIn (declarations : List Declaration) :
    (builtIn declarations).Sound declarations := by
  refine ⟨?_, List.Subset.refl _⟩
  rintro ⟨name, layout⟩ member
  obtain ⟨free, scalar, listed, rfl⟩ := mem_entries_builtIn.mp member
  exact .builtIn free listed

theorem Sound.find?_eq (sound : schema.Sound declarations)
    (distinct : (declarations.map Declaration.name).Nodup) {name : String} {layout other : Layout}
    (means : Means declarations name layout) (found : schema.find? name = some other) :
    other = layout :=
  (sound.means _ (mem_entries_of_find? found)).unique distinct means

/-- Every declaration that a name reaches is pending, unless its name is known already. -/
def Clear (declarations pending : List Declaration) (schema : Schema) (name : String) : Prop :=
  ∀ declaration, Reached declarations name declaration →
    declaration ∈ pending ∨ schema.find? declaration.name ≠ none

theorem Clear.grow {name : String} (clear : Clear declarations pending before name)
    (entries : before.entries ⊆ after.entries) : Clear declarations pending after name := by
  intro declaration reached
  refine (clear declaration reached).imp_right fun known unknown => known ?_
  rw [find?_eq_none_iff] at unknown ⊢
  exact fun entry member => unknown entry (entries member)

end Schema

namespace Settles

open Schema

variable {declarations pending : List Declaration} {names : List String}
  {before between after : Schema} {layouts : List Layout}

/-- Looking up names keeps what the schema knows in accordance with what names mean. -/
theorem sound (settles : Settles pending names before layouts after)
    (among : pending ⊆ declarations) (starts : before.Sound declarations) :
    after.Sound declarations := by
  refine ⟨settles.entries_hold ?_ among starts.means,
    List.Subset.trans starts.builtIns settles.grows.entries⟩
  exact fun declaration declared parts layout => Means.of_parts declared

theorem cons {name : String} {layout : Layout}
    (first : Settles pending [name] before [layout] between)
    (rest : Settles pending names between layouts after) :
    Settles pending (name :: names) before (layout :: layouts) after := by
  cases first with
  | known found done =>
      cases done
      exact .known found rest
  | declared unknown selected references assembled done =>
      cases done
      exact .declared unknown selected references assembled rest

/-- Names that can each be looked up from whatever the schema has come to know
can be looked up in turn. -/
theorem all (among : pending ⊆ declarations)
    (each : List.Forall₂ (fun name layout => ∀ before, before.Sound declarations →
      Clear declarations pending before name →
        ∃ after, Settles pending [name] before [layout] after) names layouts)
    (starts : before.Sound declarations)
    (clear : ∀ name ∈ names, Clear declarations pending before name) :
    ∃ after, Settles pending names before layouts after := by
  induction each generalizing before with
  | nil => exact ⟨before, .nil⟩
  | cons first _ ih =>
      obtain ⟨between, first⟩ := first before starts (clear _ List.mem_cons_self)
      obtain ⟨after, rest⟩ := ih (first.sound among starts) fun name member =>
        (clear name (List.mem_cons_of_mem _ member)).grow first.grows.entries
      exact ⟨after, first.cons rest⟩

end Settles

/-- The references of a name that means something reach the open declarations no more
than the name does. -/
theorem Means.clear_reference {declarations pending : List Declaration} {schema : Schema}
    (distinct : (declarations.map Declaration.name).Nodup) {name reference : String}
    {layout : Layout} (means : Means declarations name layout)
    (clear : Schema.Clear declarations pending schema name)
    (refers : Refers declarations name reference) :
    Schema.Clear declarations (others name pending) schema reference := by
  rintro declaration ⟨declared, reaches⟩
  refine (clear declaration ⟨declared, .head refers reaches⟩).imp_left fun isPending => ?_
  refine List.mem_filter.mpr ⟨isPending, bne_iff_ne.mpr fun same => ?_⟩
  rw [same] at reaches
  exact means.not_reaches_self distinct (.head' refers reaches)

/-- A name that means something is looked up, unless it reaches an open declaration. -/
theorem Means.settles {declarations : List Declaration}
    (distinct : (declarations.map Declaration.name).Nodup) {name : String} {layout : Layout}
    (means : Means declarations name layout) {pending : List Declaration}
    (among : pending.Sublist declarations) (before : Schema) (sound : before.Sound declarations)
    (clear : Schema.Clear declarations pending before name) :
    ∃ after, Settles pending [name] before [layout] after := by
  -- The induction follows what names mean, while the set of pending declarations shrinks.
  induction means generalizing pending before with
  | @builtIn name scalar free member =>
      have entry := sound.builtIns (Schema.mem_entries_builtIn.mpr ⟨free, scalar, member, rfl⟩)
      cases found : before.find? name with
      | none => exact absurd rfl (Schema.find?_eq_none_iff.mp found _ entry)
      | some other =>
          rw [sound.find?_eq distinct (.builtIn free member) found] at found
          exact ⟨before, .known found .nil⟩
  | @declared declaration name parts layout member named length references assembled ih =>
      have means := Means.declared member named length references assembled
      cases found : before.find? name with
      | some other =>
          rw [sound.find?_eq distinct means found] at found
          exact ⟨before, .known found .nil⟩
      | none =>
          subst named
          have isPending : declaration ∈ pending :=
            (clear declaration ⟨member, .refl⟩).resolve_right fun known => known found
          have selected : pending.find? (fun other => other.name == declaration.name) =
              some declaration :=
            (find?_key_eq_some (distinct.sublist (among.map _))).mpr ⟨isPending, rfl⟩
          have inside : (others declaration.name pending).Sublist declarations :=
            List.filter_sublist.trans among
          have each := List.forall₂_iff_zip.mpr ⟨length, fun paired => ih _ _ paired inside⟩
          obtain ⟨between, looked⟩ := Settles.all inside.subset each sound fun reference refers =>
            means.clear_reference distinct clear ⟨declaration, member, rfl, refers⟩
          exact ⟨_, .declared found selected looked assembled .nil⟩

namespace Schema

variable {declarations : List Declaration} {schema : Schema}

theorem sound_of_ofDeclarations (accepted : ofDeclarations declarations = .ok schema) :
    schema.Sound declarations := by
  obtain ⟨-, layouts, settles⟩ := ofDeclarations_eq_ok_iff.mp accepted
  exact settles.sound (List.Subset.refl _) (sound_builtIn declarations)

/-- A list of declarations is accepted exactly if their names are distinct and each means
something. -/
theorem exists_ofDeclarations_iff :
    (∃ schema, ofDeclarations declarations = .ok schema) ↔
      (declarations.map Declaration.name).Nodup ∧
        ∀ declaration ∈ declarations, ∃ layout, Means declarations declaration.name layout := by
  constructor
  · rintro ⟨schema, accepted⟩
    refine ⟨(ofDeclarations_eq_ok_iff.mp accepted).1, fun declaration declared => ?_⟩
    obtain ⟨layout, known⟩ := exists_entry_of_mem accepted declared
    exact ⟨layout, (sound_of_ofDeclarations accepted).means _ known⟩
  · rintro ⟨distinct, means⟩
    obtain ⟨layouts, each⟩ := exists_forall₂_iff.mpr (List.forall_mem_map.mpr means)
    have settles := each.imp fun _ _ means => means.settles distinct (List.Sublist.refl _)
    obtain ⟨schema, settled⟩ := Settles.all (List.Subset.refl _) settles
      (sound_builtIn declarations) fun _ _ declaration reached => .inl reached.1
    exact ⟨schema, ofDeclarations_eq_ok_iff.mpr ⟨distinct, layouts, settled⟩⟩

/-- An accepted schema knows a name exactly as what it means. -/
theorem find?_eq_some_iff_means (accepted : ofDeclarations declarations = .ok schema)
    {name : String} {layout : Layout} :
    schema.find? name = some layout ↔ Means declarations name layout := by
  have sound := sound_of_ofDeclarations accepted
  constructor
  · exact fun found => sound.means _ (mem_entries_of_find? found)
  · intro means
    have known : ∃ layout, (name, layout) ∈ schema.entries := by
      cases means with
      | builtIn free member =>
          exact ⟨_, sound.builtIns (mem_entries_builtIn.mpr ⟨free, _, member, rfl⟩)⟩
      | declared member named =>
          subst named
          exact exists_entry_of_mem accepted member
    obtain ⟨other, known⟩ := known
    have distinct := (ofDeclarations_eq_ok_iff.mp accepted).1
    obtain rfl : other = layout := (sound.means _ known).unique distinct means
    exact (distinct_of_ofDeclarations accepted).find?_eq_some_iff.mpr known

/-- What an accepted schema knows a declared name as is put together from what its references
mean. -/
theorem exists_find?_of_mem (accepted : ofDeclarations declarations = .ok schema)
    {declaration : Declaration} (declared : declaration ∈ declarations) :
    ∃ layout parts, schema.find? declaration.name = some layout ∧
      List.Forall₂ (Means declarations) declaration.references parts ∧
        declaration.assemble parts = .ok layout := by
  obtain ⟨distinct, means⟩ := exists_ofDeclarations_iff.mp ⟨schema, accepted⟩
  obtain ⟨layout, means⟩ := means declaration declared
  obtain ⟨parts, references, assembled⟩ := means.exists_parts distinct declared
  exact ⟨layout, parts, (find?_eq_some_iff_means accepted).mpr means, references, assembled⟩

end Schema

namespace Declaration

variable {first second : List Declaration} {name : String}

theorem reaches_of_reached_iff
    (same : ∀ declaration, Reached first name declaration ↔ Reached second name declaration)
    {other : String} (reaches : Reaches first name other) : Reaches second name other := by
  induction reaches with
  | refl => exact .refl
  | tail reaches refers ih =>
      obtain ⟨declaration, declared, rfl, among⟩ := refers
      have reached := (same declaration).mp ⟨declared, reaches⟩
      exact ih.tail ⟨declaration, reached.1, rfl, among⟩

/-- Where a name reaches the same declarations, the names that it reaches are declared alike. -/
theorem mem_iff_of_reached_iff
    (same : ∀ declaration, Reached first name declaration ↔ Reached second name declaration)
    {declaration : Declaration} (reaches : Reaches first name declaration.name) :
    declaration ∈ first ↔ declaration ∈ second := by
  constructor
  · exact fun declared => ((same declaration).mp ⟨declared, reaches⟩).1
  · exact fun declared =>
      ((same declaration).mpr ⟨declared, reaches_of_reached_iff same reaches⟩).1

end Declaration

namespace Schema

theorem exists_ofDeclarations_of_perm {first second : List Declaration}
    (perm : first.Perm second) (accepted : ∃ schema, ofDeclarations first = .ok schema) :
    ∃ schema, ofDeclarations second = .ok schema := by
  rw [exists_ofDeclarations_iff] at accepted ⊢
  obtain ⟨distinct, means⟩ := accepted
  refine ⟨(perm.map Declaration.name).nodup_iff.mp distinct, fun declaration declared => ?_⟩
  obtain ⟨layout, means⟩ := means declaration (perm.mem_iff.mpr declared)
  exact ⟨layout, means.transfer fun _ _ => perm.mem_iff⟩

/-- Neither the order of the declarations matters nor any that a name does not reach. -/
theorem resolution_independent_of_order {first second : List Declaration} :
    (first.Perm second →
      ((∃ schema, ofDeclarations first = .ok schema) ↔
        ∃ schema, ofDeclarations second = .ok schema)) ∧
    ∀ firstSchema secondSchema name, ofDeclarations first = .ok firstSchema →
      ofDeclarations second = .ok secondSchema →
      (∀ declaration, Reached first name declaration ↔ Reached second name declaration) →
        firstSchema.find? name = secondSchema.find? name := by
  constructor
  · intro perm
    exact ⟨exists_ofDeclarations_of_perm perm, exists_ofDeclarations_of_perm perm.symm⟩
  · intro firstSchema secondSchema name acceptedFirst acceptedSecond same
    ext layout
    rw [find?_eq_some_iff_means acceptedFirst, find?_eq_some_iff_means acceptedSecond]
    constructor
    · exact fun means => means.transfer fun _ => mem_iff_of_reached_iff same
    · exact fun means => means.transfer fun _ => mem_iff_of_reached_iff fun declaration =>
        (same declaration).symm

end Schema

/-- A declaration that no other one refers to is reached from no other name. -/
theorem Declaration.reached_iff_of_unreferenced {first second : List Declaration}
    {extra : Declaration} (members : ∀ declaration, declaration ∈ second ↔
      declaration = extra ∨ declaration ∈ first)
    (unreferenced : ∀ declaration ∈ first, extra.name ∉ declaration.references) {name : String}
    (differs : name ≠ extra.name) (declaration : Declaration) :
    Reached first name declaration ↔ Reached second name declaration := by
  have avoids {other : String} (reaches : Reaches second name other) :
      other ≠ extra.name ∧ Reaches first name other := by
    induction reaches with
    | refl => exact ⟨differs, .refl⟩
    | tail _ refers ih =>
        obtain ⟨declaration, declared, rfl, among⟩ := refers
        rcases (members declaration).mp declared with rfl | declared
        · exact absurd rfl ih.1
        · refine ⟨?_, ih.2.tail ⟨declaration, declared, rfl, among⟩⟩
          rintro rfl
          exact unreferenced declaration declared among
  constructor
  · rintro ⟨declared, reaches⟩
    refine ⟨(members declaration).mpr (.inr declared), Relation.ReflTransGen.mono ?_ _ _ reaches⟩
    rintro name reference ⟨declaration, declared, refers⟩
    exact ⟨declaration, (members declaration).mpr (.inr declared), refers⟩
  · rintro ⟨declared, reaches⟩
    obtain ⟨differs, reaches⟩ := avoids reaches
    rcases (members declaration).mp declared with rfl | declared
    · exact absurd rfl differs
    · exact ⟨declared, reaches⟩

namespace Sample

/-- The declarations in the opposite order, and an alias that none of them refers to. -/
def extended : List Declaration :=
  .alias "Size" "u16" :: declarations.reverse

def extendedSchema : Schema :=
  (Schema.ofDeclarations extended).toOption.getD ⟨[], []⟩

theorem extended_accepted : Schema.ofDeclarations extended = .ok extendedSchema :=
  eq_ok_getD (by decide +kernel) _

theorem reached_extended (declaration : Declaration) :
    Reached declarations "Message" declaration ↔ Reached extended "Message" declaration := by
  have members (other : Declaration) :
      other ∈ extended ↔ other = .alias "Size" "u16" ∨ other ∈ declarations := by
    simp [extended]
  exact reached_iff_of_unreferenced members (by decide) (by decide) declaration

end Sample

namespace Schema

theorem sample_message_found_in_any_order :
    (∃ schema, ofDeclarations Sample.declarations.reverse = .ok schema) ∧
      Sample.extendedSchema.find? "Message" = some Sample.layout := by
  constructor
  · have perm := (List.reverse_perm Sample.declarations).symm
    exact (resolution_independent_of_order.1 perm).mp ⟨Sample.schema, Sample.accepted⟩
  · rw [← Sample.found]
    exact (resolution_independent_of_order.2 _ _ "Message" Sample.accepted Sample.extended_accepted
      Sample.reached_extended).symm

end Schema

end RecordCodec
