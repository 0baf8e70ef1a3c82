import RecordCodec.Proofs.Layout.WellFormed
import RecordCodec.Proofs.Schema.Assembly

/-!
# Assembled layouts

What a layout is like that is put together from the layouts of the references
of a declaration.  It bears the declared name unless it is that of an alias,
and it is well-formed where the references are: each way of building it keeps
its constants distinct, its fields in a row and its variants in accordance with
the tag.
-/

namespace RecordCodec

namespace ConstantSet

theorem add_eq_ok_iff {set extended : ConstantSet} {name : String} {value : UInt64} :
    set.add name value = .ok extended ↔
      value.toNat < 256 ^ set.width.bytes ∧
        (∀ constant ∈ set.constants, constant.name ≠ name ∧ constant.value ≠ value) ∧
        { set with constants := set.constants ++ [⟨name, value⟩] } = extended := by
  unfold ConstantSet.add
  split
  · rename_i tooLarge
    simp [Nat.not_lt.mpr tooLarge]
  · rename_i inRange
    split
    · rename_i taken
      simp only [reduceCtorEq, false_iff, not_and]
      intro _ free
      obtain ⟨constant, member, same⟩ := List.any_eq_true.mp taken
      simp [free constant member] at same
    · rename_i fresh
      simp only [List.any_eq_true, Bool.or_eq_true, beq_iff_eq, not_exists, not_and,
        not_or] at fresh
      simpa [Nat.lt_of_not_le inRange] using fun _ => fresh

theorem WellFormed.add {set extended : ConstantSet} {name : String} {value : UInt64}
    (wellFormed : set.WellFormed) (added : set.add name value = .ok extended) :
    extended.WellFormed := by
  obtain ⟨inRange, fresh, rfl⟩ := add_eq_ok_iff.mp added
  refine ⟨?_, ?_, ?_⟩
  · rw [List.map_append, List.nodup_append]
    refine ⟨wellFormed.names, by simp, ?_⟩
    simpa using fun constant member => (fresh constant member).1
  · rw [List.map_append, List.nodup_append]
    refine ⟨wellFormed.values, by simp, ?_⟩
    simpa using fun constant member => (fresh constant member).2
  · intro constant member
    rcases List.mem_append.mp member with old | new
    · exact wellFormed.fits constant old
    · obtain rfl := List.mem_singleton.mp new
      exact inRange

/-- The constants of an accepted enumeration are the declared ones, in their order. -/
theorem ofDeclaration_spec {name underlyingName : String} {underlying : Layout}
    {constants : List (String × UInt64)} {set : ConstantSet}
    (declared : ofDeclaration name underlyingName underlying constants = .ok set) :
    set.name = name ∧ set.constants = constants.map (fun constant => ⟨constant.1, constant.2⟩) ∧
      set.WellFormed := by
  unfold ofDeclaration at declared
  split at declared
  · refine foldlM_keeps (fun passed set => set.name = name ∧
      set.constants = passed.map (fun constant => ⟨constant.1, constant.2⟩) ∧ set.WellFormed)
      declared ?_ ?_
    · exact ⟨rfl, rfl, by simp, by simp, by simp⟩
    · rintro passed before constant after - ⟨named, same, wellFormed⟩ added
      have distinct := wellFormed.add added
      obtain ⟨-, -, rfl⟩ := add_eq_ok_iff.mp added
      exact ⟨named, by simp [same], distinct⟩
  · cases declared

end ConstantSet

theorem FieldLayout.Tile.append {fields : List FieldLayout} {start stop : Nat}
    {field : FieldLayout} (tile : FieldLayout.Tile fields start stop)
    (offset : field.offset = stop)
    (length : field.length = field.element.slotLength * field.count.getD 1) :
    FieldLayout.Tile (fields ++ [field]) start (stop + field.length) := by
  induction fields generalizing start with
  | nil =>
      obtain rfl : start = stop := tile
      exact ⟨offset, length, rfl⟩
  | cons first rest ih => exact ⟨tile.1, tile.2.1, ih tile.2.2⟩

namespace RecordLayout

/-- A record is extended by a field with a free name, right behind the others and
as long as its elements. -/
theorem extend_spec {record extended : RecordLayout} {field : FieldDeclaration × Layout}
    (added : record.extend field = .ok extended) :
    record.hasField field.1.name = false ∧ extended.length ≤ layoutLimit ∧
      ∃ last : FieldLayout, last.name = field.1.name ∧ last.element = field.2 ∧
        last.offset = record.length ∧
        last.length = last.element.slotLength * last.count.getD 1 ∧
        extended = ⟨record.name, record.fields ++ [last], record.length + last.length⟩ := by
  unfold extend at added
  split at added
  · cases added
  · rename_i fresh
    simp only [append] at added
    split at added
    · rename_i bounded
      obtain rfl := Except.ok.inj added
      exact ⟨by simpa using fresh, bounded, _, rfl, rfl, rfl, rfl, rfl⟩
    · cases added

theorem Tiled.extend {record extended : RecordLayout} {field : FieldDeclaration × Layout}
    (tiled : record.Tiled) (added : record.extend field = .ok extended) : extended.Tiled := by
  obtain ⟨fresh, bounded, last, named, -, offset, length, rfl⟩ := extend_spec added
  refine ⟨?_, tiled.tile.append offset length, bounded⟩
  rw [List.map_append, List.nodup_append]
  refine ⟨tiled.names, by simp, ?_⟩
  simpa [hasField, named] using fresh

end RecordLayout

/-- All members of a union have the tag that they agree on, and there is a member. -/
theorem locate_of_commonTag {union : String} {path : List String} {members : List ResolvedMember}
    {found : ConstantSet × Nat} (common : commonTag union path members = .ok (some found)) :
    members ≠ [] ∧ ∀ member ∈ members, member.record.locate path = .ok found := by
  have kept := foldlM_keeps (fun passed common =>
    match common with
    | none => passed = []
    | some found => passed ≠ [] ∧ ∀ member ∈ passed, member.record.locate path = .ok found)
    common rfl ?_
  · exact kept
  · intro passed before member after _ sofar stepped
    split at stepped
    · cases stepped
    · rename_i found located
      split at stepped
      · rename_i agrees
        obtain rfl := Except.ok.inj stepped
        refine ⟨by simp, ?_⟩
        intro other among
        rcases List.mem_append.mp among with old | last
        · cases before with
          | none =>
              rw [sofar] at old
              cases old
          | some earlier =>
              obtain rfl : earlier = found := by simpa using agrees
              exact sofar.2 other old
        · obtain rfl := List.mem_singleton.mp last
          exact located
      · cases stepped

namespace UnionLayout

/-- What adding members one by one has made of an empty union. -/
structure Gathers (start : UnionLayout) (members : List ResolvedMember)
    (union : UnionLayout) : Prop where
  name : union.name = start.name
  discriminator : union.discriminator = start.discriminator
  discriminant : union.discriminant = start.discriminant
  names : union.variants.map VariantLayout.name = members.map fun member => member.declaration.tag
  selected : ∀ variant ∈ union.variants, ⟨variant.name, variant.tag⟩ ∈ start.tags.constants
  distinct : (union.variants.map VariantLayout.tag).Nodup
  members : ∀ variant ∈ union.variants, ∃ member ∈ members, variant.member = .record member.record

theorem Gathers.tags {start union : UnionLayout} {members : List ResolvedMember}
    (gathers : Gathers start members union) : union.tags = start.tags := by
  rw [UnionLayout.tags, gathers.discriminant]
  rfl

theorem Gathers.records {start union : UnionLayout} {members : List ResolvedMember}
    (gathers : Gathers start members union) {variant : VariantLayout}
    (among : variant ∈ union.variants) : ∃ member ∈ members, variant.record = member.record := by
  obtain ⟨member, declared, same⟩ := gathers.members variant among
  exact ⟨member, declared, by rw [VariantLayout.record, same]⟩

theorem Gathers.add {start union extended : UnionLayout} {passed : List ResolvedMember}
    {member : ResolvedMember} (gathers : Gathers start passed union)
    (added : union.add member = .ok extended) :
    Gathers start (passed ++ [member]) extended := by
  simp only [UnionLayout.add] at added
  split at added
  · cases added
  · rename_i constant found
    split at added
    · cases added
    · rename_i fresh
      obtain rfl := Except.ok.inj added
      have declared : constant ∈ start.tags.constants :=
        gathers.tags ▸ List.mem_of_find?_eq_some found
      have named : constant.name = member.declaration.tag := by simpa using List.find?_some found
      refine ⟨gathers.name, gathers.discriminator, gathers.discriminant, ?_, ?_, ?_, ?_⟩
      · rw [List.map_append, List.map_append, gathers.names]
        simp [named]
      · intro variant among
        rcases List.mem_append.mp among with old | last
        · exact gathers.selected variant old
        · obtain rfl := List.mem_singleton.mp last
          exact declared
      · rw [List.map_append, List.nodup_append]
        refine ⟨gathers.distinct, by simp, ?_⟩
        simpa using fresh
      · intro variant among
        rcases List.mem_append.mp among with old | last
        · obtain ⟨earlier, member, same⟩ := gathers.members variant old
          exact ⟨earlier, by simp [member], same⟩
        · obtain rfl := List.mem_singleton.mp last
          exact ⟨member, by simp, rfl⟩

theorem gathers_of_ofMembers {name : String} {discriminator : Discriminator}
    {tags : ConstantSet} {members : List ResolvedMember} {union : UnionLayout}
    (built : ofMembers name discriminator tags members = .ok union) :
    Gathers ⟨name, discriminator, .enumeration tags, []⟩ members union := by
  simp only [ofMembers, bind_eq_ok] at built
  obtain ⟨gathered, folded, built⟩ := built
  split at built
  · simp at built
  · obtain rfl : gathered = union := by simpa using built
    exact foldlM_keeps (Gathers ⟨name, discriminator, .enumeration tags, []⟩) folded
      ⟨rfl, rfl, rfl, rfl, by simp, by simp, by simp⟩ (fun _ _ _ _ _ sofar added => sofar.add added)

/-- A union of members that its tag fits is well-formed. -/
theorem wellFormed_ofMembers {name : String} {discriminator : Discriminator}
    {tags : ConstantSet} {members : List ResolvedMember} {union : UnionLayout}
    (built : ofMembers name discriminator tags members = .ok union)
    (tagsWellFormed : tags.WellFormed)
    (records : ∀ member ∈ members, (Layout.record member.record).WellFormed)
    (keyed : ∀ key, discriminator = .key key →
      ∀ member ∈ members, member.record.hasField key = false)
    (located : ∀ path offset, discriminator = .path path offset →
      ∀ member ∈ members, member.record.locate path = .ok (tags, offset)) :
    (Layout.union union).WellFormed := by
  have gathers := gathers_of_ofMembers built
  simp only [ofMembers, bind_eq_ok] at built
  obtain ⟨gathered, folded, built⟩ := built
  split at built
  · simp at built
  · rename_i complete
    obtain rfl : gathered = union := by simpa using built
    have sameTags : gathered.tags = tags := gathers.tags
    refine .union ⟨?_, ?_, ?_, ?_, gathers.distinct, ?_, ?_, ?_⟩ ?_
    · rw [sameTags]
      exact gathers.discriminant
    · intro variant among
      obtain ⟨member, -, same⟩ := gathers.members variant among
      rw [VariantLayout.record, same]
    · exact sameTags ▸ tagsWellFormed
    · exact sameTags ▸ gathers.selected
    · intro constant member
      simpa using List.find?_eq_none.mp complete constant (sameTags ▸ member)
    · intro key shape variant among
      obtain ⟨member, declared, same⟩ := gathers.records among
      rw [same]
      exact keyed key (gathers.discriminator.symm.trans shape) member declared
    · intro path offset shape variant among
      obtain ⟨member, declared, same⟩ := gathers.records among
      rw [same, sameTags]
      exact located path offset (gathers.discriminator.symm.trans shape) member declared
    · intro variant among
      obtain ⟨member, declared, same⟩ := gathers.records among
      rw [same]
      exact records member declared

end UnionLayout

namespace Declaration

variable {layouts : List Layout}

theorem eq_of_ofSize {name : String} {size : Option UInt64} {record sized : RecordLayout}
    (checked : ofSize name size record = .ok sized) : record = sized := by
  unfold ofSize at checked
  split at checked
  · exact Except.ok.inj checked
  · split at checked
    · exact Except.ok.inj checked
    · cases checked

theorem recordOf_spec {name : String} {size : Option UInt64}
    {fields : List (FieldDeclaration × Layout)} {record : RecordLayout}
    (made : recordOf name size fields = .ok record) :
    record.name = name ∧ record.Tiled ∧
      ∀ field ∈ record.fields, ∃ declared ∈ fields, declared.2 = field.element := by
  simp only [recordOf, bind_eq_ok] at made
  obtain ⟨built, folded, sized⟩ := made
  obtain rfl := eq_of_ofSize sized
  refine foldlM_keeps (fun passed made => made.name = name ∧ made.Tiled ∧
    ∀ field ∈ made.fields, ∃ declared ∈ passed, declared.2 = field.element) folded ?_ ?_
  · exact ⟨rfl, ⟨by simp, rfl, Nat.zero_le _⟩, by simp⟩
  · rintro passed before added after - ⟨named, tiled, elements⟩ extended
    have tiled := tiled.extend extended
    obtain ⟨-, -, last, -, same, -, -, rfl⟩ := RecordLayout.extend_spec extended
    refine ⟨named, tiled, ?_⟩
    intro field member
    rcases List.mem_append.mp member with old | new
    · obtain ⟨declared, among, same⟩ := elements field old
      exact ⟨declared, by simp [among], same⟩
    · obtain rfl := List.mem_singleton.mp new
      exact ⟨added, by simp, same.symm⟩

theorem record_mem_of_memberOf {name : String} {members : List MemberDeclaration}
    {resolved : List ResolvedMember}
    (made : (members.zip layouts).mapM (memberOf name) = .ok resolved) :
    ∀ member ∈ resolved, Layout.record member.record ∈ layouts := by
  intro member among
  obtain ⟨⟨declared, layout⟩, paired, made⟩ := exists_mem_of_forall₂ (mapM_eq_ok.mp made).flip among
  have inside := (List.of_mem_zip paired).2
  cases layout with
  | record record =>
      obtain rfl := Except.ok.inj made
      exact inside
  | scalar _ _ | enumeration _ | flags _ | union _ => cases made

/-- The tag of a union is the declared enumeration, in front of records without
its key, or it is in the same place of every record. -/
theorem tagOf_spec {union : String} {discriminator : DiscriminatorDeclaration}
    {discriminant : Option (String × Layout)} {members : List ResolvedMember}
    {place : Discriminator} {tags : ConstantSet}
    (found : tagOf union discriminator discriminant members = .ok (place, tags)) :
    (∃ key reference, discriminator = .key key ∧ place = .key key ∧
      discriminant = some (reference, .enumeration tags) ∧
      ∀ member ∈ members, member.record.hasField key = false) ∨
    ∃ path offset, discriminator = .path path ∧ place = .path path offset ∧ members ≠ [] ∧
      ∀ member ∈ members, member.record.locate path = .ok (tags, offset) := by
  cases discriminator with
  | key key =>
      cases discriminant with
      | none => simp [tagOf] at found
      | some declared =>
          obtain ⟨reference, layout⟩ := declared
          simp only [tagOf] at found
          split at found
          · simp at found
          · rename_i free
            simp only [bind_eq_ok, pure_eq_ok, Prod.mk.injEq] at found
            obtain ⟨tags, named, rfl, rfl⟩ := found
            cases layout with
            | enumeration constants =>
                obtain rfl := Except.ok.inj named
                refine .inl ⟨key, reference, rfl, rfl, rfl, fun member among => ?_⟩
                simpa using List.find?_eq_none.mp free member among
            | scalar _ _ | flags _ | record _ | union _ => cases named
  | path path =>
      simp only [tagOf, bind_eq_ok] at found
      obtain ⟨common, agreed, found⟩ := found
      cases common with
      | none => simp at found
      | some placed =>
          obtain ⟨located, offset⟩ := placed
          have same : (Discriminator.path path offset, located) = (place, tags) := by
            cases discriminant with
            | none => exact pure_eq_ok.mp found
            | some declared =>
                dsimp only at found
                split at found
                · exact pure_eq_ok.mp found
                · simp at found
          obtain ⟨rfl, rfl⟩ := Prod.mk.inj same
          exact .inr ⟨path, offset, rfl, rfl, locate_of_commonTag agreed⟩

/-- A union is put together from records among the references. -/
theorem members_of_unionOf {name : String} {discriminator : DiscriminatorDeclaration}
    {discriminant : Option (String × Layout)} {members : List MemberDeclaration}
    {union : UnionLayout}
    (made : unionOf name discriminator discriminant (members.zip layouts) = .ok union) :
    ∃ resolved place tags, (∀ member ∈ resolved, Layout.record member.record ∈ layouts) ∧
      tagOf name discriminator discriminant resolved = .ok (place, tags) ∧
      UnionLayout.ofMembers name place tags resolved = .ok union := by
  simp only [unionOf, bind_eq_ok] at made
  obtain ⟨resolved, made, ⟨place, tags⟩, placed, built⟩ := made
  exact ⟨resolved, place, tags, record_mem_of_memberOf made, placed, built⟩

/-- The declared enumeration of a union is among the references. -/
theorem mem_of_discriminant {discriminant : Option String} {members : List MemberDeclaration}
    {reference : String} {layout : Layout}
    (declared : (discriminant.toList.zip (layouts.drop members.length)).head? =
      some (reference, layout)) : layout ∈ layouts :=
  List.mem_of_mem_drop (List.of_mem_zip (List.mem_of_mem_head? declared)).2

/-- A name for a layout that is declared elsewhere. -/
def isAlias : Declaration → Bool
  | .alias _ _ => true
  | _ => false

theorem name_assemble {declaration : Declaration} {layouts : List Layout} {layout : Layout}
    (named : declaration.isAlias = false) (assembled : declaration.assemble layouts = .ok layout) :
    layout.name = declaration.name := by
  match declaration with
  | .primitive name size =>
      simp only [assemble, bind_eq_ok, pure_eq_ok] at assembled
      obtain ⟨scalar, -, rfl⟩ := assembled
      rfl
  | .alias name target => cases named
  | .enumeration name underlying constants isFlags =>
      simp only [assemble, bind_eq_ok, pure_eq_ok] at assembled
      obtain ⟨base, -, set, declared, rfl⟩ := assembled
      have same := (ConstantSet.ofDeclaration_spec declared).1
      cases isFlags <;> exact same
  | .record name size fields =>
      simp only [assemble, bind_eq_ok, pure_eq_ok] at assembled
      obtain ⟨record, made, rfl⟩ := assembled
      exact (recordOf_spec made).1
  | .union name discriminator discriminant members =>
      simp only [assemble, bind_eq_ok, pure_eq_ok] at assembled
      obtain ⟨union, made, rfl⟩ := assembled
      obtain ⟨resolved, place, tags, -, -, built⟩ := members_of_unionOf made
      exact (UnionLayout.gathers_of_ofMembers built).name

theorem mem_of_onlyReference {reference : String} {layout : Layout}
    (found : onlyReference reference layouts = .ok layout) : layout ∈ layouts := by
  cases layouts with
  | nil => cases found
  | cons first rest =>
      obtain rfl := Except.ok.inj found
      exact List.mem_cons_self

/-- A layout that is put together from well-formed ones is well-formed. -/
theorem wellFormed_assemble {declaration : Declaration} {layout : Layout}
    (assembled : declaration.assemble layouts = .ok layout)
    (references : ∀ reference ∈ layouts, reference.WellFormed) : layout.WellFormed := by
  match declaration with
  | .primitive name size =>
      simp only [assemble, bind_eq_ok, pure_eq_ok] at assembled
      obtain ⟨scalar, -, rfl⟩ := assembled
      exact .scalar
  | .alias name target => exact references layout (mem_of_onlyReference assembled)
  | .enumeration name underlying constants isFlags =>
      simp only [assemble, bind_eq_ok, pure_eq_ok] at assembled
      obtain ⟨base, -, set, declared, rfl⟩ := assembled
      have distinct := (ConstantSet.ofDeclaration_spec declared).2.2
      cases isFlags with
      | true => exact .flags distinct
      | false => exact .enumeration distinct
  | .record name size fields =>
      simp only [assemble, bind_eq_ok, pure_eq_ok] at assembled
      obtain ⟨record, made, rfl⟩ := assembled
      obtain ⟨-, tiled, elements⟩ := recordOf_spec made
      refine .record tiled fun field member => ?_
      obtain ⟨declared, paired, same⟩ := elements field member
      exact same ▸ references _ (List.of_mem_zip paired).2
  | .union name discriminator discriminant members =>
      simp only [assemble, bind_eq_ok, pure_eq_ok] at assembled
      obtain ⟨union, made, rfl⟩ := assembled
      obtain ⟨resolved, place, tags, among, placed, built⟩ := members_of_unionOf made
      have records := fun member inside => references _ (among member inside)
      rcases tagOf_spec placed with
        ⟨key, reference, -, rfl, declared, free⟩ | ⟨path, offset, -, rfl, nonempty, located⟩
      · have enumeration := references _ (mem_of_discriminant declared)
        cases enumeration with
        | enumeration distinct =>
            refine UnionLayout.wellFormed_ofMembers built distinct records ?_ (by simp)
            rintro _ ⟨rfl⟩
            exact free
      · obtain ⟨first, inside⟩ := List.exists_mem_of_ne_nil resolved nonempty
        have leads := RecordLayout.leads_of_locate (located first inside)
        refine UnionLayout.wellFormed_ofMembers built (leads.wellFormed (records first inside))
          records (by simp) ?_
        rintro _ _ ⟨rfl, rfl⟩
        exact located

end Declaration

end RecordCodec
