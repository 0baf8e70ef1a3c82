import RecordCodec.Proofs.Success
import RecordCodec.Schema.Resolve

/-!
# Putting layouts together

Settling a declaration looks up its references one by one and puts its layout
together on the way.  Where it succeeds, it might as well have looked up all
references first: `Declaration.assemble` makes the layout from what they are.
-/

namespace RecordCodec

namespace Resolving

variable {α β : Type} {before after : Schema}

theorem run_bind_eq_ok {action : Resolving α} {next : α → Resolving β} {result : β} :
    (action >>= next).run before = .ok (result, after) ↔
      ∃ middle between, action.run before = .ok (middle, between) ∧
        (next middle).run between = .ok (result, after) := by
  rw [StateT.run_bind, bind_eq_ok, Prod.exists]

theorem run_pure_eq_ok {value result : α} :
    (pure value : Resolving α).run before = .ok (result, after) ↔
      value = result ∧ before = after := by
  rw [StateT.run_pure, pure_eq_ok, Prod.mk.injEq]

theorem run_throw_eq_ok {error : Error} {result : α} :
    (throw error : Resolving α).run before = .ok (result, after) ↔ False := by
  constructor
  · rintro ⟨⟩
  · exact False.elim

theorem run_lift (test : Except Error α) :
    (liftM test : Resolving α).run before = (fun value => (value, before)) <$> test := by
  cases test <;> rfl

theorem run_lift_eq_ok {test : Except Error α} {result : α} :
    (liftM test : Resolving α).run before = .ok (result, after) ↔
      test = .ok result ∧ before = after := by
  simp only [run_lift, map_eq_ok, Prod.mk.injEq]
  constructor
  · rintro ⟨_, passed, rfl, rfl⟩
    exact ⟨passed, rfl⟩
  · rintro ⟨passed, rfl⟩
    exact ⟨result, passed, rfl, rfl⟩

theorem length_of_run_mapM {step : α → Resolving β} {items : List α} {results : List β}
    (run : (items.mapM step).run before = .ok (results, after)) :
    results.length = items.length := by
  induction items generalizing before after results with
  | nil =>
      obtain ⟨rfl, -⟩ := run_pure_eq_ok.mp (by rwa [List.mapM_nil] at run)
      rfl
  | cons item rest ih =>
      simp only [List.mapM_cons, run_bind_eq_ok, run_pure_eq_ok] at run
      obtain ⟨result, _, -, others, _, run, rfl, -⟩ := run
      rw [List.length_cons, List.length_cons, ih run]

end Resolving

namespace RecordLayout

/-- Puts a field with its layout behind the others, unless its name is taken. -/
def extend (record : RecordLayout) (field : FieldDeclaration × Layout) :
    Except Error RecordLayout :=
  if record.hasField field.1.name then .error (.duplicateField record.name field.1.name)
  else record.append field.1 field.2

end RecordLayout

namespace Declaration

/-- The member of a union whose layout is known. -/
def memberOf (union : String) (member : MemberDeclaration × Layout) :
    Except Error ResolvedMember :=
  match member.2 with
  | .record layout => .ok ⟨member.1, layout⟩
  | other => .error (.invalidUnionMember union other.name .recordMember)

/-- Where the tag of a union stands and which enumeration it is, given the
declared enumeration with its layout. -/
def tagOf (union : String) (discriminator : DiscriminatorDeclaration)
    (discriminant : Option (String × Layout)) (members : List ResolvedMember) :
    Except Error (Discriminator × ConstantSet) := do
  match discriminator with
  | .key key =>
      let some (_, layout) := discriminant | throw (.missingDiscriminant union)
      match members.find? (fun member => member.record.hasField key) with
      | some member => throw (.discriminatorCollision union member.declaration.record key)
      | none => return (.key key, ← tagsOf union layout)
  | .path path =>
      let some (tags, offset) ← commonTag union path members
        | throw (.missingDiscriminant union)
      match discriminant with
      | none => return (.path path offset, tags)
      | some (reference, layout) =>
          if layout.name = tags.name then return (.path path offset, tags)
          else throw (.invalidDiscriminatorPath union reference .notTheDeclaredDiscriminant)

/-- The record, unless its declared length is another one. -/
def ofSize (name : String) (size : Option UInt64) (record : RecordLayout) :
    Except Error RecordLayout :=
  match size with
  | none => .ok record
  | some declared =>
      if declared.toNat = record.length then .ok record
      else .error (.lengthMismatch name declared.toNat record.length)

/-- The record of fields whose layouts are known. -/
def recordOf (name : String) (size : Option UInt64) (fields : List (FieldDeclaration × Layout)) :
    Except Error RecordLayout := do
  ofSize name size (← fields.foldlM RecordLayout.extend ⟨name, [], 0⟩)

/-- The union of members whose layouts are known, like that of the declared enumeration. -/
def unionOf (name : String) (discriminator : DiscriminatorDeclaration)
    (discriminant : Option (String × Layout)) (members : List (MemberDeclaration × Layout)) :
    Except Error UnionLayout := do
  let resolved ← members.mapM (memberOf name)
  let (discriminator, tags) ← tagOf name discriminator discriminant resolved
  UnionLayout.ofMembers name discriminator tags resolved

/-- The only reference of a declaration that has one. -/
def onlyReference (reference : String) (layouts : List Layout) : Except Error Layout :=
  match layouts with
  | [] => .error (.unknownType reference)
  | layout :: _ => .ok layout

/-- The layout of a declaration, put together from the layouts of its references. -/
def assemble (declaration : Declaration) (layouts : List Layout) : Except Error Layout := do
  match declaration with
  | .primitive name size => return .scalar name (← Scalar.ofDeclaration name size.toNat)
  | .alias _ target => onlyReference target layouts
  | .enumeration name underlying constants isFlags =>
      let layout ← onlyReference underlying layouts
      let set ← ConstantSet.ofDeclaration name underlying layout constants
      return if isFlags then .flags set else .enumeration set
  | .record name size fields => return .record (← recordOf name size (fields.zip layouts))
  | .union name discriminator discriminant members =>
      let behind := discriminant.toList.zip (layouts.drop members.length)
      return .union (← unionOf name discriminator behind.head? (members.zip layouts))

end Declaration

/-- Enters the layout of a declaration under its name. -/
def Schema.enter (schema : Schema) (declaration : Declaration) (layout : Layout) : Schema :=
  match declaration with
  | .alias name _ => schema.addAlias name layout
  | _ => schema.addLayout layout

namespace Declaration

open Resolving

variable {resolve : String → Resolving Layout} {before after : Schema}

section Lists

variable {α β : Type} {reference : α → String}

/-- Steps that each look up a reference and use what it is. -/
theorem run_mapM_eq_ok {step : α → Resolving β} {use : α × Layout → Except Error β}
    (each : ∀ item before result after, (step item).run before = .ok (result, after) ↔
      ∃ layout, (resolve (reference item)).run before = .ok (layout, after) ∧
        use (item, layout) = .ok result)
    {items : List α} {results : List β} :
    (items.mapM step).run before = .ok (results, after) ↔
      ∃ layouts, ((items.map reference).mapM resolve).run before = .ok (layouts, after) ∧
        (items.zip layouts).mapM use = .ok results := by
  induction items generalizing before after results with
  | nil =>
      simp only [List.map_nil, List.mapM_nil, run_pure_eq_ok]
      constructor
      · rintro ⟨rfl, rfl⟩
        exact ⟨[], ⟨rfl, rfl⟩, rfl⟩
      · rintro ⟨layouts, ⟨rfl, rfl⟩, used⟩
        exact ⟨by simpa using used, rfl⟩
  | cons item rest ih =>
      simp only [List.map_cons, List.mapM_cons, run_bind_eq_ok, run_pure_eq_ok, each, ih]
      constructor
      · rintro ⟨result, between, ⟨layout, run, used⟩, others, _, ⟨layouts, runs, uses⟩, rfl, rfl⟩
        refine ⟨layout :: layouts, ⟨layout, between, run, layouts, _, runs, rfl, rfl⟩, ?_⟩
        simp [used, uses]
      · rintro ⟨_, ⟨layout, between, run, layouts, _, runs, rfl, rfl⟩, used⟩
        simp only [List.zip_cons_cons, List.mapM_cons, bind_eq_ok, pure_eq_ok] at used
        obtain ⟨result, used, others, uses, rfl⟩ := used
        exact ⟨result, between, ⟨layout, run, used⟩, others, _, ⟨layouts, runs, uses⟩, rfl, rfl⟩

/-- Steps along a list that each look up a reference and put what it is to the rest. -/
theorem run_foldlM_eq_ok {step : β → α → Resolving β} {use : β → α × Layout → Except Error β}
    (each : ∀ sofar item before result after,
      (step sofar item).run before = .ok (result, after) ↔
        ∃ layout, (resolve (reference item)).run before = .ok (layout, after) ∧
          use sofar (item, layout) = .ok result)
    {items : List α} {start result : β} :
    (items.foldlM step start).run before = .ok (result, after) ↔
      ∃ layouts, ((items.map reference).mapM resolve).run before = .ok (layouts, after) ∧
        (items.zip layouts).foldlM use start = .ok result := by
  induction items generalizing before after start with
  | nil =>
      simp only [List.map_nil, List.mapM_nil, List.foldlM_nil, run_pure_eq_ok]
      constructor
      · rintro ⟨rfl, rfl⟩
        exact ⟨[], ⟨rfl, rfl⟩, rfl⟩
      · rintro ⟨layouts, ⟨rfl, rfl⟩, used⟩
        exact ⟨by simpa using used, rfl⟩
  | cons item rest ih =>
      simp only [List.map_cons, List.mapM_cons, List.foldlM_cons, run_bind_eq_ok, run_pure_eq_ok,
        each, ih]
      constructor
      · rintro ⟨sofar, between, ⟨layout, run, used⟩, layouts, runs, uses⟩
        refine ⟨layout :: layouts, ⟨layout, between, run, layouts, _, runs, rfl, rfl⟩, ?_⟩
        simp [used, uses]
      · rintro ⟨_, ⟨layout, between, run, layouts, _, runs, rfl, rfl⟩, used⟩
        simp only [List.zip_cons_cons, List.foldlM_cons, bind_eq_ok] at used
        obtain ⟨sofar, used, uses⟩ := used
        exact ⟨sofar, between, ⟨layout, run, used⟩, layouts, runs, uses⟩

end Lists

theorem run_resolveField_eq_ok {record extended : RecordLayout} {field : FieldDeclaration} :
    (resolveField resolve record field).run before = .ok (extended, after) ↔
      ∃ layout, (resolve field.type).run before = .ok (layout, after) ∧
        record.extend (field, layout) = .ok extended := by
  simp only [resolveField, RecordLayout.extend]
  split
  · simp only [run_bind_eq_ok, run_throw_eq_ok]
    simp
  · simp only [run_bind_eq_ok, run_lift_eq_ok]
    simp

theorem run_resolveMember_eq_ok {union : String} {member : MemberDeclaration}
    {resolved : ResolvedMember} :
    (resolveMember resolve union member).run before = .ok (resolved, after) ↔
      ∃ layout, (resolve member.record).run before = .ok (layout, after) ∧
        memberOf union (member, layout) = .ok resolved := by
  unfold resolveMember
  rw [run_bind_eq_ok]
  constructor
  · rintro ⟨layout, between, run, made⟩
    cases layout with
    | record record =>
        obtain ⟨rfl, rfl⟩ := run_pure_eq_ok.mp made
        exact ⟨_, run, rfl⟩
    | scalar _ _ | enumeration _ | flags _ | union _ => cases made
  · rintro ⟨layout, run, made⟩
    cases layout with
    | record record =>
        obtain rfl := Except.ok.inj made
        exact ⟨_, _, run, rfl⟩
    | scalar _ _ | enumeration _ | flags _ | union _ => cases made

theorem run_mapM_singleton_eq_ok {reference : String} {layouts : List Layout} :
    ([reference].mapM resolve).run before = .ok (layouts, after) ↔
      ∃ layout, (resolve reference).run before = .ok (layout, after) ∧ [layout] = layouts := by
  simp only [List.mapM_cons, List.mapM_nil, run_bind_eq_ok, run_pure_eq_ok]
  constructor
  · rintro ⟨layout, _, run, _, _, ⟨rfl, rfl⟩, rfl, rfl⟩
    exact ⟨layout, run, rfl⟩
  · rintro ⟨layout, run, rfl⟩
    exact ⟨layout, after, run, [], after, ⟨rfl, rfl⟩, rfl, rfl⟩

theorem run_resolveTag_eq_ok {union : String} {discriminator : DiscriminatorDeclaration}
    {discriminant : Option String} {members : List ResolvedMember}
    {tag : Discriminator × ConstantSet} :
    (resolveTag resolve union discriminator discriminant members).run before =
        .ok (tag, after) ↔
      ∃ layouts, (discriminant.toList.mapM resolve).run before = .ok (layouts, after) ∧
        tagOf union discriminator (discriminant.toList.zip layouts).head? members = .ok tag := by
  cases discriminator with
  | key key =>
      cases discriminant with
      | none => simp [resolveTag, tagOf]
      | some reference =>
          have looks : resolveTag resolve union (.key key) (some reference) members =
              resolve reference >>= fun layout =>
                liftM (tagOf union (.key key) (some (reference, layout)) members) := by
            simp only [resolveTag, tagOf]
            congr
            funext layout
            cases members.find? (fun member => member.record.hasField key) with
            | some member => rfl
            | none => simp
          simp only [looks, Option.toList_some, run_bind_eq_ok, run_lift_eq_ok,
            run_mapM_singleton_eq_ok]
          simp
  | path path =>
      cases common : commonTag union path members with
      | error error => simp [resolveTag, tagOf, common]
      | ok found =>
          cases found with
          | none => simp [resolveTag, tagOf, common]
          | some placed =>
              cases discriminant with
              | none => simp [resolveTag, tagOf, common, and_comm]
              | some reference =>
                  have looks : resolveTag resolve union (.path path) (some reference) members =
                      resolve reference >>= fun layout =>
                        liftM (tagOf union (.path path) (some (reference, layout)) members) := by
                    have known : (liftM (Except.ok (some placed) : Except Error _) :
                        Resolving _) = pure (some placed) := rfl
                    simp only [resolveTag, tagOf, common, known, pure_bind]
                    congr
                    funext layout
                    change _ = liftM (if layout.name = placed.1.name then _ else _ :
                      Except Error (Discriminator × ConstantSet))
                    split <;> rfl
                  simp only [looks, Option.toList_some, run_bind_eq_ok, run_lift_eq_ok,
                    run_mapM_singleton_eq_ok]
                  simp

theorem run_settle_eq_ok {layout settled : Layout} :
    (define.settle layout).run before = .ok (settled, after) ↔
      layout = settled ∧ before.addLayout layout = after := by
  constructor
  · rintro ⟨⟩
    exact ⟨rfl, rfl⟩
  · rintro ⟨rfl, rfl⟩
    rfl

theorem run_modify_eq_ok {change : Schema → Schema} {done : PUnit} :
    (modify change : Resolving PUnit).run before = .ok (done, after) ↔ change before = after := by
  constructor
  · rintro ⟨⟩
    rfl
  · rintro rfl
    rfl

/-- The size is compared behind the fields. -/
theorem resolveRecord_eq (name : String) (size : Option UInt64) (fields : List FieldDeclaration) :
    resolveRecord resolve name size fields =
      fields.foldlM (resolveField resolve) ⟨name, [], 0⟩ >>= fun made =>
        liftM (ofSize name size made) := by
  simp only [resolveRecord, ofSize]
  congr
  funext made
  cases size with
  | none => rfl
  | some declared =>
      dsimp only
      split <;> rfl

theorem run_resolveRecord_eq_ok {name : String} {size : Option UInt64}
    {fields : List FieldDeclaration} {record : RecordLayout} :
    (resolveRecord resolve name size fields).run before = .ok (record, after) ↔
      ∃ layouts, ((fields.map FieldDeclaration.type).mapM resolve).run before =
          .ok (layouts, after) ∧ recordOf name size (fields.zip layouts) = .ok record := by
  have folds (made : RecordLayout) (between : Schema) :
      (fields.foldlM (resolveField resolve) ⟨name, [], 0⟩).run before = .ok (made, between) ↔
        ∃ layouts, ((fields.map FieldDeclaration.type).mapM resolve).run before =
            .ok (layouts, between) ∧
          (fields.zip layouts).foldlM RecordLayout.extend ⟨name, [], 0⟩ = .ok made :=
    run_foldlM_eq_ok fun _ _ _ _ _ => run_resolveField_eq_ok
  simp only [resolveRecord_eq, recordOf, run_bind_eq_ok, folds, run_lift_eq_ok, bind_eq_ok]
  constructor
  · rintro ⟨made, _, ⟨layouts, run, folded⟩, sized, rfl⟩
    exact ⟨layouts, run, made, folded, sized⟩
  · rintro ⟨layouts, run, made, folded, sized⟩
    exact ⟨made, after, ⟨layouts, run, folded⟩, sized, rfl⟩

theorem run_resolveUnion_eq_ok {name : String} {discriminator : DiscriminatorDeclaration}
    {discriminant : Option String} {members : List MemberDeclaration} {union : UnionLayout} :
    (resolveUnion resolve name discriminator discriminant members).run before =
        .ok (union, after) ↔
      ∃ layouts, ((members.map MemberDeclaration.record ++ discriminant.toList).mapM resolve).run
          before = .ok (layouts, after) ∧
        unionOf name discriminator
          (discriminant.toList.zip (layouts.drop members.length)).head? (members.zip layouts) =
            .ok union := by
  have maps (resolved : List ResolvedMember) (between : Schema) :
      (members.mapM (resolveMember resolve name)).run before = .ok (resolved, between) ↔
        ∃ layouts, ((members.map MemberDeclaration.record).mapM resolve).run before =
            .ok (layouts, between) ∧ (members.zip layouts).mapM (memberOf name) = .ok resolved :=
    run_mapM_eq_ok fun _ _ _ _ => run_resolveMember_eq_ok
  simp only [resolveUnion, unionOf, run_bind_eq_ok, maps, run_lift_eq_ok, run_resolveTag_eq_ok,
    run_pure_eq_ok, bind_eq_ok, List.mapM_append]
  have apart {records : List Layout} {between : Schema} (behind : List Layout)
      (run : ((members.map MemberDeclaration.record).mapM resolve).run before =
        .ok (records, between)) :
      members.zip (records ++ behind) = members.zip records ∧
        (records ++ behind).drop members.length = behind := by
    have length := length_of_run_mapM run
    rw [List.length_map] at length
    have front : (members ++ []).zip (records ++ behind) = members.zip records ++ [].zip behind :=
      List.zip_append length.symm
    rw [List.append_nil, List.zip_nil_left, List.append_nil] at front
    exact ⟨front, by rw [← length, List.drop_left]⟩
  constructor
  · rintro ⟨resolved, between, ⟨records, run, made⟩, tag, _, ⟨behind, rest, placed⟩, built, rfl⟩
    obtain ⟨front, back⟩ := apart behind run
    refine ⟨records ++ behind, ⟨records, between, run, behind, _, rest, rfl, rfl⟩, resolved,
      ?_, tag, ?_, built⟩
    · rwa [front]
    · rwa [back]
  · rintro ⟨_, ⟨records, between, run, behind, _, rest, rfl, rfl⟩, resolved, made, tag, placed,
      built⟩
    obtain ⟨front, back⟩ := apart behind run
    rw [front] at made
    rw [back] at placed
    exact ⟨resolved, between, ⟨records, run, made⟩, tag, _, ⟨behind, rest, placed⟩, built, rfl⟩

theorem run_define_eq_ok {declaration : Declaration} {layout : Layout} :
    (define resolve declaration).run before = .ok (layout, after) ↔
      ∃ layouts between, (declaration.references.mapM resolve).run before =
          .ok (layouts, between) ∧ declaration.assemble layouts = .ok layout ∧
        between.enter declaration layout = after := by
  match declaration with
  | .primitive name size =>
      simp only [define, references, assemble, List.mapM_nil, run_bind_eq_ok, run_lift_eq_ok,
        run_pure_eq_ok, run_settle_eq_ok, bind_eq_ok, pure_eq_ok, Schema.enter]
      constructor
      · rintro ⟨scalar, _, ⟨declared, rfl⟩, rfl, rfl⟩
        exact ⟨[], before, ⟨rfl, rfl⟩, ⟨scalar, declared, rfl⟩, rfl⟩
      · rintro ⟨_, _, ⟨rfl, rfl⟩, ⟨scalar, declared, rfl⟩, rfl⟩
        exact ⟨scalar, before, ⟨declared, rfl⟩, rfl, rfl⟩
  | .alias name target =>
      simp only [define, references, assemble, run_mapM_singleton_eq_ok, run_bind_eq_ok,
        run_modify_eq_ok, run_pure_eq_ok, Schema.enter]
      constructor
      · rintro ⟨_, between, run, _, _, rfl, rfl, rfl⟩
        exact ⟨_, between, ⟨_, run, rfl⟩, rfl, rfl⟩
      · rintro ⟨_, between, ⟨found, run, rfl⟩, ⟨⟩, rfl⟩
        exact ⟨layout, between, run, ⟨⟩, _, rfl, rfl, rfl⟩
  | .enumeration name underlying constants isFlags =>
      simp only [define, references, assemble, run_mapM_singleton_eq_ok, run_bind_eq_ok,
        run_lift_eq_ok, run_settle_eq_ok, bind_eq_ok, pure_eq_ok, Schema.enter]
      constructor
      · rintro ⟨found, between, run, set, _, ⟨declared, rfl⟩, rfl, rfl⟩
        exact ⟨_, between, ⟨found, run, rfl⟩, ⟨found, rfl, set, declared, rfl⟩, rfl⟩
      · rintro ⟨_, between, ⟨found, run, rfl⟩, ⟨_, ⟨⟩, set, declared, rfl⟩, rfl⟩
        exact ⟨found, between, run, set, _, ⟨declared, rfl⟩, rfl, rfl⟩
  | .record name size fields =>
      simp only [define, references, assemble, run_bind_eq_ok, run_resolveRecord_eq_ok,
        run_settle_eq_ok, bind_eq_ok, pure_eq_ok, Schema.enter]
      constructor
      · rintro ⟨record, between, ⟨layouts, run, made⟩, rfl, rfl⟩
        exact ⟨layouts, between, run, ⟨record, made, rfl⟩, rfl⟩
      · rintro ⟨layouts, between, run, ⟨record, made, rfl⟩, rfl⟩
        exact ⟨record, between, ⟨layouts, run, made⟩, rfl, rfl⟩
  | .union name discriminator discriminant members =>
      simp only [define, references, assemble, run_bind_eq_ok, run_resolveUnion_eq_ok,
        run_settle_eq_ok, bind_eq_ok, pure_eq_ok, Schema.enter]
      constructor
      · rintro ⟨union, between, ⟨layouts, run, made⟩, rfl, rfl⟩
        exact ⟨layouts, between, run, ⟨union, made, rfl⟩, rfl⟩
      · rintro ⟨layouts, between, run, ⟨union, made, rfl⟩, rfl⟩
        exact ⟨union, between, ⟨layouts, run, made⟩, rfl, rfl⟩

end Declaration

end RecordCodec
