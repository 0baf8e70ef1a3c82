import RecordCodec.Proofs.Schema.Assembly

/-!
# Runs of the resolver

`Settles` says what looking up names in turn does where it succeeds.  A name
that the schema knows stays as it is.  Any other name is that of a pending
declaration, which is open while its references are looked up, and is entered
behind them.  These are exactly the runs of the resolver that succeed.
-/

namespace RecordCodec

/-- Looking up names in turn, with some declarations pending, gives layouts and a schema. -/
inductive Settles : List Declaration → List String → Schema → List Layout → Schema → Prop
  | nil {pending : List Declaration} {schema : Schema} : Settles pending [] schema [] schema
  | known {pending : List Declaration} {name : String} {names : List String}
      {before after : Schema} {layout : Layout} {layouts : List Layout}
      (found : before.find? name = some layout)
      (rest : Settles pending names before layouts after) :
      Settles pending (name :: names) before (layout :: layouts) after
  | declared {pending : List Declaration} {declaration : Declaration} {name : String}
      {names : List String} {before between after : Schema} {layout : Layout}
      {parts layouts : List Layout} (unknown : before.find? name = none)
      (selected : pending.find? (fun other => other.name == name) = some declaration)
      (references : Settles (Declaration.others name pending) declaration.references before parts
        between)
      (assembled : declaration.assemble parts = .ok layout)
      (rest : Settles pending names (between.enter declaration layout) layouts after) :
      Settles pending (name :: names) before (layout :: layouts) after

namespace Declaration

open Resolving

variable {declarations pending : List Declaration} {before after : Schema}

theorem run_resolve_eq_ok {name : String} {layout : Layout} :
    (resolve declarations pending name).run before = .ok (layout, after) ↔
      (before.find? name = some layout ∧ before = after) ∨
        (before.find? name = none ∧ ∃ declaration,
          pending.find? (fun other => other.name == name) = some declaration ∧
            (define (resolve declarations (others name pending)) declaration).run before =
              .ok (layout, after)) := by
  rw [resolve]
  simp only [run_bind_eq_ok, StateT.run_get, pure_eq_ok, Prod.mk.injEq]
  constructor
  · rintro ⟨_, _, ⟨rfl, rfl⟩, run⟩
    split at run
    · rename_i found known
      obtain ⟨rfl, rfl⟩ := run_pure_eq_ok.mp run
      exact .inl ⟨known, rfl⟩
    · rename_i unknown
      split at run
      · rename_i declaration selected
        exact .inr ⟨unknown, declaration, selected, run⟩
      · split at run <;> cases run
  · rintro (⟨known, rfl⟩ | ⟨unknown, declaration, selected, run⟩)
    · exact ⟨before, before, ⟨rfl, rfl⟩, by rw [known]; rfl⟩
    · refine ⟨before, before, ⟨rfl, rfl⟩, ?_⟩
      rw [unknown]
      split
      · rename_i known
        cases known
      · split
        · rename_i other found
          obtain rfl := Option.some.inj (found.symm.trans selected)
          exact run
        · rename_i absent
          cases absent.symm.trans selected

/-- The runs of the resolver along a list of names that succeed. -/
theorem run_mapM_resolve_eq_ok {names : List String} {layouts : List Layout} :
    (names.mapM (resolve declarations pending)).run before = .ok (layouts, after) ↔
      Settles pending names before layouts after := by
  constructor
  · intro run
    -- References are looked up with fewer declarations pending, later names with as many.
    induction length : pending.length using Nat.strongRecOn
      generalizing pending names before layouts after with
    | _ length shorter =>
    subst length
    induction names generalizing before layouts with
    | nil =>
        obtain ⟨rfl, rfl⟩ := run_pure_eq_ok.mp (by rwa [List.mapM_nil] at run)
        exact .nil
    | cons name names ih =>
        simp only [List.mapM_cons, run_bind_eq_ok, run_pure_eq_ok] at run
        obtain ⟨layout, middle, first, others, _, rest, rfl, rfl⟩ := run
        rcases run_resolve_eq_ok.mp first with ⟨known, rfl⟩ | ⟨unknown, declaration, selected, run⟩
        · exact .known known (ih rest)
        · obtain ⟨parts, between, references, assembled, rfl⟩ := run_define_eq_ok.mp run
          have fewer := length_others_lt selected
          exact .declared unknown selected (shorter _ fewer references rfl) assembled (ih rest)
  · intro settles
    induction settles with
    | nil => rfl
    | known found _ ih =>
        simp only [List.mapM_cons, run_bind_eq_ok, run_pure_eq_ok]
        exact ⟨_, _, run_resolve_eq_ok.mpr (.inl ⟨found, rfl⟩), _, _, ih, rfl, rfl⟩
    | @declared _ declaration _ _ _ _ _ _ _ _ unknown selected _ assembled _ references rest =>
        simp only [List.mapM_cons, run_bind_eq_ok, run_pure_eq_ok]
        refine ⟨_, _, run_resolve_eq_ok.mpr (.inr ⟨unknown, declaration, selected, ?_⟩), _, _, rest,
          rfl, rfl⟩
        exact run_define_eq_ok.mpr ⟨_, _, references, assembled, rfl⟩

theorem repeatedName?_eq_none_iff {seen : List String} :
    repeatedName? seen declarations = none ↔
      (∀ declaration ∈ declarations, declaration.name ∉ seen) ∧
        (declarations.map Declaration.name).Nodup := by
  induction declarations generalizing seen with
  | nil => simp [repeatedName?]
  | cons declaration rest ih =>
      simp only [repeatedName?, List.contains_iff_mem]
      split
      · rename_i repeated
        simp [repeated]
      · rename_i fresh
        rw [ih]
        simp only [List.mem_cons, not_or, List.map_cons, List.nodup_cons, List.mem_map]
        grind

end Declaration

namespace Schema

open Declaration Resolving

/-- Actions whose results are dropped succeed where the actions do. -/
theorem run_forM_discard_eq_ok {α β : Type} {action : α → Resolving β} {items : List α}
    {before after : Schema} :
    (forM items fun item => discard (action item)).run before = .ok ((), after) ↔
      ∃ results, (items.mapM action).run before = .ok (results, after) := by
  induction items generalizing before with
  | nil =>
      simp only [List.forM_nil, List.mapM_nil, run_pure_eq_ok]
      simp
  | cons item rest ih =>
      have dropped {between : Schema} {done : PUnit} :
          (discard (action item)).run before = .ok (done, between) ↔
            ∃ result, (action item).run before = .ok (result, between) := by
        change (action item >>= fun _ => pure done).run before = .ok (done, between) ↔ _
        simp only [run_bind_eq_ok, run_pure_eq_ok]
        simp
      simp only [List.forM_cons, List.mapM_cons, run_bind_eq_ok, run_pure_eq_ok, dropped, ih]
      constructor
      · rintro ⟨_, between, ⟨result, run⟩, results, runs⟩
        exact ⟨_, result, between, run, results, _, runs, rfl, rfl⟩
      · rintro ⟨_, result, between, run, results, _, runs, rfl, rfl⟩
        exact ⟨⟨⟩, between, ⟨result, run⟩, results, runs⟩

/-- A list of declarations is accepted where their names are distinct and looking them up in
turn succeeds. -/
theorem ofDeclarations_eq_ok_iff {declarations : List Declaration} {schema : Schema} :
    ofDeclarations declarations = .ok schema ↔
      (declarations.map Declaration.name).Nodup ∧
        ∃ layouts, Settles declarations (declarations.map Declaration.name)
          (builtIn declarations) layouts schema := by
  have distinct : repeatedName? [] declarations = none ↔
      (declarations.map Declaration.name).Nodup := by
    rw [repeatedName?_eq_none_iff]
    simp
  have settled : (∃ layouts, Settles declarations (declarations.map Declaration.name)
        (builtIn declarations) layouts schema) ↔
      (declarations.forM fun declaration =>
        discard (resolve declarations declarations declaration.name)).run (builtIn declarations) =
          .ok ((), schema) := by
    rw [List.forM_eq_forM, run_forM_discard_eq_ok]
    refine exists_congr fun layouts => ?_
    have runs : ((declarations.map Declaration.name).mapM
        (resolve declarations declarations)).run (builtIn declarations) = .ok (layouts, schema) ↔
          Settles declarations (declarations.map Declaration.name) (builtIn declarations) layouts
            schema :=
      run_mapM_resolve_eq_ok
    rw [← runs, List.mapM_map]
    rfl
  rw [← distinct, settled]
  simp only [ofDeclarations]
  cases repeatedName? [] declarations with
  | some name => simp
  | none =>
      simp only [true_and, bind_eq_ok, pure_eq_ok, Prod.exists]
      constructor
      · rintro ⟨⟨⟩, _, run, rfl⟩
        exact run
      · intro run
        exact ⟨(), schema, run, rfl⟩

end Schema

end RecordCodec
