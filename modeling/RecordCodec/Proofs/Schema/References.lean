import RecordCodec.Proofs.Failure
import RecordCodec.Proofs.Layout.Decidable
import RecordCodec.Proofs.Schema.Meaning

/-!
# Cycles and dangling references

A name that is being settled stands on a stack of open names.  The stack is a
path of references at all times, so a reference to an open name closes a cycle.
Each nested lookup opens one more declaration, which bounds the depth of the
stack.  Every name that is looked up is either declared or referred to, and the
built-in names stay known throughout, so a name that is found nowhere dangles.
-/

namespace RecordCodec

namespace Declaration

variable {declarations : List Declaration} {stack : List String} {name : String}

/-- Looks a name up while the names on the stack are open, given how to look names up
while this one is open as well. -/
def resolveStep (nested : String → Resolving Layout) (declarations : List Declaration)
    (stack : List String) (name : String) : Resolving Layout := do
  match (← get).find? name with
  | some layout => return layout
  | none =>
      match declarations.find? (fun declaration => declaration.name == name) with
      | none => throw (.unknownType name)
      | some declaration =>
          if stack.contains name then throw (.recursiveType name)
          else define nested declaration

/-- Looks a name up while the names on the stack are open.  No more than `depth`
lookups are nested; one that would be nested deeper is an overrun. -/
def resolveNested (overrun : Resolving Layout) (declarations : List Declaration) :
    (depth : Nat) → (stack : List String) → String → Resolving Layout
  | 0, _, _ => overrun
  | depth + 1, stack, name =>
      resolveStep (resolveNested overrun declarations depth (name :: stack)) declarations stack name

/-- The declarations that are not open. -/
def unopened (declarations : List Declaration) (stack : List String) : List Declaration :=
  declarations.filter (fun declaration => !stack.contains declaration.name)

theorem others_unopened :
    others name (unopened declarations stack) = unopened declarations (name :: stack) := by
  simp only [others, unopened, List.filter_filter, List.contains_cons, Bool.not_or]
  rfl

theorem find?_unopened :
    (unopened declarations stack).find? (fun declaration => declaration.name == name) =
      if stack.contains name then none
      else declarations.find? (fun declaration => declaration.name == name) := by
  induction declarations with
  | nil => simp [unopened]
  | cons declaration rest ih =>
      unfold unopened at ih ⊢
      rw [List.filter_cons, List.find?_cons]
      split <;> grind

theorem length_unopened_lt {declaration : Declaration}
    (declared : declarations.find? (fun declaration => declaration.name == name) =
      some declaration) (closed : ¬stack.contains name) :
    (unopened declarations (name :: stack)).length < (unopened declarations stack).length := by
  rw [← others_unopened]
  apply length_others_lt
  rw [find?_unopened, if_neg closed, declared]

/-- Names are only looked up further where a declaration is opened. -/
theorem resolveStep_congr {first second : String → Resolving Layout}
    (same : ∀ declaration,
      declarations.find? (fun declaration => declaration.name == name) = some declaration →
        ¬stack.contains name → first = second) :
    resolveStep first declarations stack name = resolveStep second declarations stack name := by
  unfold resolveStep
  congr 1
  funext schema
  cases schema.find? name with
  | some layout => rfl
  | none =>
      cases declared : declarations.find? (fun declaration => declaration.name == name) with
      | none => rfl
      | some declaration =>
          by_cases opened : stack.contains name
          · simp only [if_pos opened]
          · rw [same declaration declared opened]

/-- With the open declarations not pending, a lookup goes by the stack. -/
theorem resolve_unopened :
    resolve declarations (unopened declarations stack) name =
      resolveStep (resolve declarations (unopened declarations (name :: stack))) declarations stack
        name := by
  rw [resolve, ← List.isSome_find?, others_unopened]
  congr 1
  funext schema
  cases schema.find? name with
  | some layout => rfl
  | none =>
      dsimp only
      split
      · rename_i declaration selected
        rw [find?_unopened] at selected
        by_cases opened : stack.contains name
        · rw [if_pos opened] at selected
          cases selected
        · rw [if_neg opened] at selected
          rw [selected]
          exact (if_neg opened).symm
      · rename_i absent
        rw [find?_unopened] at absent
        cases declared : declarations.find? (fun declaration => declaration.name == name) with
        | none => rfl
        | some declaration =>
            have opened : stack.contains name := by
              by_contra closed
              rw [if_neg closed, declared] at absent
              cases absent
            exact (if_pos opened).symm

/-- Lookups are nested no deeper than there are declarations to open. -/
theorem resolve_eq_resolveNested {overrun : Resolving Layout} {depth : Nat}
    (deep : (unopened declarations stack).length < depth) :
    resolve declarations (unopened declarations stack) name =
      resolveNested overrun declarations depth stack name := by
  induction depth generalizing stack name with
  | zero => omega
  | succ depth ih =>
      rw [resolve_unopened, resolveNested]
      apply resolveStep_congr
      intro declaration declared closed
      have fewer := length_unopened_lt declared closed
      funext reference
      exact ih (by omega)

end Declaration

open Declaration

/-- Where an error says of a name that it refers to itself or that nothing is known of it, this
is so. -/
def Error.Justified (declarations : List Declaration) : Error → Prop
  | .recursiveType name => Relation.TransGen (Refers declarations) name name
  | .unknownType name =>
      (∀ declaration ∈ declarations, declaration.name ≠ name) ∧
        (∀ scalar, (name, scalar) ∉ Scalar.builtIns) ∧
          ∃ declaration ∈ declarations, name ∈ declaration.references
  | _ => True

/-- The error is about what a declaration says, and not about what it refers to. -/
def Error.OfShape : Error → Prop
  | .recursiveType _ | .unknownType _ => False
  | _ => True

theorem Error.OfShape.justified {error : Error} (shape : error.OfShape)
    (declarations : List Declaration) : error.Justified declarations := by
  cases error <;> first | exact trivial | cases shape

/-- The built-in names that are not declared are known. -/
def Schema.KnowsBuiltIns (declarations : List Declaration) (schema : Schema) : Prop :=
  (builtIn declarations).entries ⊆ schema.entries

namespace Resolving

variable {α β γ : Type} {declarations : List Declaration}

/-- With the built-in names known, an action fails only with justified errors, and leaves these
names known. -/
structure Accounts (declarations : List Declaration) (action : Resolving α) : Prop where
  fails : ∀ before : Schema, before.KnowsBuiltIns declarations →
    FailsWith (Error.Justified declarations) (action.run before)
  keeps : ∀ (before : Schema) result after, before.KnowsBuiltIns declarations →
    action.run before = .ok (result, after) → after.KnowsBuiltIns declarations

namespace Accounts

theorem pure (value : α) : Accounts declarations (pure value) := by
  constructor
  · intro before _
    exact .of_ok _
  · intro before result after known run
    obtain ⟨-, rfl⟩ := run_pure_eq_ok.mp run
    exact known

theorem throw {error : Error} (justified : error.Justified declarations) :
    Accounts declarations (throw error : Resolving α) := by
  constructor
  · intro before _
    exact .of_error justified
  · intro before result after _ run
    exact (run_throw_eq_ok.mp run).elim

theorem lift {test : Except Error α} (shape : FailsWith Error.OfShape test) :
    Accounts declarations (liftM test) := by
  constructor
  · intro before _ error failed
    cases test with
    | error other =>
        obtain rfl := Except.error.inj failed
        exact (shape other rfl).justified declarations
    | ok value => cases failed
  · intro before result after known run
    obtain ⟨-, rfl⟩ := run_lift_eq_ok.mp run
    exact known

theorem bind {action : Resolving α} {next : α → Resolving β}
    (first : Accounts declarations action) (later : ∀ middle, Accounts declarations (next middle)) :
    Accounts declarations (action >>= next) := by
  constructor
  · intro before known
    rw [StateT.run_bind]
    apply (first.fails before known).bind
    intro middle passed
    exact (later middle.1).fails _ (first.keeps _ _ _ known passed)
  · intro before result after known run
    obtain ⟨middle, between, passed, run⟩ := run_bind_eq_ok.mp run
    exact (later middle).keeps _ _ _ (first.keeps _ _ _ known passed) run

/-- What follows may rely on what the schema knows. -/
theorem get_bind {next : Schema → Resolving β}
    (later : ∀ schema, schema.KnowsBuiltIns declarations → Accounts declarations (next schema)) :
    Accounts declarations (get >>= next) :=
  ⟨fun before known => (later before known).fails before known,
    fun before _ _ known run => (later before known).keeps _ _ _ known run⟩

theorem modify {change : Schema → Schema}
    (grows : ∀ schema, schema.entries ⊆ (change schema).entries) :
    Accounts declarations (modify change) := by
  constructor
  · intro before _
    exact .of_ok _
  · intro before result after known run
    obtain rfl := run_modify_eq_ok.mp run
    exact List.Subset.trans known (grows before)

theorem mapM {step : α → Resolving β} {items : List α}
    (each : ∀ item ∈ items, Accounts declarations (step item)) :
    Accounts declarations (items.mapM step) := by
  induction items with
  | nil => exact pure []
  | cons item rest ih =>
      rw [List.mapM_cons]
      apply (each item List.mem_cons_self).bind
      intro result
      apply (ih fun other among => each other (List.mem_cons_of_mem _ among)).bind
      intro results
      exact pure _

theorem forM {step : α → Resolving PUnit} {items : List α}
    (each : ∀ item ∈ items, Accounts declarations (step item)) :
    Accounts declarations (items.forM step) := by
  induction items with
  | nil => exact pure _
  | cons item rest ih =>
      apply (each item List.mem_cons_self).bind
      intro _
      exact ih fun other among => each other (List.mem_cons_of_mem _ among)

theorem foldlM {step : β → α → Resolving β} {items : List α}
    (each : ∀ sofar, ∀ item ∈ items, Accounts declarations (step sofar item)) (start : β) :
    Accounts declarations (items.foldlM step start) := by
  induction items generalizing start with
  | nil => exact pure start
  | cons item rest ih =>
      rw [List.foldlM_cons]
      apply (each start item List.mem_cons_self).bind
      intro sofar
      exact ih (fun sofar other among => each sofar other (List.mem_cons_of_mem _ among)) sofar

end Accounts

end Resolving

theorem Scalar.shape_ofDeclaration (name : String) (size : Nat) :
    FailsWith Error.OfShape (ofDeclaration name size) := by
  unfold ofDeclaration
  split
  · exact .of_ok _
  · exact .of_error trivial

theorem ConstantSet.shape_ofDeclaration (name underlyingName : String) (underlying : Layout)
    (constants : List (String × UInt64)) :
    FailsWith Error.OfShape (ofDeclaration name underlyingName underlying constants) := by
  unfold ofDeclaration
  split
  · apply FailsWith.foldlM
    intro set constant _
    unfold add
    split
    · exact .of_error trivial
    · split
      · exact .of_error trivial
      · exact .of_ok _
  · exact .of_error trivial

theorem RecordLayout.shape_append (record : RecordLayout) (field : FieldDeclaration)
    (element : Layout) : FailsWith Error.OfShape (record.append field element) := by
  unfold append
  dsimp only
  split
  · exact .of_ok _
  · exact .of_error trivial

theorem UnionLayout.shape_ofMembers (name : String) (discriminator : Discriminator)
    (tags : ConstantSet) (members : List ResolvedMember) :
    FailsWith Error.OfShape (ofMembers name discriminator tags members) := by
  unfold ofMembers
  apply FailsWith.bind
  · apply FailsWith.foldlM
    intro union member _
    unfold add
    dsimp only
    split
    · exact .of_error trivial
    · split
      · exact .of_error trivial
      · exact .of_ok _
  · intro union _
    split
    · exact .of_error trivial
    · exact .of_ok _

theorem shape_commonTag (union : String) (path : List String) (members : List ResolvedMember) :
    FailsWith Error.OfShape (commonTag union path members) := by
  apply FailsWith.foldlM
  intro common member _
  split
  · exact .of_error trivial
  · split
    · exact .of_ok _
    · exact .of_error trivial

namespace Declaration

theorem shape_tagsOf (union : String) (discriminant : Layout) :
    FailsWith Error.OfShape (tagsOf union discriminant) := by
  unfold tagsOf
  split
  · exact .of_ok _
  · exact .of_error trivial

open Resolving

section Define

variable {declarations : List Declaration} {resolve : String → Resolving Layout}

theorem accounts_resolveMember {union : String} {member : MemberDeclaration}
    (reference : Accounts declarations (resolve member.record)) :
    Accounts declarations (resolveMember resolve union member) := by
  apply reference.bind
  intro layout
  cases layout with
  | record record => exact .pure _
  | scalar _ _ | enumeration _ | flags _ | union _ => exact .throw trivial

theorem accounts_resolveTag {union : String} {discriminator : DiscriminatorDeclaration}
    {discriminant : Option String} {members : List ResolvedMember}
    (references : ∀ reference ∈ discriminant, Accounts declarations (resolve reference)) :
    Accounts declarations (resolveTag resolve union discriminator discriminant members) := by
  cases discriminator with
  | key key =>
      cases discriminant with
      | none => exact .throw trivial
      | some reference =>
          apply (references reference rfl).bind
          intro layout
          split
          · exact .throw trivial
          · exact (Accounts.lift (shape_tagsOf union layout)).bind fun _ => .pure _
  | path path =>
      apply (Accounts.lift (shape_commonTag union path members)).bind
      intro common
      cases common with
      | none => exact .throw trivial
      | some placed =>
          cases discriminant with
          | none => exact .pure _
          | some reference =>
              apply (references reference rfl).bind
              intro layout
              split
              · exact .pure _
              · exact .throw trivial

theorem accounts_resolveField {record : RecordLayout} {field : FieldDeclaration}
    (reference : Accounts declarations (resolve field.type)) :
    Accounts declarations (resolveField resolve record field) := by
  have behind := reference.bind fun layout => .lift (record.shape_append field layout)
  unfold resolveField
  split
  · refine Accounts.bind (.throw ?_) fun _ => behind
    trivial
  · exact behind

theorem accounts_resolveRecord {name : String} {size : Option UInt64}
    {fields : List FieldDeclaration}
    (references : ∀ field ∈ fields, Accounts declarations (resolve field.type)) :
    Accounts declarations (resolveRecord resolve name size fields) := by
  apply Accounts.bind
    (.foldlM (fun _ field among => accounts_resolveField (references field among)) _)
  intro record
  cases size with
  | none => exact .pure _
  | some declared =>
      dsimp only
      split
      · exact .pure _
      · exact .throw trivial

theorem accounts_settle (layout : Layout) : Accounts declarations (define.settle layout) := by
  refine (Accounts.modify fun schema => ?_).bind fun _ => .pure _
  rintro ⟨name, other⟩ known
  rw [Schema.mem_entries_iff] at known ⊢
  exact known.imp_left fun ⟨listed, named⟩ => ⟨List.mem_append_left _ listed, named⟩

theorem accounts_resolveUnion {name : String} {discriminator : DiscriminatorDeclaration}
    {discriminant : Option String} {members : List MemberDeclaration}
    (records : ∀ member ∈ members, Accounts declarations (resolve member.record))
    (tag : ∀ reference ∈ discriminant, Accounts declarations (resolve reference)) :
    Accounts declarations (resolveUnion resolve name discriminator discriminant members) := by
  apply Accounts.bind (.mapM fun member among => accounts_resolveMember (records member among))
  intro resolved
  apply (accounts_resolveTag tag).bind
  intro placed
  exact .lift (UnionLayout.shape_ofMembers _ _ _ _)

/-- Settling a declaration accounts for its failures as looking up its references does. -/
theorem accounts_define {declaration : Declaration}
    (references : ∀ reference ∈ declaration.references, Accounts declarations (resolve reference)) :
    Accounts declarations (define resolve declaration) := by
  match declaration with
  | .primitive name size =>
      exact (Accounts.lift (Scalar.shape_ofDeclaration name size.toNat)).bind
        fun scalar => accounts_settle _
  | .alias name target =>
      apply (references target List.mem_cons_self).bind
      intro layout
      refine (Accounts.modify fun schema => ?_).bind fun _ => .pure _
      rintro ⟨other, found⟩ known
      rw [Schema.mem_entries_iff] at known ⊢
      exact known.imp_right (List.mem_append_left _)
  | .enumeration name underlying constants isFlags =>
      apply (references underlying List.mem_cons_self).bind
      intro layout
      exact (Accounts.lift (ConstantSet.shape_ofDeclaration _ _ _ _)).bind
        fun set => accounts_settle _
  | .record name size fields =>
      have parts : Accounts declarations (resolveRecord resolve name size fields) := by
        apply accounts_resolveRecord
        intro field among
        exact references _ (List.mem_map_of_mem among)
      exact parts.bind fun record => accounts_settle _
  | .union name discriminator discriminant members =>
      have parts : Accounts declarations
          (resolveUnion resolve name discriminator discriminant members) := by
        apply accounts_resolveUnion
        · intro member among
          exact references _ (List.mem_append_left _ (List.mem_map_of_mem among))
        · intro reference declared
          exact references _ (List.mem_append_right _ (Option.mem_toList.mpr declared))
      exact parts.bind fun union => accounts_settle _

end Define

variable {declarations : List Declaration}

/-- A name can be looked up if it is declared or referred to. -/
def Mentioned (declarations : List Declaration) (name : String) : Prop :=
  ∃ declaration ∈ declarations, declaration.name = name ∨ name ∈ declaration.references

theorem justified_unknownType {schema : Schema} {name : String}
    (mentioned : Mentioned declarations name)
    (undeclared : declarations.find? (fun declaration => declaration.name == name) = none)
    (known : schema.KnowsBuiltIns declarations) (unknown : schema.find? name = none) :
    (Error.unknownType name).Justified declarations := by
  have free : ∀ declaration ∈ declarations, declaration.name ≠ name := by
    simpa using undeclared
  refine ⟨free, ?_, ?_⟩
  · intro scalar member
    have entry := known (Schema.mem_entries_builtIn.mpr ⟨free, scalar, member, rfl⟩)
    exact Schema.find?_eq_none_iff.mp unknown _ entry rfl
  · obtain ⟨declaration, declared, named | among⟩ := mentioned
    · exact absurd named (free declaration declared)
    · exact ⟨declaration, declared, among⟩

/-- A lookup is justified in its failures while the open names lead to the one that is looked
up. -/
theorem accounts_resolveNested {overrun : Resolving Layout}
    (overruns : Accounts declarations overrun) {depth : Nat} {stack : List String} {name : String}
    (mentioned : Mentioned declarations name)
    (path : ∀ opened ∈ stack, Relation.TransGen (Refers declarations) opened name) :
    Accounts declarations (resolveNested overrun declarations depth stack name) := by
  induction depth generalizing stack name with
  | zero => exact overruns
  | succ depth ih =>
      apply Accounts.get_bind
      intro schema known
      cases found : schema.find? name with
      | some layout => exact .pure layout
      | none =>
          cases selected : declarations.find? (fun declaration => declaration.name == name) with
          | none =>
              exact .throw (justified_unknownType mentioned selected known found)
          | some declaration =>
              have declared := List.mem_of_find?_eq_some selected
              have named : declaration.name = name := by
                simpa using List.find?_some selected
              dsimp only
              split
              · rename_i opened
                apply Accounts.throw
                exact path name (List.contains_iff_mem.mp opened)
              · apply accounts_define
                intro reference among
                have refers : Refers declarations name reference :=
                  ⟨declaration, declared, named, among⟩
                apply ih ⟨declaration, declared, .inr among⟩
                intro opened inside
                cases inside with
                | head => exact .single refers
                | tail _ inside => exact .tail (path opened inside) refers

/-- With nothing open, lookups are nested no deeper than there are declarations, and one more. -/
theorem resolve_eq_resolveNested_length (overrun : Resolving Layout) (name : String) :
    resolve declarations declarations name =
      resolveNested overrun declarations (declarations.length + 1) [] name := by
  have all : unopened declarations [] = declarations := List.filter_true declarations
  calc
    resolve declarations declarations name =
        resolve declarations (unopened declarations []) name := by rw [all]
    _ = resolveNested overrun declarations (declarations.length + 1) [] name :=
      resolve_eq_resolveNested (by rw [all]; omega)

end Declaration

/-- Whatever a name that means something refers to means something. -/
theorem Means.of_reference {declarations : List Declaration}
    (distinct : (declarations.map Declaration.name).Nodup) {name reference : String}
    {layout : Layout} (means : Means declarations name layout)
    (refers : Refers declarations name reference) : ∃ part, Means declarations reference part := by
  obtain ⟨declaration, declared, rfl, among⟩ := refers
  obtain ⟨parts, references, -⟩ := means.exists_parts distinct declared
  obtain ⟨part, -, means⟩ := exists_mem_of_forall₂ references among
  exact ⟨part, means⟩

namespace Schema

open Resolving

variable {declarations : List Declaration}

/-- A list of declarations is refused for what it refers to only where this is justified. -/
theorem failsWith_ofDeclarations (declarations : List Declaration) :
    FailsWith (Error.Justified declarations) (ofDeclarations declarations) := by
  have each : ∀ declaration ∈ declarations,
      Accounts declarations (discard (resolve declarations declarations declaration.name)) := by
    intro declaration declared
    have overruns : Accounts declarations (throw .io : Resolving Layout) := .throw trivial
    rw [resolve_eq_resolveNested_length (throw .io)]
    refine Accounts.bind ?_ fun _ => .pure _
    exact accounts_resolveNested overruns ⟨declaration, declared, .inl rfl⟩ nofun
  have runs : FailsWith (Error.Justified declarations)
      ((declarations.forM fun declaration =>
        discard (resolve declarations declarations declaration.name)).run (builtIn declarations)) :=
    (Accounts.forM each).fails _ (List.Subset.refl _)
  unfold ofDeclarations
  cases repeatedName? [] declarations with
  | some name => exact .of_error trivial
  | none => exact runs.andReturn Prod.snd

/-- Of an accepted list, no name refers to itself, not even through others. -/
theorem not_reaches_self_of_ofDeclarations {schema : Schema}
    (accepted : ofDeclarations declarations = .ok schema) (name : String) :
    ¬Relation.TransGen (Refers declarations) name name := by
  intro cycle
  obtain ⟨_, ⟨declaration, declared, rfl, _⟩, _⟩ := Relation.TransGen.head'_iff.mp cycle
  obtain ⟨distinct, means⟩ := exists_ofDeclarations_iff.mp ⟨schema, accepted⟩
  obtain ⟨layout, means⟩ := means declaration declared
  exact means.not_reaches_self distinct cycle

/-- Of an accepted list, each reference is to a declared or a built-in name. -/
theorem declared_or_builtIn_of_ofDeclarations {schema : Schema}
    (accepted : ofDeclarations declarations = .ok schema) {declaration : Declaration}
    (declared : declaration ∈ declarations) {reference : String}
    (among : reference ∈ declaration.references) :
    (∃ other ∈ declarations, other.name = reference) ∨
      ∃ scalar, (reference, scalar) ∈ Scalar.builtIns := by
  obtain ⟨distinct, means⟩ := exists_ofDeclarations_iff.mp ⟨schema, accepted⟩
  obtain ⟨layout, means⟩ := means declaration declared
  obtain ⟨part, means⟩ := means.of_reference distinct ⟨declaration, declared, rfl, among⟩
  cases means with
  | builtIn _ member => exact .inr ⟨_, member⟩
  | declared member named => exact .inl ⟨_, member, named⟩

/-- Lookups end whatever is declared, an accepted list has neither cycles nor dangling references,
and a list is only refused for such where it has them. -/
theorem references_settled (declarations : List Declaration) :
    (∀ overrun name, resolve declarations declarations name =
      resolveNested overrun declarations (declarations.length + 1) [] name) ∧
    (∀ schema, ofDeclarations declarations = .ok schema →
      (∀ declaration ∈ declarations,
        ¬Relation.TransGen (Refers declarations) declaration.name declaration.name) ∧
      ∀ declaration ∈ declarations, ∀ reference ∈ declaration.references,
        (∃ other ∈ declarations, other.name = reference) ∨
          ∃ scalar, (reference, scalar) ∈ Scalar.builtIns) ∧
    (∀ name, ofDeclarations declarations = .error (.recursiveType name) →
      Relation.TransGen (Refers declarations) name name) ∧
    ∀ name, ofDeclarations declarations = .error (.unknownType name) →
      (∀ declaration ∈ declarations, declaration.name ≠ name) ∧
        (∀ scalar, (name, scalar) ∉ Scalar.builtIns) ∧
          ∃ declaration ∈ declarations, name ∈ declaration.references := by
  refine ⟨resolve_eq_resolveNested_length, ?_, ?_, ?_⟩
  · intro schema accepted
    constructor
    · intro declaration _
      exact not_reaches_self_of_ofDeclarations accepted declaration.name
    · intro declaration declared reference among
      exact declared_or_builtIn_of_ofDeclarations accepted declared among
  · intro name refused
    exact failsWith_ofDeclarations declarations _ refused
  · intro name refused
    exact failsWith_ofDeclarations declarations _ refused

end Schema

/-- Schemas are the same if they have the same layouts under the same names. -/
instance : DecidableEq Schema := fun first second =>
  decidable_of_iff (first.table = second.table ∧ first.aliases = second.aliases) <| by
    cases first
    cases second
    simp

namespace Sample

/-- Two records that contain each other. -/
def circular : List Declaration :=
  [.alias "Count" "u16",
    .record "Node" none [⟨"count", "Count", none⟩, ⟨"next", "Link", none⟩],
    .record "Link" none [⟨"node", "Node", some 2⟩]]

/-- A union whose tags are not declared. -/
def untagged : List Declaration :=
  [.union "Event" (.key "kind") (some "Kind") [.named "Tick"], .record "Tick" none []]

end Sample

theorem Schema.sample_references_settled :
    (∀ declaration ∈ Sample.declarations,
      ¬Relation.TransGen (Refers Sample.declarations) declaration.name declaration.name) ∧
    (ofDeclarations Sample.circular = .error (.recursiveType "Node") ∧
      Relation.TransGen (Refers Sample.circular) "Node" "Node") ∧
    ofDeclarations Sample.untagged = .error (.unknownType "Kind") ∧
      ∃ declaration ∈ Sample.untagged, "Kind" ∈ declaration.references := by
  obtain ⟨-, accepted, -, -⟩ := references_settled Sample.declarations
  obtain ⟨-, -, recursive, -⟩ := references_settled Sample.circular
  obtain ⟨-, -, -, unknown⟩ := references_settled Sample.untagged
  have circular : ofDeclarations Sample.circular = .error (.recursiveType "Node") := by
    decide +kernel
  have untagged : ofDeclarations Sample.untagged = .error (.unknownType "Kind") := by
    decide +kernel
  exact ⟨(accepted _ Sample.accepted).1, ⟨circular, recursive _ circular⟩, untagged,
    (unknown _ untagged).2.2⟩

end RecordCodec
