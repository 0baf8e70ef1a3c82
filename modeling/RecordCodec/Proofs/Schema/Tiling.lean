import RecordCodec.Proofs.Schema.Meaning
import RecordCodec.Proofs.Schema.Table

/-!
# How long records are

The fields of a record lie one behind the other, each as long as its elements,
so a record is as long as its fields together.  Nothing but the limit and a
declared size can keep fields of known types from making a record: the lengths
are added up as exact numbers, and the first field with which their running sum
passes the limit is the one that is reported.
-/

namespace RecordCodec

/-- The fields of a record of the schema lie one behind the other without gaps. -/
structure RecordLayout.Gapless (schema : Schema) (record : RecordLayout) : Prop where
  names : (record.fields.map FieldLayout.name).Nodup
  first : ∀ field, record.fields[0]? = some field → field.offset = 0
  next : ∀ index field following, record.fields[index]? = some field →
    record.fields[index + 1]? = some following → following.offset = field.offset + field.length
  /-- The types of the fields are in the table. -/
  elements : ∀ field ∈ record.fields, field.element ∈ schema.table
  lengths : ∀ field ∈ record.fields,
    field.length = field.element.slotLength * field.count.getD 1
  /-- The number of bytes of a field is a number of 64 bits. -/
  exact : ∀ field ∈ record.fields, field.element.slotLength * field.count.getD 1 < 2 ^ 64
  sum : record.length = FieldLayout.total record.fields
  bounded : record.length ≤ layoutLimit

/-! ## The fields of a declaration -/

namespace FieldDeclaration

/-- The number of bytes of a declared field whose type has the layout. -/
def extent (field : FieldDeclaration × Layout) : Nat :=
  field.2.slotLength * (field.1.length.map UInt64.toNat).getD 1

/-- The number of bytes of declared fields together. -/
def total : List (FieldDeclaration × Layout) → Nat
  | [] => 0
  | field :: rest => extent field + total rest

variable {fields : List (FieldDeclaration × Layout)}

/-- A running sum that ends above a limit passes it with one of the fields. -/
theorem exists_passing {limit start : Nat} (below : start ≤ limit)
    (above : limit < start + total fields) :
    ∃ front field back, fields = front ++ field :: back ∧ start + total front ≤ limit ∧
      limit < start + total front + extent field := by
  induction fields generalizing start with
  | nil => exact absurd above (Nat.not_lt.mpr below)
  | cons first rest ih =>
      rcases Nat.lt_or_ge limit (start + extent first) with passes | inside
      · exact ⟨[], first, rest, rfl, below, passes⟩
      · rw [total, ← Nat.add_assoc] at above
        obtain ⟨front, field, back, rfl, room, passes⟩ := ih inside above
        rw [Nat.add_assoc start, ← total] at room passes
        exact ⟨first :: front, field, back, rfl, room, passes⟩

end FieldDeclaration

namespace RecordLayout

open FieldDeclaration

/-- The record with a declared field behind the others. -/
def push (record : RecordLayout) (field : FieldDeclaration × Layout) : RecordLayout :=
  ⟨record.name,
    record.fields ++ [⟨field.1.name, field.2, field.1.length.map UInt64.toNat, record.length,
      extent field⟩],
    record.length + extent field⟩

variable {record : RecordLayout} {field : FieldDeclaration × Layout}
  {fields front back : List (FieldDeclaration × Layout)}

theorem name_foldl_push : (fields.foldl push record).name = record.name := by
  induction fields generalizing record with
  | nil => rfl
  | cons field rest ih => exact ih

theorem names_foldl_push :
    (fields.foldl push record).fields.map FieldLayout.name =
      record.fields.map FieldLayout.name ++ fields.map fun field => field.1.name := by
  induction fields generalizing record with
  | nil => simp
  | cons field rest ih => simp [ih, push]

theorem length_foldl_push : (fields.foldl push record).length = record.length + total fields := by
  induction fields generalizing record with
  | nil => rfl
  | cons field rest ih => rw [List.foldl_cons, ih, total, ← Nat.add_assoc, push]

/-- A field with a name of its own is put behind the others if the limit allows it. -/
theorem extend_eq (fresh : field.1.name ∉ record.fields.map FieldLayout.name) :
    record.extend field =
      if record.length + extent field ≤ layoutLimit then .ok (record.push field)
      else .error (.layoutTooLarge record.name field.1.name layoutLimit) := by
  have free : record.hasField field.1.name = false := by simpa [hasField] using fresh
  rw [extend, free]
  rfl

/-- Fields with names of their own are put behind a record if the limit allows all of them. -/
theorem foldlM_extend_eq_ok (record : RecordLayout)
    (names : (record.fields.map FieldLayout.name ++ fields.map fun field => field.1.name).Nodup)
    (fits : record.length + total fields ≤ layoutLimit) :
    fields.foldlM extend record = .ok (fields.foldl push record) := by
  induction fields generalizing record with
  | nil => rfl
  | cons field rest ih =>
      have fresh : field.1.name ∉ record.fields.map FieldLayout.name :=
        fun taken => (List.nodup_append.mp names).2.2 _ taken _ List.mem_cons_self rfl
      rw [total, ← Nat.add_assoc] at fits
      have room : record.length + extent field ≤ layoutLimit := Nat.le_of_add_right_le fits
      rw [List.foldlM_cons, extend_eq fresh, if_pos room]
      exact ih _ (by simpa [push] using names) fits

/-- The first field with which the limit is passed is reported. -/
theorem foldlM_extend_eq_error (record : RecordLayout)
    (names : (record.fields.map FieldLayout.name ++
      (front ++ field :: back).map fun field => field.1.name).Nodup)
    (fits : record.length + total front ≤ layoutLimit)
    (passes : layoutLimit < record.length + total front + extent field) :
    (front ++ field :: back).foldlM extend record =
      .error (.layoutTooLarge record.name field.1.name layoutLimit) := by
  rw [List.map_append, List.map_cons, ← List.append_assoc] at names
  have fresh : field.1.name ∉ (front.foldl push record).fields.map FieldLayout.name := by
    rw [names_foldl_push]
    exact fun taken => (List.nodup_append.mp names).2.2 _ taken _ List.mem_cons_self rfl
  have first := foldlM_extend_eq_ok record (List.nodup_append.mp names).1 fits
  have stops : (front.foldl push record).extend field =
      .error (.layoutTooLarge record.name field.1.name layoutLimit) := by
    rw [extend_eq fresh, length_foldl_push, if_neg (Nat.not_le.mpr passes), name_foldl_push]
  rw [List.foldlM_append, first]
  change (field :: back).foldlM extend (front.foldl push record) = _
  rw [List.foldlM_cons, stops]
  rfl

end RecordLayout

namespace Declaration

open FieldDeclaration RecordLayout

variable {resolve : String → Resolving Layout} {before after : Schema}

theorem run_resolveField {record : RecordLayout} {field : FieldDeclaration} {layout : Layout}
    (run : (resolve field.type).run before = .ok (layout, after)) :
    (resolveField resolve record field).run before =
      (fun made => (made, after)) <$> record.extend (field, layout) := by
  unfold resolveField extend
  dsimp only
  split
  · rfl
  · rw [StateT.run_bind, run]
    exact Resolving.run_lift _

/-- Where the types of the fields are known, a record is put together from their layouts. -/
theorem run_foldlM_resolveField {fields : List FieldDeclaration} {layouts : List Layout}
    (run : ((fields.map FieldDeclaration.type).mapM resolve).run before = .ok (layouts, after))
    (record : RecordLayout) :
    (fields.foldlM (resolveField resolve) record).run before =
      (fun made => (made, after)) <$> (fields.zip layouts).foldlM extend record := by
  induction fields generalizing before layouts record with
  | nil =>
      obtain ⟨rfl, rfl⟩ := Resolving.run_pure_eq_ok.mp (by rwa [List.map_nil, List.mapM_nil] at run)
      rfl
  | cons field rest ih =>
      simp only [List.map_cons, List.mapM_cons, Resolving.run_bind_eq_ok,
        Resolving.run_pure_eq_ok] at run
      obtain ⟨layout, between, first, others, _, runs, rfl, rfl⟩ := run
      rw [List.foldlM_cons, StateT.run_bind, run_resolveField first, List.zip_cons_cons,
        List.foldlM_cons]
      cases record.extend (field, layout) with
      | error error => rfl
      | ok extended => exact ih runs extended

theorem run_resolveRecord {fields : List FieldDeclaration} {layouts : List Layout}
    (run : ((fields.map FieldDeclaration.type).mapM resolve).run before = .ok (layouts, after))
    (name : String) (size : Option UInt64) :
    (resolveRecord resolve name size fields).run before =
      (fun made => (made, after)) <$> recordOf name size (fields.zip layouts) := by
  rw [resolveRecord_eq, StateT.run_bind, run_foldlM_resolveField run, recordOf]
  cases (fields.zip layouts).foldlM extend ⟨name, [], 0⟩ with
  | error error => rfl
  | ok made => exact Resolving.run_lift (ofSize name size made)

section Fields

variable (name : String) (size : Option UInt64) {fields : List (FieldDeclaration × Layout)}
  (names : (fields.map fun field => field.1.name).Nodup)

include names

/-- Fields with names of their own that pass the limit fail with the first that does. -/
theorem exists_recordOf_eq_error (above : layoutLimit < total fields) :
    ∃ front field back, fields = front ++ field :: back ∧ total front ≤ layoutLimit ∧
      layoutLimit < total front + extent field ∧
      recordOf name size fields = .error (.layoutTooLarge name field.1.name layoutLimit) := by
  obtain ⟨front, field, back, rfl, room, passes⟩ :=
    exists_passing (Nat.zero_le layoutLimit) (by rwa [Nat.zero_add])
  have stops := foldlM_extend_eq_error ⟨name, [], 0⟩ names room passes
  rw [Nat.zero_add] at room passes
  refine ⟨front, field, back, rfl, room, passes, ?_⟩
  rw [recordOf, stops]
  rfl

/-- Fields with names of their own make a record if they keep to the limit and to the size. -/
theorem exists_recordOf_iff :
    (∃ record, recordOf name size fields = .ok record) ↔
      total fields ≤ layoutLimit ∧ ∀ declared ∈ size, declared.toNat = total fields := by
  rcases Nat.lt_or_ge layoutLimit (total fields) with above | fits
  · obtain ⟨front, field, back, -, -, -, failed⟩ :=
      exists_recordOf_eq_error name size names above
    simp [failed, Nat.not_le.mpr above]
  · have start : (⟨name, [], 0⟩ : RecordLayout).length + total fields = total fields :=
      Nat.zero_add _
    have folded := foldlM_extend_eq_ok ⟨name, [], 0⟩ names (by rwa [start])
    simp only [recordOf, folded, bind_eq_ok, Except.ok.injEq, exists_eq_left', fits, true_and]
    cases size with
    | none => simp [ofSize]
    | some declared =>
        simp only [ofSize, length_foldl_push, start, Option.mem_def, Option.some.injEq,
          forall_eq']
        split <;> simp_all

end Fields

end Declaration

namespace Schema

open FieldDeclaration Declaration

variable {declarations : List Declaration} {schema : Schema}

section Accepted

variable (accepted : ofDeclarations declarations = .ok schema)

include accepted

theorem gapless_of_mem {record : RecordLayout} (member : .record record ∈ schema.table) :
    record.Gapless schema := by
  have found := (distinct_of_ofDeclarations accepted).find?_of_mem member
  have tiled := (wellFormed_of_find? accepted found).tiled
  have sorted := (ordered_of_ofDeclarations accepted).sorted
  exact
    { names := tiled.names
      first := fun _ => tiled.tile.first_offset
      next := fun _ _ _ => tiled.tile.next_offset
      elements := fun field among =>
        sorted.mem_of_within (.single (List.mem_map_of_mem among)) member
      lengths := fun _ => tiled.tile.length_eq
      exact := fun field among => by
        have inside := tiled.tile.field_le among
        have bounded := tiled.bounded
        have small : layoutLimit < 2 ^ 64 := by decide
        omega
      sum := by rw [tiled.tile.stop_eq, Nat.zero_add]
      bounded := tiled.bounded }

/-- A record whose size is declared has that length. -/
theorem length_eq_of_declared {name : String} {size : UInt64} {fields : List FieldDeclaration}
    (declared : .record name (some size) fields ∈ declarations) :
    ∃ record, schema.find? name = some (.record record) ∧ record.length = size.toNat := by
  obtain ⟨layout, parts, found, -, assembled⟩ := exists_find?_of_mem accepted declared
  simp only [assemble, recordOf, ofSize, bind_eq_ok, pure_eq_ok] at assembled
  obtain ⟨record, ⟨made, -, sized⟩, rfl⟩ := assembled
  split at sized
  · rename_i same
    obtain rfl := Except.ok.inj sized
    exact ⟨made, found, same.symm⟩
  · cases sized

end Accepted

/-- Records are filled by their fields without gaps, up to the declared size if there is one.
Fields of known types with names of their own make a record exactly if their lengths add up to
the declared size, if there is one, and do not pass the limit; where they pass it, this is
reported of the first field with which they do. -/
theorem records_tile_exactly (declarations : List Declaration) :
    (∀ schema, ofDeclarations declarations = .ok schema →
      (∀ record, .record record ∈ schema.table → record.Gapless schema) ∧
      ∀ name size fields, .record name (some size) fields ∈ declarations →
        ∃ record, schema.find? name = some (.record record) ∧ record.length = size.toNat) ∧
    ∀ (resolve : String → Resolving Layout) before after name size fields layouts,
      ((fields.map FieldDeclaration.type).mapM resolve).run before = .ok (layouts, after) →
      (fields.map FieldDeclaration.name).Nodup →
        ((∃ made, (resolveRecord resolve name size fields).run before = .ok made) ↔
          total (fields.zip layouts) ≤ layoutLimit ∧
            ∀ declared ∈ size, declared.toNat = total (fields.zip layouts)) ∧
        (layoutLimit < total (fields.zip layouts) →
          ∃ front field back, fields.zip layouts = front ++ field :: back ∧
            total front ≤ layoutLimit ∧ layoutLimit < total front + extent field ∧
            (resolveRecord resolve name size fields).run before =
              .error (.layoutTooLarge name field.1.name layoutLimit)) := by
  constructor
  · intro schema accepted
    exact ⟨fun record => gapless_of_mem accepted,
      fun name size fields => length_eq_of_declared accepted⟩
  · intro resolve before after name size fields layouts run distinct
    have length : fields.length = layouts.length := by
      simpa using (Resolving.length_of_run_mapM run).symm
    have names : ((fields.zip layouts).map fun field => field.1.name).Nodup := by
      have listed := List.map_fst_zip (Nat.le_of_eq length)
      have both := List.map_map (f := Prod.fst) (g := FieldDeclaration.name)
        (l := fields.zip layouts)
      rw [listed] at both
      exact both ▸ distinct
    rw [run_resolveRecord run]
    constructor
    · rw [← exists_recordOf_iff name size names]
      simp
    · intro above
      obtain ⟨front, field, back, split, room, passes, failed⟩ :=
        exists_recordOf_eq_error name size names above
      refine ⟨front, field, back, split, room, passes, ?_⟩
      rw [failed]
      rfl

end Schema

namespace Sample

/-- One byte, and behind it as many as the limit allows. -/
def crowded : List FieldDeclaration :=
  [⟨"first", "u8", none⟩, ⟨"data", "char", some 67108864⟩,
    ⟨"rest", "u8", some 18446744073709551615⟩]

/-- A kind is as wide as a byte. -/
def crowdedLayouts : List Layout :=
  [.scalar "u8" (.unsigned kinds.width), .scalar "char" .char,
    .scalar "u8" (.unsigned kinds.width)]

theorem crowded_known :
    ((crowded.map FieldDeclaration.type).mapM (Declaration.resolve [] [])).run (Schema.builtIn []) =
      .ok (crowdedLayouts, Schema.builtIn []) := by
  refine Declaration.run_mapM_resolve_eq_ok.mpr (.known ?_ (.known ?_ (.known ?_ .nil)))
  · decide +kernel
  · decide +kernel
  · decide +kernel

end Sample

theorem Schema.sample_records_tile :
    (Layout.record Sample.scene ∈ Sample.schema.table ∧ Sample.scene.Gapless Sample.schema) ∧
    (∃ record, Sample.schema.find? "Empty" = some (.record record) ∧ record.length = 0) ∧
    ∃ front field back,
      Sample.crowded.zip Sample.crowdedLayouts = front ++ field :: back ∧
        FieldDeclaration.total front ≤ layoutLimit ∧
        layoutLimit < FieldDeclaration.total front + FieldDeclaration.extent field ∧
        (Declaration.resolveRecord (Declaration.resolve [] []) "Crowded" none Sample.crowded).run
          (builtIn []) = .error (.layoutTooLarge "Crowded" field.1.name layoutLimit) := by
  obtain ⟨accepted, -⟩ := records_tile_exactly Sample.declarations
  obtain ⟨gapless, sized⟩ := accepted _ Sample.accepted
  obtain ⟨-, declared⟩ := records_tile_exactly []
  have member : Layout.record Sample.scene ∈ Sample.schema.table := by decide +kernel
  have above : layoutLimit < FieldDeclaration.total (Sample.crowded.zip Sample.crowdedLayouts) := by
    decide +kernel
  refine ⟨⟨member, gapless _ member⟩, sized "Empty" 0 [] (by decide), ?_⟩
  exact (declared _ _ _ "Crowded" none _ _ Sample.crowded_known (by decide)).2 above

end RecordCodec
