import Mathlib.Data.List.Forall2

/-!
# Chains of steps that succeed

A chain of steps that may fail succeeds exactly when each of its steps does.
These facts take such a chain apart, for single steps, for a step at every
element of a list, and for a step repeated along a list.
-/

namespace RecordCodec

variable {ε α β γ : Type}

@[simp] theorem bind_eq_ok {first : Except ε α} {next : α → Except ε β} {result : β} :
    first >>= next = .ok result ↔ ∃ middle, first = .ok middle ∧ next middle = .ok result := by
  cases first with
  | error error => simp [bind, Except.bind]
  | ok middle => simp [bind, Except.bind]

@[simp] theorem map_eq_ok {first : Except ε α} {change : α → β} {result : β} :
    change <$> first = .ok result ↔ ∃ middle, first = .ok middle ∧ change middle = result := by
  cases first with
  | error error => simp [Functor.map, Except.map]
  | ok middle => simp [Functor.map, Except.map]

@[simp] theorem pure_eq_ok {value result : α} :
    (pure value : Except ε α) = .ok result ↔ value = result := by
  simp [pure, Except.pure]

@[simp] theorem throw_eq_ok {error : ε} {result : α} :
    (throw error : Except ε α) = .ok result ↔ False := by
  simp [throw, throwThe, MonadExceptOf.throw]

/-- What succeeds gives whatever is taken out of it. -/
theorem eq_ok_getD {result : Except ε α} (succeeds : result.isOk = true) (fallback : α) :
    result = .ok (result.toOption.getD fallback) := by
  cases result with
  | ok value => rfl
  | error error => cases succeeds

theorem eq_some_getD {found : Option α} (present : found.isSome = true) (fallback : α) :
    found = some (found.getD fallback) := by
  rw [← Option.get_eq_getD found, Option.some_get]
  exact present

/-- A step at every element of a list succeeds when it does at each of them. -/
theorem mapM_eq_ok {step : α → Except ε β} {items : List α} {results : List β} :
    items.mapM step = .ok results ↔
      List.Forall₂ (fun item result => step item = .ok result) items results := by
  induction items generalizing results with
  | nil =>
      rw [List.mapM_nil, pure_eq_ok, List.forall₂_nil_left_iff, eq_comm]
  | cons item rest ih =>
      simp only [List.mapM_cons, bind_eq_ok, pure_eq_ok, List.forall₂_cons_left_iff, ih]
      constructor
      · rintro ⟨result, stepped, others, mapped, rfl⟩
        exact ⟨result, others, stepped, mapped, rfl⟩
      · rintro ⟨result, others, stepped, mapped, rfl⟩
        exact ⟨result, stepped, others, mapped, rfl⟩

theorem mapM_congr {step other : α → Except ε β} {items : List α}
    (same : ∀ item ∈ items, step item = other item) : items.mapM step = items.mapM other := by
  induction items with
  | nil => rfl
  | cons item rest ih =>
      rw [List.mapM_cons, List.mapM_cons, same item List.mem_cons_self,
        ih fun other among => same other (List.mem_cons_of_mem _ among)]

/-- A step whose results are changed gives the changed results. -/
theorem mapM_eq_map_mapM {step : α → Except ε β} {other : α → Except ε γ} {change : β → γ}
    (each : ∀ item, other item = change <$> step item) (items : List α) :
    items.mapM other = List.map change <$> items.mapM step := by
  induction items with
  | nil => rfl
  | cons item rest ih =>
      simp only [List.mapM_cons, each, ih, map_bind, bind_map_left, map_pure, List.map_cons]

/-- Each element is related to something exactly when all are to a list of such. -/
theorem exists_forall₂_iff {related : α → β → Prop} {items : List α} :
    (∃ results, List.Forall₂ related items results) ↔
      ∀ item ∈ items, ∃ result, related item result := by
  induction items with
  | nil => simp
  | cons item rest ih =>
      simp only [List.forall_mem_cons, ← ih, List.forall₂_cons_left_iff]
      constructor
      · rintro ⟨_, result, results, first, others, rfl⟩
        exact ⟨⟨result, first⟩, results, others⟩
      · rintro ⟨⟨result, first⟩, results, others⟩
        exact ⟨_, result, results, first, others, rfl⟩

theorem exists_mem_of_forall₂ {related : α → β → Prop} {items : List α} {results : List β}
    (each : List.Forall₂ related items results) {item : α} (member : item ∈ items) :
    ∃ result ∈ results, related item result := by
  induction each with
  | nil => cases member
  | @cons first result rest results related _ ih =>
      rcases List.mem_cons.mp member with rfl | inRest
      · exact ⟨result, List.mem_cons_self, related⟩
      · obtain ⟨other, among, same⟩ := ih inRest
        exact ⟨other, List.mem_cons_of_mem _ among, same⟩

theorem eq_of_forall₂ {first second : α → β → Prop}
    (unique : ∀ item left right, first item left → second item right → left = right)
    {items : List α} {lefts rights : List β} (leftRelated : List.Forall₂ first items lefts)
    (rightRelated : List.Forall₂ second items rights) : lefts = rights := by
  induction leftRelated generalizing rights with
  | nil =>
      cases rightRelated
      rfl
  | cons left _ ih =>
      cases rightRelated with
      | cons right others => rw [unique _ _ _ left right, ih others]

theorem forall₂_trans {related : α → α → Prop} {items others lasts : List α}
    (trans : ∀ item ∈ items, ∀ other last, related item other → related other last →
      related item last)
    (first : List.Forall₂ related items others) (second : List.Forall₂ related others lasts) :
    List.Forall₂ related items lasts := by
  induction first generalizing lasts with
  | nil => exact second
  | cons head _ ih =>
      cases second with
      | cons headToo rest =>
          obtain ⟨transHead, transRest⟩ := List.forall_mem_cons.mp trans
          exact .cons (transHead _ _ head headToo) (ih transRest rest)

theorem map_eq_map_of_forall₂ {left : α → γ} {right : β → γ} {items : List α} {results : List β}
    (each : List.Forall₂ (fun item result => left item = right result) items results) :
    items.map left = results.map right := by
  rwa [← List.forall₂_eq_eq_eq, List.forall₂_map_left_iff, List.forall₂_map_right_iff]

theorem exists_mapM_eq_ok {step : α → Except ε β} {items : List α} :
    (∃ results, items.mapM step = .ok results) ↔
      ∀ item ∈ items, ∃ result, step item = .ok result := by
  simp only [mapM_eq_ok, exists_forall₂_iff]

/-- What holds at the start and is kept by each step, with the elements that
have been passed, holds at the end with all elements. -/
theorem foldlM_keeps (kept : List α → β → Prop) {step : β → α → Except ε β} {items : List α}
    {start result : β} (folded : items.foldlM step start = .ok result) (starts : kept [] start)
    (keeps : ∀ passed before item after, item ∈ items → kept passed before →
      step before item = .ok after → kept (passed ++ [item]) after) : kept items result := by
  suffices general : ∀ rest passed before, passed ++ rest = items → kept passed before →
      rest.foldlM step before = .ok result → kept items result from
    general items [] start rfl starts folded
  intro rest
  induction rest with
  | nil =>
      intro passed before split sofar folded
      rw [List.foldlM_nil, pure_eq_ok] at folded
      simpa [← split, folded] using sofar
  | cons item rest ih =>
      intro passed before split sofar folded
      simp only [List.foldlM_cons, bind_eq_ok] at folded
      obtain ⟨after, stepped, folded⟩ := folded
      have member : item ∈ items := by simp [← split]
      exact ih (passed ++ [item]) after (by simpa using split)
        (keeps passed before item after member sofar stepped) folded

end RecordCodec
