import RecordCodec.Proofs.Success

/-!
# Chains of steps that fail

A chain of steps fails with the error of the first step that does.  So each
error of a chain is that of one of its steps, and what is true of all their
errors is true of the errors of the chain.
-/

namespace RecordCodec

variable {ε α β : Type} {error : ε}

theorem bind_eq_error {first : Except ε α} {next : α → Except ε β} :
    first >>= next = .error error ↔
      first = .error error ∨ ∃ middle, first = .ok middle ∧ next middle = .error error := by
  cases first with
  | error other => simp [bind, Except.bind]
  | ok middle => simp [bind, Except.bind]

@[simp] theorem pure_eq_error {value : α} : (pure value : Except ε α) = .error error ↔ False := by
  simp [pure, Except.pure]

/-- A step at every element of a list fails as it does at one of them. -/
theorem exists_error_of_mapM {step : α → Except ε β} {items : List α}
    (failed : items.mapM step = .error error) : ∃ item ∈ items, step item = .error error := by
  induction items with
  | nil => cases failed
  | cons item rest ih =>
      simp only [List.mapM_cons, bind_eq_error, pure_eq_error, and_false, exists_false,
        or_false] at failed
      rcases failed with first | ⟨_, -, others⟩
      · exact ⟨item, List.mem_cons_self, first⟩
      · obtain ⟨other, among, stepped⟩ := ih others
        exact ⟨other, List.mem_cons_of_mem _ among, stepped⟩

/-- If the run fails, then with one of the errors. -/
def FailsWith (errors : ε → Prop) (run : Except ε α) : Prop :=
  ∀ error, run = .error error → errors error

namespace FailsWith

variable {errors : ε → Prop}

theorem of_ok (value : α) : FailsWith errors (.ok value) :=
  nofun

theorem of_error (cause : errors error) : FailsWith errors (.error error : Except ε α) := by
  rintro _ ⟨⟩
  exact cause

theorem bind {first : Except ε α} {next : α → Except ε β} (initial : FailsWith errors first)
    (later : ∀ middle, first = .ok middle → FailsWith errors (next middle)) :
    FailsWith errors (first >>= next) := by
  intro error failed
  rcases bind_eq_error.mp failed with stopped | ⟨middle, passed, stopped⟩
  · exact initial error stopped
  · exact later middle passed error stopped

/-- A result that is only changed does not add errors. -/
theorem andReturn {first : Except ε α} (initial : FailsWith errors first) (change : α → β) :
    FailsWith errors (first >>= fun middle => Pure.pure (change middle)) :=
  initial.bind fun _ _ => of_ok _

theorem mapM {step : α → Except ε β} {items : List α}
    (each : ∀ item ∈ items, FailsWith errors (step item)) : FailsWith errors (items.mapM step) := by
  intro error failed
  obtain ⟨item, among, stopped⟩ := exists_error_of_mapM failed
  exact each item among error stopped

theorem foldlM {step : β → α → Except ε β} {items : List α}
    (each : ∀ sofar, ∀ item ∈ items, FailsWith errors (step sofar item)) (start : β) :
    FailsWith errors (items.foldlM step start) := by
  induction items generalizing start with
  | nil => exact of_ok start
  | cons item rest ih =>
      rw [List.foldlM_cons]
      apply (each start item List.mem_cons_self).bind
      intro sofar _
      exact ih (fun sofar other among => each sofar other (List.mem_cons_of_mem _ among)) sofar

end FailsWith

end RecordCodec
