import Mathlib.Data.List.Nodup

/-!
# Lists with distinct keys

Constants, fields and variants are all found as the first element with a
name or a value.  Where no two elements share that key, the first one is the
only one.
-/

namespace RecordCodec

variable {α β : Type} {key : α → β} {items : List α}

theorem eq_of_key_eq (distinct : (items.map key).Nodup) {first second : α}
    (firstMember : first ∈ items) (secondMember : second ∈ items)
    (keys : key first = key second) : first = second :=
  List.inj_on_of_nodup_map distinct firstMember secondMember keys

variable [BEq β] [LawfulBEq β]

/-- With distinct keys, what is found under a key is the element with that key. -/
theorem find?_key_eq_some (distinct : (items.map key).Nodup) {wanted : β} {item : α} :
    items.find? (fun other => key other == wanted) = some item ↔
      item ∈ items ∧ key item = wanted := by
  constructor
  · intro found
    exact ⟨List.mem_of_find?_eq_some found, by simpa using List.find?_some found⟩
  · rintro ⟨member, rfl⟩
    have present : (items.find? (fun other => key other == key item)).isSome := by
      rw [List.find?_isSome]
      exact ⟨item, member, by simp⟩
    obtain ⟨other, found⟩ := Option.isSome_iff_exists.mp present
    have same := eq_of_key_eq distinct (List.mem_of_find?_eq_some found) member
      (by simpa using List.find?_some found)
    rw [found, same]

/-! Writing, reading and showing a union all run along its variants to the
first one with a name or a tag. -/

section FirstWithKey

variable {γ : Sort*} (choice : List α → γ) {wanted : β} [DecidableEq β]

/-- What is chosen by running along a list is what the element that is found is used for. -/
theorem choice_eq_of_found {use : α → γ}
    (step : ∀ first rest,
      choice (first :: rest) = if key first = wanted then use first else choice rest)
    {item : α} (found : items.find? (fun other => key other == wanted) = some item) :
    choice items = use item := by
  induction items with
  | nil => cases found
  | cons first rest ih =>
      rw [step]
      by_cases same : key first = wanted
      · simp only [List.find?_cons, beq_iff_eq.mpr same, Option.some.injEq] at found
        rw [if_pos same, found]
      · simp only [List.find?_cons, beq_eq_false_iff_ne.mpr same] at found
        rw [if_neg same, ih found]

/-- If nothing is chosen at the end of the list, some element is found. -/
theorem exists_found_of_choice
    (skips : ∀ first rest, key first ≠ wanted → choice (first :: rest) = choice rest)
    (chosen : γ → Prop) (rejects : ¬chosen (choice [])) (accepts : chosen (choice items)) :
    ∃ item, items.find? (fun other => key other == wanted) = some item := by
  induction items with
  | nil => exact absurd accepts rejects
  | cons first rest ih =>
      by_cases same : key first = wanted
      · exact ⟨first, by simp [same]⟩
      · rw [skips first rest same] at accepts
        simp only [List.find?_cons, beq_eq_false_iff_ne.mpr same]
        exact ih accepts

end FirstWithKey

end RecordCodec
