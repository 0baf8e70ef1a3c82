import Mathlib.Data.List.TakeWhile
import RecordCodec.Text.Character

/-!
# Texts between blanks

A text is blanks, what is left of it when it is trimmed, and blanks again.  What is left begins and
ends with other characters, which tells it from everything else that might be taken out.
-/

namespace RecordCodec

namespace Text

/-- The characters are blank. -/
def AllBlank (characters : List Char) : Prop :=
  ∀ character ∈ characters, isBlank character = true

/-- No blank is at either end. -/
def Bare (characters : List Char) : Prop :=
  ∀ character, characters.head? = some character ∨ characters.getLast? = some character →
    isBlank character = false

theorem dropWhile_of_allBlank {front rest : List Char} (blank : AllBlank front)
    (bare : ∀ character, rest.head? = some character → isBlank character = false) :
    (front ++ rest).dropWhile isBlank = rest := by
  rw [List.dropWhile_append_of_pos blank]
  cases rest with
  | nil => rfl
  | cons character rest => rw [List.dropWhile_cons, bare character rfl, if_neg nofun]

theorem head?_dropWhile {characters : List Char} {character : Char}
    (first : (characters.dropWhile isBlank).head? = some character) :
    isBlank character = false := by
  have stopped := List.head?_dropWhile_not isBlank characters
  rwa [first] at stopped

/-- Trimming takes the blanks away from both ends. -/
theorem trim_eq {before trimmed behind : List Char} (blank : AllBlank (before ++ behind))
    (bare : Bare trimmed) : trim (before ++ trimmed ++ behind) = trimmed := by
  have first : AllBlank before := fun _ member => blank _ (List.mem_append_left _ member)
  have last : AllBlank behind := fun _ member => blank _ (List.mem_append_right _ member)
  cases trimmed with
  | nil =>
      rw [List.append_nil, trim, List.dropWhile_eq_nil_iff.mpr blank]
      rfl
  | cons character rest =>
      have front : (before ++ (character :: rest ++ behind)).dropWhile isBlank =
          character :: rest ++ behind := by
        refine dropWhile_of_allBlank first ?_
        rintro _ ⟨⟩
        exact bare character (.inl rfl)
      have back : (behind.reverse ++ (character :: rest).reverse).dropWhile isBlank =
          (character :: rest).reverse := by
        refine dropWhile_of_allBlank (fun _ member => last _ (List.mem_reverse.mp member)) ?_
        intro other final
        rw [List.head?_reverse] at final
        exact bare other (.inr final)
      rw [List.append_assoc, trim, front, List.reverse_append, back, List.reverse_reverse]

/-- A text is what is left of it, between blanks. -/
theorem exists_around_trim (characters : List Char) :
    ∃ before behind, characters = before ++ trim characters ++ behind ∧
      AllBlank (before ++ behind) ∧ Bare (trim characters) := by
  have front : characters.takeWhile isBlank ++ characters.dropWhile isBlank = characters :=
    List.takeWhile_append_dropWhile
  have back : trim characters ++
      ((characters.dropWhile isBlank).reverse.takeWhile isBlank).reverse =
        characters.dropWhile isBlank := by
    rw [trim, ← List.reverse_append, List.takeWhile_append_dropWhile, List.reverse_reverse]
  refine ⟨characters.takeWhile isBlank,
    ((characters.dropWhile isBlank).reverse.takeWhile isBlank).reverse, ?_, ?_, ?_⟩
  · rw [List.append_assoc, back, front]
  · intro character member
    rcases List.mem_append.mp member with before | behind
    · exact List.mem_takeWhile_imp before
    · exact List.mem_takeWhile_imp (List.mem_reverse.mp behind)
  · rintro character (first | last)
    · have opened : (characters.dropWhile isBlank).head? = some character := by
        rw [← back, List.head?_append, first]
        rfl
      exact head?_dropWhile opened
    · rw [trim, List.getLast?_reverse] at last
      exact head?_dropWhile last

theorem byteLength_append (front behind : List Char) :
    byteLength (front ++ behind) = byteLength front + byteLength behind := by
  induction front with
  | nil => exact (Nat.zero_add _).symm
  | cons character rest ih =>
      calc byteLength (character :: rest ++ behind)
          = character.utf8Size + byteLength (rest ++ behind) := rfl
        _ = character.utf8Size + byteLength rest + byteLength behind := by
            rw [ih, Nat.add_assoc]

end Text

end RecordCodec
