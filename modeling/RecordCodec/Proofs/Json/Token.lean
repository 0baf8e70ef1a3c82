import Mathlib.Data.List.TakeWhile
import RecordCodec.Json.Reader
import RecordCodec.Json.Writer
import RecordCodec.Proofs.Text.HexDigit

/-!
# Tokens as they are written

A text, a word or an integer is read character by character until it is the token that was written.
Where a text ends is seen at once; a word and an integer end where a character stands that cannot
continue them.  `Reading.Ends` says that a reading has come to the end of a token, whichever of
these it is.
-/

namespace RecordCodec.Json

/-! ### Integers -/

theorem head?_toDigits_ne_zero {value : Nat} (positive : 0 < value) :
    (Nat.toDigits 10 value).head? ≠ some '0' := by
  induction value using Nat.strongRecOn with
  | ind value ih =>
      rcases Nat.lt_or_ge value 10 with small | large
      · have digits : ∀ digit < 10, 0 < digit → some digit.digitChar ≠ some '0' := by decide
        rw [Nat.toDigits_of_lt_base small]
        exact digits value small positive
      · have front : 0 < value / 10 := Nat.div_pos large (by decide)
        have least := ih (value / 10) (Nat.div_lt_self positive (by decide)) front
        rw [List.head?_eq_some_head Nat.toDigits_ne_nil] at least
        rw [Nat.toDigits_of_base_le (by decide) large, List.head?_append,
          List.head?_eq_some_head Nat.toDigits_ne_nil]
        exact least

theorem isDigit_of_mem_toDigits {value : Nat} :
    ∀ character ∈ Nat.toDigits 10 value, character.isDigit = true :=
  fun _ => Nat.isDigit_of_mem_toDigits (by decide) (by decide)

theorem digitsValue_toDigits (value : Nat) : digitsValue (Nat.toDigits 10 value) = value := by
  have spelled := @Nat.ofDigitChars_ten_toDigits value
  rw [Nat.ofDigitChars_eq_foldl] at spelled
  simp only [Nat.mul_comm 10] at spelled
  exact spelled

/-- The characters of an integer. -/
def integerCharacters (value : Int) : List Char :=
  if value < 0 then '-' :: Nat.toDigits 10 value.natAbs else Nat.toDigits 10 value.natAbs

theorem toList_numberText (value : Int) (fits : -2 ^ 63 ≤ value ∧ value < 2 ^ 64) :
    (numberText (.integer value fits)).toList = integerCharacters value := by
  simp only [numberText, digitsText, integerCharacters]
  split
  · simp
  · simp

theorem splitSign_integerCharacters (value : Int) :
    splitSign (integerCharacters value) = (decide (value < 0), Nat.toDigits 10 value.natAbs) := by
  unfold integerCharacters
  split
  · rename_i negative
    simp [splitSign, negative]
  · rename_i positive
    unfold splitSign
    split
    · rename_i rest same
      have digit := isDigit_of_mem_toDigits '-' (same ▸ List.mem_cons_self)
      exact absurd digit (by decide)
    · simp [positive]

/-- The characters of an integer spell it. -/
theorem number?_integerCharacters (value : Int) (fits : -2 ^ 63 ≤ value ∧ value < 2 ^ 64) :
    number? (integerCharacters value) = some (.integer value fits) := by
  have whole : (Nat.toDigits 10 value.natAbs).takeWhile Char.isDigit =
      Nat.toDigits 10 value.natAbs := List.takeWhile_eq_self_iff.mpr isDigit_of_mem_toDigits
  have rest : (Nat.toDigits 10 value.natAbs).dropWhile Char.isDigit = [] :=
    List.dropWhile_eq_nil_iff.mpr isDigit_of_mem_toDigits
  have plain : ((Nat.toDigits 10 value.natAbs).isEmpty ||
      (Nat.toDigits 10 value.natAbs).head? == some '0' &&
        (Nat.toDigits 10 value.natAbs).length != 1) = false := by
    rcases Nat.eq_zero_or_pos value.natAbs with zero | positive
    · rw [zero]
      rfl
    · simp [Nat.toDigits_ne_nil, head?_toDigits_ne_zero positive]
  have signed : (if decide (value < 0) = true then -(value.natAbs : Int) else value.natAbs) =
      value := by
    split
    · rename_i negative
      have negative := of_decide_eq_true negative
      omega
    · rename_i positive
      have positive : ¬value < 0 := by simpa using positive
      omega
  have notMinusZero : (decide (value < 0) && value.natAbs == 0) = false := by
    rw [Bool.and_eq_false_iff, decide_eq_false_iff_not, beq_eq_false_iff_ne]
    omega
  have found : JsonNumber.ofInt? value = some (.integer value fits) := dif_pos fits
  unfold number?
  simp only [splitSign_integerCharacters, whole, rest, digitsValue_toDigits, plain, notMinusZero,
    signed, found]
  rfl

/-! ### Readings at the end of a token -/

/-- The reading is at the end of a token: the tokens are complete, also if the next character is
one that continues neither a word nor a number. -/
structure Reading.Ends (reading : Reading) (tokens : List Token) : Prop where
  complete : complete? reading = some tokens
  next : ∀ character : Char, character.isLower = false → continuesNumber character = false →
    readCharacter? reading character = begin? tokens character

variable {tokens : List Token}

theorem ends_none (tokens : List Token) : Reading.Ends ⟨tokens, .none⟩ tokens :=
  ⟨rfl, fun _ _ _ => rfl⟩

theorem ends_word {letters : List Char} {token : Token}
    (spelled : word? letters.reverse = some token) :
    Reading.Ends ⟨tokens, .word letters⟩ (token :: tokens) := by
  have complete : complete? ⟨tokens, .word letters⟩ = some (token :: tokens) :=
    congrArg (Option.map (· :: tokens)) spelled
  refine ⟨complete, fun character notLower _ => ?_⟩
  simp [readCharacter?, complete, notLower]

theorem ends_number {characters : List Char} {number : JsonNumber}
    (spelled : number? characters.reverse = some number) :
    Reading.Ends ⟨tokens, .number characters⟩ (.number number :: tokens) := by
  have complete : complete? ⟨tokens, .number characters⟩ = some (.number number :: tokens) :=
    congrArg (Option.map fun number => Token.number number :: tokens) spelled
  refine ⟨complete, fun character _ notNumber => ?_⟩
  simp [readCharacter?, complete, notNumber]

/-! ### Reading what was written -/

/-- A sign or a digit begins a number. -/
theorem begin?_number {character : Char} (begins : character = '-' ∨ character.isDigit = true) :
    begin? tokens character = some ⟨tokens, .number [character]⟩ := by
  have notSpace : isSpace character = false := by
    by_contra space
    simp only [isSpace, Bool.or_eq_true, beq_iff_eq, Bool.not_eq_false] at space
    obtain ((rfl | rfl) | rfl) | rfl := space <;> revert begins <;> decide
  unfold begin?
  split
  case h_8 => simpa [notSpace, or_iff_not_imp_left] using begins
  all_goals exact absurd begins (by decide)

theorem read_number {characters : List Char}
    (continued : ∀ character ∈ characters, continuesNumber character = true)
    (started : List Char) :
    characters.foldlM readCharacter? ⟨tokens, .number started⟩ =
      some ⟨tokens, .number (characters.reverse ++ started)⟩ := by
  induction characters generalizing started with
  | nil => rfl
  | cons character rest ih =>
      obtain ⟨first, others⟩ := List.forall_mem_cons.mp continued
      have step : readCharacter? ⟨tokens, .number started⟩ character =
          some ⟨tokens, .number (character :: started)⟩ := by simp [readCharacter?, first]
      rw [List.foldlM_cons, step, List.reverse_cons, List.append_assoc]
      exact ih others (character :: started)

theorem exists_integerCharacters (value : Int) :
    ∃ first rest, integerCharacters value = first :: rest ∧
      (first = '-' ∨ first.isDigit = true) ∧ ∀ character ∈ rest, character.isDigit = true := by
  have digits := @isDigit_of_mem_toDigits value.natAbs
  unfold integerCharacters
  split
  · exact ⟨_, _, rfl, .inl rfl, digits⟩
  · obtain ⟨first, rest, split⟩ := List.exists_cons_of_ne_nil (@Nat.toDigits_ne_nil value.natAbs 10)
    rw [split] at digits ⊢
    exact ⟨first, rest, rfl, .inr (digits first List.mem_cons_self),
      fun character member => digits character (List.mem_cons_of_mem first member)⟩

theorem read_integer (value : Int) (fits : -2 ^ 63 ≤ value ∧ value < 2 ^ 64) :
    ∃ reading, (numberText (.integer value fits)).toList.foldlM readCharacter? ⟨tokens, .none⟩ =
      some reading ∧ reading.Ends (.number (.integer value fits) :: tokens) := by
  have spelled := number?_integerCharacters value fits
  obtain ⟨first, rest, characters, begins, digits⟩ := exists_integerCharacters value
  have continued : ∀ character ∈ rest, continuesNumber character = true := by
    intro character member
    simp [continuesNumber, digits character member]
  have start : readCharacter? ⟨tokens, .none⟩ first = some ⟨tokens, .number [first]⟩ :=
    begin?_number begins
  refine ⟨⟨tokens, .number (rest.reverse ++ [first])⟩, ?_, ends_number ?_⟩
  · rw [toList_numberText, characters, List.foldlM_cons, start]
    exact read_number continued [first]
  · rw [List.reverse_append, List.reverse_reverse, List.reverse_singleton, List.singleton_append,
      ← characters, spelled]

/-- A letter behind a backslash is read as the character that it stands for. -/
theorem read_escape {letter meant character : Char} (stands : escaped? letter = some meant)
    (same : (character == meant) = true) (started : List Char) :
    ['\\', letter].foldlM readCharacter? ⟨tokens, .text started⟩ =
      some ⟨tokens, .text (character :: started)⟩ := by
  have notUnit : letter ≠ 'u' := by
    rintro rfl
    cases stands
  rw [beq_iff_eq.mp same]
  simp [readCharacter?, notUnit, stands]

/-- A control character is read from its code unit. -/
theorem read_codeUnit {character : Char} (control : character.toNat < 0x20) (started : List Char) :
    ['\\', 'u', '0', '0', HexDigit.ofValue (character.toNat / 16),
      HexDigit.ofValue (character.toNat % 16)].foldlM readCharacter? ⟨tokens, .text started⟩ =
        some ⟨tokens, .text (character :: started)⟩ := by
  have high := @HexDigit.value?_ofValue (character.toNat / 16) (by omega)
  have low := @HexDigit.value?_ofValue (character.toNat % 16) (by omega)
  have zero : HexDigit.value? '0' = some 0 := by decide
  have whole : character.toNat / 16 * 16 + character.toNat % 16 = character.toNat := by omega
  have unit : codeUnit? started none character.toNat = some (.text (character :: started)) := by
    have belowLeading : ¬0xd800 ≤ character.toNat := by omega
    have belowTrailing : ¬0xdc00 ≤ character.toNat := by omega
    simp [codeUnit?, belowLeading, belowTrailing]
  simp [readCharacter?, high, low, zero, whole, unit]

/-- The characters that stand for one inside a text are read as it. -/
theorem read_escapedCharacter (character : Char) (started : List Char) :
    (escapedCharacter character).foldlM readCharacter? ⟨tokens, .text started⟩ =
      some ⟨tokens, .text (character :: started)⟩ := by
  fun_cases escapedCharacter character with
  | case1 quote => exact read_escape rfl quote started
  | case2 _ backslash => exact read_escape rfl backslash started
  | case3 _ _ backspace => exact read_escape rfl backspace started
  | case4 _ _ _ formFeed => exact read_escape rfl formFeed started
  | case5 _ _ _ _ lineFeed => exact read_escape rfl lineFeed started
  | case6 _ _ _ _ _ carriageReturn => exact read_escape rfl carriageReturn started
  | case7 _ _ _ _ _ _ tab => exact read_escape rfl tab started
  | case8 _ _ _ _ _ _ _ control => exact read_codeUnit control started
  | case9 quote backslash _ _ _ _ _ control => simp [readCharacter?, quote, backslash, control]

theorem read_escapedCharacters (characters started : List Char) :
    (characters.flatMap escapedCharacter).foldlM readCharacter? ⟨tokens, .text started⟩ =
      some ⟨tokens, .text (characters.reverse ++ started)⟩ := by
  induction characters generalizing started with
  | nil => rfl
  | cons character rest ih =>
      rw [List.flatMap_cons, List.foldlM_append, read_escapedCharacter, List.reverse_cons,
        List.append_assoc]
      exact ih (character :: started)

theorem read_quoted (text : String) :
    (quoted text).toList.foldlM readCharacter? ⟨tokens, .none⟩ =
      some ⟨.text text :: tokens, .none⟩ := by
  have characters : (quoted text).toList =
      '"' :: (text.toList.flatMap escapedCharacter ++ ['"']) := by
    simp [quoted]
  have start : readCharacter? ⟨tokens, .none⟩ '"' = some ⟨tokens, .text []⟩ := rfl
  have stop : readCharacter? ⟨tokens, .text text.toList.reverse⟩ '"' =
      some ⟨.text text :: tokens, .none⟩ := by
    simp [readCharacter?]
  rw [characters, List.foldlM_cons, start, Option.bind_eq_bind, Option.bind_some,
    List.foldlM_append, read_escapedCharacters]
  simp [stop]

end RecordCodec.Json
