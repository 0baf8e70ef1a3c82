import RecordCodec.Proofs.Bytes.HexPairs
import RecordCodec.Proofs.Text.Blank
import RecordCodec.Proofs.Text.Utf8

/-!
# Hexadecimal text

A text is trimmed, its mark is split off, and the characters that are kept of the body are handed to
a decoder.  Whatever lawful decoder that is, a fault is found by the byte offset of a character in
the trimmed text, which blanks and characters of several bytes move.
-/

namespace RecordCodec

namespace Hex

theorem toNat_letter (byte : UInt8) : (letter byte).toNat = byte.toNat :=
  Utf8.toNat_charOfNat byte.toNat_lt

theorem letter_ofNat {character : Char} (ascii : character.toNat < 128) :
    letter (UInt8.ofNat character.toNat) = character := by
  rw [letter, UInt8.toNat_ofNat', Nat.mod_eq_of_lt (by omega), Char.ofNat_toNat]

/-- The bytes of digits are the digits again. -/
theorem map_letter_of_named {characters : List Char}
    (named : ∀ character ∈ characters, HexDigit.Named character) :
    (characters.flatMap String.utf8EncodeChar).map letter = characters := by
  induction characters with
  | nil => rfl
  | cons character rest ih =>
      obtain ⟨first, named⟩ := List.forall_mem_cons.mp named
      have ascii := (HexDigit.plain_of_named first).1
      rw [List.flatMap_cons, Utf8.utf8EncodeChar_of_ascii ascii, List.map_append, ih named,
        List.map_singleton, letter_ofNat ascii, List.singleton_append]

/-- The first byte of a character that is no digit is none either. -/
theorem exists_byte_of_not_named {character : Char} (strange : ¬HexDigit.Named character) :
    ∃ byte rest, String.utf8EncodeChar character = byte :: rest ∧
      ¬HexDigit.Named (letter byte) := by
  rcases Nat.lt_or_ge character.toNat 128 with ascii | large
  · refine ⟨_, _, Utf8.utf8EncodeChar_of_ascii ascii, ?_⟩
    rwa [letter_ofNat ascii]
  · obtain ⟨byte, rest, whole, lead⟩ := Utf8.exists_utf8EncodeChar_eq_cons character
    refine ⟨byte, rest, whole, fun named => ?_⟩
    have ascii := (HexDigit.plain_of_named named).1
    rw [toNat_letter] at ascii
    exact absurd (lead large) (Nat.not_le.mpr ascii)

theorem byteLength_of_named {characters : List Char}
    (named : ∀ character ∈ characters, HexDigit.Named character) :
    Text.byteLength characters = characters.length := by
  have length := congrArg List.length (map_letter_of_named named)
  rwa [List.length_map, Utf8.length_flatMap_utf8EncodeChar] at length

theorem map_place (start : Nat) (characters : List Char) :
    (place start characters).map Prod.snd = characters := by
  induction characters generalizing start with
  | nil => rfl
  | cons character rest ih => rw [place, List.map_cons, ih]

theorem place_append (start : Nat) (front behind : List Char) :
    place start (front ++ behind) =
      place start front ++ place (start + Text.byteLength front) behind := by
  induction front generalizing start with
  | nil => rfl
  | cons character rest ih =>
      have length : Text.byteLength (character :: rest) =
          character.utf8Size + Text.byteLength rest := rfl
      rw [List.cons_append, place, place, ih, length, Nat.add_assoc, List.cons_append]

/-- The characters of a body that are not skipped. -/
def kept (body : List Char) : List Char :=
  body.filter fun character => !Text.isAsciiBlank character

theorem mem_kept {character : Char} {body : List Char} :
    character ∈ kept body ↔ character ∈ body ∧ Text.isAsciiBlank character = false := by
  simp [kept]

theorem kept_append (front behind : List Char) :
    kept (front ++ behind) = kept front ++ kept behind :=
  List.filter_append ..

theorem map_marks (body : List Char) : (marks body).map Prod.snd = kept body := by
  have both := @List.filter_map _ _ Prod.snd (fun character => !Text.isAsciiBlank character)
    (place 0 body)
  rw [map_place] at both
  exact both.symm

theorem length_positions (marks : List (Nat × Char)) :
    (positions marks).length = Text.byteLength (marks.map Prod.snd) := by
  induction marks with
  | nil => rfl
  | cons mark rest ih =>
      calc (positions (mark :: rest)).length
          = (List.replicate mark.2.utf8Size mark.1).length + (positions rest).length :=
            List.length_append
        _ = Text.byteLength ((mark :: rest).map Prod.snd) := by
            rw [List.length_replicate, ih]
            rfl

/-- The bytes of a character that is kept lie where those kept in front of it end. -/
theorem getElem?_positions {front behind : List Char} {character : Char}
    (solid : Text.isAsciiBlank character = false) :
    (positions (marks (front ++ character :: behind)))[Text.byteLength (kept front)]? =
      some (Text.byteLength front) := by
  have marked : marks (front ++ character :: behind) =
      marks front ++ (Text.byteLength front, character) ::
        (place (Text.byteLength front + character.utf8Size) behind).filter
          fun mark => !Text.isAsciiBlank mark.2 := by
    rw [marks, place_append, List.filter_append, Nat.zero_add, place, List.filter_cons, solid]
    rfl
  have before : (positions (marks front)).length = Text.byteLength (kept front) := by
    rw [length_positions, map_marks]
  rw [marked, positions, List.flatMap_append, ← positions, ← before, List.flatMap_cons,
    List.getElem?_append_right (Nat.le_refl _), Nat.sub_self, List.getElem?_append_left,
    List.getElem?_replicate, if_pos character.utf8Size_pos]
  rw [List.length_replicate]
  exact character.utf8Size_pos

/-- A text taken apart: blanks at both ends, a mark in front of what is left, and a body. -/
structure Divides (text : String) (trimmed mark body : List Char) : Prop where
  around : ∃ before behind, text.toList = before ++ trimmed ++ behind ∧
    Text.AllBlank (before ++ behind)
  bare : Text.Bare trimmed
  whole : trimmed = mark ++ body
  marked : mark = ['0', 'x'] ∨ mark = ['0', 'X'] ∨
    mark = [] ∧ ∀ rest, trimmed ≠ '0' :: 'x' :: rest ∧ trimmed ≠ '0' :: 'X' :: rest

theorem exists_divides (text : String) : ∃ trimmed mark body, Divides text trimmed mark body := by
  obtain ⟨before, behind, whole, blank, bare⟩ := Text.exists_around_trim text.toList
  generalize Text.trim text.toList = trimmed at whole bare
  by_cases lower : ∃ body, trimmed = ['0', 'x'] ++ body
  · obtain ⟨body, split⟩ := lower
    exact ⟨trimmed, _, body, ⟨before, behind, whole, blank⟩, bare, split, .inl rfl⟩
  · by_cases upper : ∃ body, trimmed = ['0', 'X'] ++ body
    · obtain ⟨body, split⟩ := upper
      exact ⟨trimmed, _, body, ⟨before, behind, whole, blank⟩, bare, split, .inr (.inl rfl)⟩
    · refine ⟨trimmed, [], trimmed, ⟨before, behind, whole, blank⟩, bare, rfl,
        .inr (.inr ⟨rfl, ?_⟩)⟩
      exact fun rest => ⟨fun same => lower ⟨rest, same⟩, fun same => upper ⟨rest, same⟩⟩

namespace Divides

variable {text : String} {trimmed mark body : List Char}

theorem trim_eq (divides : Divides text trimmed mark body) : Text.trim text.toList = trimmed := by
  obtain ⟨before, behind, whole, blank⟩ := divides.around
  rw [whole, Text.trim_eq blank divides.bare]

theorem splitMark_eq (divides : Divides text trimmed mark body) :
    splitMark trimmed = (Text.byteLength mark, body) := by
  have whole := divides.whole
  rcases divides.marked with rfl | rfl | ⟨rfl, other⟩
  · rw [whole]
    rfl
  · rw [whole]
    rfl
  · rw [List.nil_append] at whole
    subst whole
    unfold splitMark
    split
    · exact absurd rfl (other _).1
    · exact absurd rfl (other _).2
    · rfl

/-- What reading comes to, once the text is taken apart. -/
theorem parse_eq (decode : Decoder) (divides : Divides text trimmed mark body) :
    parse decode text =
      (decode ((kept body).flatMap String.utf8EncodeChar)).mapError fun fault =>
        .invalidHex (Text.byteLength mark + fault.position body) := by
  rw [← map_marks body]
  simp only [parse, divides.trim_eq, divides.splitMark_eq, Utf8.toUTF8_eq_flatMap,
    String.toList_ofList]

/-- What is kept of a text whose blanks are all of ASCII. -/
theorem kept_toList (divides : Divides text trimmed mark body)
    (plain : ∀ character ∈ text.toList, Text.isBlank character = true →
      Text.isAsciiBlank character = true) :
    kept text.toList = mark ++ kept body := by
  obtain ⟨before, behind, whole, blank⟩ := divides.around
  have ends : ∀ part, (∀ character ∈ part, character ∈ before ++ behind) → kept part = [] := by
    intro part inside
    refine List.filter_eq_nil_iff.mpr fun character member => ?_
    have here : character ∈ text.toList := by
      rcases List.mem_append.mp (inside character member) with first | last
      · simp [whole, first]
      · simp [whole, last]
    simp [plain character here (blank character (inside character member))]
  have front := ends before fun _ => List.mem_append_left behind
  have back := ends behind fun _ => List.mem_append_right before
  have solid : kept mark = mark := by
    rcases divides.marked with rfl | rfl | ⟨rfl, -⟩ <;> rfl
  calc kept text.toList
      = kept before ++ (kept mark ++ kept body) ++ kept behind := by
        rw [whole, divides.whole]
        simp only [kept, List.filter_append]
    _ = mark ++ kept body := by rw [front, back, solid, List.nil_append, List.append_nil]

/-- A mark that stands in front of the text is the mark. -/
theorem mark_eq (divides : Divides text trimmed mark body) {letter : Char}
    (either : letter = 'x' ∨ letter = 'X') {rest : List Char}
    (opened : text.toList = '0' :: letter :: rest) : mark = ['0', letter] := by
  obtain ⟨before, behind, whole, blank⟩ := divides.around
  have solid : ∀ character ∈ ['0', letter], character ∉ before ++ behind := by
    have second : Text.isBlank letter = false := by rcases either with rfl | rfl <;> rfl
    have bare : ∀ character ∈ ['0', letter], Text.isBlank character = false :=
      List.forall_mem_cons.mpr ⟨rfl, List.forall_mem_cons.mpr ⟨second, nofun⟩⟩
    intro character member around
    exact absurd (blank character around) (by rw [bare character member]; exact nofun)
  rw [opened] at whole
  -- Neither of the two characters is one of the blanks around.
  have front : before = [] := by
    rcases before with _ | ⟨first, before⟩
    · rfl
    · obtain rfl : '0' = first := (List.cons.inj whole).1
      exact absurd (by simp) (solid '0' (by simp))
  obtain ⟨inner, kept⟩ : ∃ inner, trimmed = '0' :: letter :: inner := by
    subst front
    rcases trimmed with _ | ⟨first, _ | ⟨second, inner⟩⟩
    · have first : behind = '0' :: letter :: rest := whole.symm
      exact absurd (by simp [first]) (solid '0' (by simp))
    · have second : behind = letter :: rest := (List.cons.inj whole).2.symm
      exact absurd (by simp [second]) (solid letter (by simp))
    · obtain ⟨rfl, others⟩ := List.cons.inj whole
      obtain rfl : letter = second := (List.cons.inj others).1
      exact ⟨inner, rfl⟩
  have divided := divides.whole
  rw [kept] at divided
  rcases divides.marked with rfl | rfl | ⟨rfl, other⟩
  · rw [(List.cons.inj (List.cons.inj divided).2).1]
  · rw [(List.cons.inj (List.cons.inj divided).2).1]
  · rcases either with rfl | rfl
    · exact absurd kept (other inner).1
    · exact absurd kept (other inner).2

theorem mark_eq_nil (divides : Divides text trimmed mark body)
    (named : ∀ letter ∈ mark, HexDigit.Named letter) : mark = [] := by
  rcases divides.marked with rfl | rfl | ⟨rfl, -⟩
  · exact absurd (named 'x' (by simp)) (by decide)
  · exact absurd (named 'X' (by simp)) (by decide)
  · rfl

end Divides

theorem solid_of_mark {mark : String} (known : mark ∈ ["", "0x", "0X"]) {character : Char}
    (member : character ∈ mark.toList) :
    Text.isBlank character = false ∧ Text.isAsciiBlank character = false := by
  have solid : ["", "0x", "0X"].all (fun mark => mark.toList.all fun character =>
      !Text.isBlank character && !Text.isAsciiBlank character) = true := by
    decide
  have shown := List.all_eq_true.mp (List.all_eq_true.mp solid mark known) character member
  simpa using shown

section Spaced

/-! Digits between blanks of ASCII, behind a mark. -/

variable {mark : String} {spaced : List Char} (known : mark ∈ ["", "0x", "0X"])
  (named : ∀ character ∈ kept spaced, HexDigit.Named character)

theorem toList_spaced : (mark ++ String.ofList spaced).toList = mark.toList ++ spaced := by
  rw [String.toList_append, String.toList_ofList]

include known named

theorem isAsciiBlank_of_spaced {character : Char}
    (member : character ∈ (mark ++ String.ofList spaced).toList)
    (blank : Text.isBlank character = true) : Text.isAsciiBlank character = true := by
  rw [toList_spaced, List.mem_append] at member
  rcases member with front | behind
  · exact absurd blank (by rw [(solid_of_mark known front).1]; exact nofun)
  · by_contra solid
    have digit := named character (mem_kept.mpr ⟨behind, Bool.eq_false_iff.mpr solid⟩)
    exact absurd blank (by rw [(HexDigit.plain_of_named digit).2.2]; exact nofun)

variable {trimmed found body : List Char}

/-- The mark is found again, and what is kept is all that is kept of the digits. -/
theorem Divides.spaced_eq (divides : Divides (mark ++ String.ofList spaced) trimmed found body) :
    found = mark.toList ∧ kept body = kept spaced := by
  have unmarked : kept mark.toList = mark.toList :=
    List.filter_eq_self.mpr fun character member => by rw [(solid_of_mark known member).2]; rfl
  have all := divides.kept_toList fun _ => isAsciiBlank_of_spaced known named
  rw [toList_spaced, kept, List.filter_append, ← kept, ← kept, unmarked] at all
  have same : found = mark.toList := by
    simp only [List.mem_cons, List.not_mem_nil, or_false] at known
    rcases known with rfl | rfl | rfl
    · have all : kept spaced = found ++ kept body := all
      refine divides.mark_eq_nil fun letter member => named letter ?_
      rw [all]
      exact List.mem_append_left _ member
    · exact divides.mark_eq (.inl rfl) toList_spaced
    · exact divides.mark_eq (.inr rfl) toList_spaced
  rw [same] at all
  exact ⟨same, (List.append_cancel_left all).symm⟩

end Spaced

/-- Where a text is at fault, by the bytes of the trimmed text: at its end if the kept characters
take an odd number of bytes, else at the first of them that is no digit. -/
inductive FaultyAt (trimmed mark body : List Char) : Nat → Prop
  | odd : Text.byteLength (kept body) % 2 = 1 → FaultyAt trimmed mark body (Text.byteLength trimmed)
  | strange {front behind : List Char} {character : Char} :
      Text.byteLength (kept body) % 2 = 0 → body = front ++ character :: behind →
        (∀ other ∈ front, Text.isAsciiBlank other = true ∨ HexDigit.Named other) →
          Text.isAsciiBlank character = false → ¬HexDigit.Named character →
            FaultyAt trimmed mark body (Text.byteLength (mark ++ front))

namespace Divides

variable {decode : Decoder} {text : String} {trimmed mark body : List Char}

theorem parse_of_spells (lawful : decode.Lawful) (divides : Divides text trimmed mark body)
    {bytes : List UInt8} (spelled : Spells (kept body) bytes) : parse decode text = .ok bytes := by
  have named := (exists_spells_iff.mp ⟨bytes, spelled⟩).2
  rw [divides.parse_eq, lawful.spelled (by rwa [map_letter_of_named named])]
  rfl

theorem error_of_faultyAt (lawful : decode.Lawful) (divides : Divides text trimmed mark body)
    {position : Nat} (faulty : FaultyAt trimmed mark body position) :
    parse decode text = .error (.invalidHex position) := by
  cases faulty with
  | odd odd =>
      rw [divides.parse_eq, lawful.odd (by rwa [Utf8.length_flatMap_utf8EncodeChar]), divides.whole,
        Text.byteLength_append]
      rfl
  | @strange front behind character even split passed solid strange =>
      have named : ∀ other ∈ kept front, HexDigit.Named other := by
        intro other member
        obtain ⟨inside, visible⟩ := mem_kept.mp member
        exact (passed other inside).resolve_left (by rw [visible]; exact nofun)
      have digits : ∀ other ∈ (kept front).flatMap String.utf8EncodeChar,
          HexDigit.Named (letter other) := by
        intro other member
        exact named _ (map_letter_of_named named ▸ List.mem_map_of_mem member)
      obtain ⟨byte, rest, encoded, other⟩ := exists_byte_of_not_named strange
      have whole : (kept body).flatMap String.utf8EncodeChar =
          (kept front).flatMap String.utf8EncodeChar ++
            byte :: (rest ++ (kept behind).flatMap String.utf8EncodeChar) := by
        have stays : kept (character :: behind) = character :: kept behind :=
          List.filter_cons_of_pos (by rw [solid]; rfl)
        rw [split, kept_append, stays, List.flatMap_append, List.flatMap_cons, encoded,
          List.cons_append]
      have length := Utf8.length_flatMap_utf8EncodeChar
      have position : (Fault.character (Text.byteLength (kept front))).position body =
          Text.byteLength front := by
        rw [split, Fault.position.eq_def]
        exact congrArg (Option.getD · _) (getElem?_positions solid)
      rw [divides.parse_eq, whole, lawful.strange (by rwa [← whole, length]) digits other, length,
        Text.byteLength_append, ← position]
      rfl

/-- A text spells bytes or is at fault somewhere. -/
theorem spells_or_faultyAt (trimmed mark body : List Char) :
    (∃ bytes, Spells (kept body) bytes) ∨ ∃ position, FaultyAt trimmed mark body position := by
  rcases Nat.mod_two_eq_zero_or_one (Text.byteLength (kept body)) with even | odd
  · let stops : Char → Bool := fun character =>
      !Text.isAsciiBlank character && !decide (HexDigit.Named character)
    cases first : body.find? stops with
    | none =>
        have named : ∀ character ∈ kept body, HexDigit.Named character := by
          intro character member
          obtain ⟨inside, solid⟩ := mem_kept.mp member
          have passed := List.find?_eq_none.mp first character inside
          simpa [stops, solid] using passed
        rw [byteLength_of_named named] at even
        exact .inl (exists_spells_iff.mpr ⟨even, named⟩)
    | some character =>
        obtain ⟨stopped, front, behind, split, passed⟩ := List.find?_eq_some_iff_append.mp first
        have solid : Text.isAsciiBlank character = false ∧ ¬HexDigit.Named character := by
          simpa [stops] using stopped
        refine .inr ⟨_, .strange even split (fun other member => ?_) solid.1 solid.2⟩
        have entry := passed other member
        simpa [stops, or_iff_not_imp_left] using entry
  · exact .inr ⟨_, .odd odd⟩

/-- What is read is what the kept characters spell. -/
theorem parse_eq_ok_iff (lawful : decode.Lawful) (divides : Divides text trimmed mark body)
    {bytes : List UInt8} : parse decode text = .ok bytes ↔ Spells (kept body) bytes := by
  refine ⟨fun read => ?_, divides.parse_of_spells lawful⟩
  rcases spells_or_faultyAt trimmed mark body with ⟨others, spelled⟩ | ⟨position, faulty⟩
  · rw [divides.parse_of_spells lawful spelled] at read
    rwa [← Except.ok.inj read]
  · rw [divides.error_of_faultyAt lawful faulty] at read
    cases read

end Divides

/-- Blanks of ASCII, letters of either case and a mark in front leave the bytes as they are. -/
theorem parse_spaced {decode : Decoder} (lawful : decode.Lawful) {bytes : List UInt8}
    {mark : String} {spaced : List Char} (known : mark ∈ ["", "0x", "0X"])
    (spelled : (kept spaced).map Char.toLower = (render bytes).toList) :
    parse decode (mark ++ String.ofList spaced) = .ok bytes := by
  have spelled : Spells (kept spaced) bytes := by
    rwa [spells_iff, ← String.toList_ofList (l := bytes.flatMap digits)]
  have named := (exists_spells_iff.mp ⟨bytes, spelled⟩).2
  obtain ⟨_, _, body, divides⟩ := exists_divides (mark ++ String.ofList spaced)
  exact divides.parse_of_spells lawful (by rwa [(divides.spaced_eq known named).2])

/-- Hexadecimal text is settled, whatever lawful decoder reads its digits, by the characters that
are kept of it: it is read exactly if they are an even number of digits, as the bytes that these
spell, and fails at its fault otherwise.  Written bytes are read back whatever letters, blanks and
mark are chosen. -/
theorem parse_settled {decode : Decoder} (lawful : decode.Lawful) :
    (∀ text, ∃ trimmed mark body, Divides text trimmed mark body) ∧
    (∀ {text : String} {trimmed mark body : List Char}, Divides text trimmed mark body →
      ((∃ bytes, parse decode text = .ok bytes) ↔
        (kept body).length % 2 = 0 ∧ ∀ character ∈ kept body, HexDigit.Named character) ∧
      (∀ bytes, parse decode text = .ok bytes ↔ Spells (kept body) bytes) ∧
      (∀ error, parse decode text = .error error ↔
        ∃ position, FaultyAt trimmed mark body position ∧ error = .invalidHex position)) ∧
    (∀ {bytes : List UInt8} {mark : String} {spaced : List Char}, mark ∈ ["", "0x", "0X"] →
      (kept spaced).map Char.toLower = (render bytes).toList →
        parse decode (mark ++ String.ofList spaced) = .ok bytes) := by
  refine ⟨exists_divides, ?_, parse_spaced lawful⟩
  intro text trimmed mark body divides
  have read := @Divides.parse_eq_ok_iff _ _ _ _ _ lawful divides
  refine ⟨?_, fun _ => read, fun error => ⟨fun failed => ?_, ?_⟩⟩
  · rw [← exists_spells_iff]
    exact exists_congr fun _ => read
  · rcases Divides.spells_or_faultyAt trimmed mark body with ⟨bytes, spelled⟩ | ⟨position, faulty⟩
    · rw [read.mpr spelled] at failed
      exact absurd failed nofun
    · rw [divides.error_of_faultyAt lawful faulty] at failed
      exact ⟨position, faulty, (Except.error.inj failed).symm⟩
  · rintro ⟨position, faulty, rfl⟩
    exact divides.error_of_faultyAt lawful faulty

/-- A blank between digits and a character of two bytes behind them. -/
theorem parse_accented :
    parse decode " 0x0 1\u00e9" = .error (.invalidHex 5) ∧
      parse decode "0X0 AfF" = .ok [10, 255] := by
  have divides : Divides " 0x0 1\u00e9" "0x0 1\u00e9".toList ['0', 'x'] "0 1\u00e9".toList := {
    around := ⟨[' '], [], rfl, List.forall_mem_cons.mpr ⟨rfl, nofun⟩⟩
    bare := by
      rintro character (first | last)
      · obtain rfl : '0' = character := Option.some.inj first
        decide
      · obtain rfl : '\u00e9' = character := Option.some.inj last
        decide
    whole := rfl
    marked := .inl rfl }
  have faulty : FaultyAt "0x0 1\u00e9".toList ['0', 'x'] "0 1\u00e9".toList 5 :=
    @FaultyAt.strange _ _ _ ['0', ' ', '1'] [] '\u00e9' (by decide) rfl
      (by simp [HexDigit.Named, Text.isAsciiBlank]) (by decide) (by decide)
  have spaced : parse decode ("0X" ++ String.ofList "0 AfF".toList) = .ok [10, 255] :=
    (parse_settled decode_lawful).2.2 (by decide) (by decide)
  exact ⟨(((parse_settled decode_lawful).2.1 divides).2.2 _).mpr ⟨5, faulty, rfl⟩, spaced⟩

end Hex

end RecordCodec
