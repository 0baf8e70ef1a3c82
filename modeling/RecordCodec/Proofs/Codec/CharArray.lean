import RecordCodec.Proofs.Codec.Settled

/-!
# What a text leaves out

A text ends at the first zero, and writing it puts only zeros behind.  So the bytes that stand
behind the end of a text are cleared when it is read and written again.  Bytes that are no text
are read as numbers and come back as they were.
-/

namespace RecordCodec

namespace TextField

variable {bytes : Buffer}

/-- The bytes in front of the first zero are a text. -/
def IsText (bytes : Buffer) : Prop :=
  ∃ text : String, text.toUTF8 = beforeZero bytes

/-- The bytes with zeros behind the end of the text, or just as they are if they are no text. -/
def cleared (bytes : Buffer) : List UInt8 :=
  match Utf8.decode? (beforeZero bytes) with
  | some _ =>
      let run := bytes.toList.takeWhile (· != 0)
      run ++ List.replicate (bytes.size - run.length) 0
  | none => bytes.toList

theorem decode?_eq_none_iff : Utf8.decode? (beforeZero bytes) = none ↔ ¬IsText bytes := by
  rw [Option.eq_none_iff_forall_ne_some, IsText, not_exists]
  exact forall_congr' fun text => not_congr Utf8.decode?_eq_some_iff

theorem cleared_of_isText (isText : IsText bytes) :
    cleared bytes = bytes.toList.takeWhile (· != 0) ++
      List.replicate (bytes.toList.dropWhile (· != 0)).length 0 := by
  obtain ⟨text, same⟩ := isText
  have split := congrArg List.length
    (List.takeWhile_append_dropWhile (p := (· != 0)) (l := bytes.toList))
  rw [List.length_append, Buffer.length_toList] at split
  simp only [cleared, Utf8.decode?_eq_some_iff.mpr same]
  rw [← split, Nat.add_sub_cancel_left]

theorem cleared_of_not_isText (noText : ¬IsText bytes) : cleared bytes = bytes.toList := by
  rw [cleared, decode?_eq_none_iff.mpr noText]

theorem length_cleared (bytes : Buffer) : (cleared bytes).length = bytes.size := by
  by_cases isText : IsText bytes
  · rw [cleared_of_isText isText, List.length_append, List.length_replicate, ← List.length_append,
      List.takeWhile_append_dropWhile, Buffer.length_toList]
  · rw [cleared_of_not_isText isText, Buffer.length_toList]

/-- Bytes come back unless they are a text with something behind its end. -/
theorem cleared_eq_iff :
    cleared bytes = bytes.toList ↔
      ¬IsText bytes ∨ ∀ byte ∈ bytes.toList.dropWhile (· != 0), byte = 0 := by
  by_cases isText : IsText bytes
  · have split := List.takeWhile_append_dropWhile (p := (· != 0)) (l := bytes.toList)
    rw [cleared_of_isText isText]
    nth_rewrite 3 [← split]
    rw [List.append_cancel_left_eq, eq_comm, List.eq_replicate_iff]
    simp [isText]
  · simp [cleared_of_not_isText isText, isText]

/-- What bytes are read as is written as those bytes with the rest behind the text cleared. -/
theorem fieldImage_ofBytes {element : Layout} (isChar : element.isChar = true) (bytes : Buffer) :
    fieldImage element.image element (some bytes.size) (ofBytes bytes) = cleared bytes := by
  unfold ofBytes cleared
  cases decoded : Utf8.decode? (beforeZero bytes) with
  | none => exact fieldImage_numbers isChar bytes.size bytes
  | some text =>
      have run : text.toUTF8.data.toList = bytes.toList.takeWhile (· != 0) := by
        rw [← toList_beforeZero, ← Utf8.decode?_eq_some_iff.mp decoded]
        rfl
      have size : text.utf8ByteSize = (bytes.toList.takeWhile (· != 0)).length := by
        rw [← run]
        rfl
      simp only [fieldImage, run, size]

theorem readField_eq {element : Layout} (isChar : element.isChar = true) {buffer bytes : Buffer}
    {offset : Nat} (holds : buffer.Holds offset bytes.toList)
    (readElement : Nat → Except Error (Value × Nat)) (strict : Bool) :
    readField ⟨strict, true⟩ buffer readElement element (some bytes.size) offset =
      .ok (ofBytes bytes) := by
  have run := holds.read_eq
  rw [Buffer.length_toList, Buffer.ofList_toList] at run
  simp only [readField, isChar, if_true, read, run]
  rfl

theorem wellFormed_of_isChar {element : Layout} (isChar : element.isChar = true) :
    element.WellFormed := by
  unfold Layout.isChar at isChar
  split at isChar
  · exact .scalar
  · cases isChar

/-- The bytes of an array of characters are read as the text in front of the first zero, or as
numbers if that is no text, and writing this again succeeds.  It gives the bytes back, except
that everything behind the end of a text is cleared. -/
theorem characters_written_back {element : Layout} (isChar : element.isChar = true)
    {buffer bytes : Buffer} {offset : Nat} (holds : buffer.Holds offset bytes.toList)
    (strict : Bool) :
    ∃ value, readField ⟨strict, true⟩ buffer (element.read ⟨strict, true⟩ buffer) element
        (some bytes.size) offset = .ok value ∧
      (∀ text : String, text.toUTF8 = beforeZero bytes → value = .text text) ∧
      (¬IsText bytes → value = numbers bytes) ∧
      (∀ target place, place + bytes.size ≤ target.size →
        writeField element.write element (some bytes.size) value place target =
          .ok () (target.overwrite place (.ofList (cleared bytes)))) ∧
      (IsText bytes → cleared bytes = bytes.toList.takeWhile (· != 0) ++
        List.replicate (bytes.toList.dropWhile (· != 0)).length 0) ∧
      (cleared bytes = bytes.toList ↔
        ¬IsText bytes ∨ ∀ byte ∈ bytes.toList.dropWhile (· != 0), byte = 0) := by
  have wellFormed := wellFormed_of_isChar isChar
  have read := readField_eq isChar holds (element.read ⟨strict, true⟩ buffer) strict
  refine ⟨_, read, ?_, ?_, ?_, cleared_of_isText, cleared_eq_iff⟩
  · intro text same
    rw [ofBytes, Utf8.decode?_eq_some_iff.mpr same]
  · intro noText
    rw [ofBytes, decode?_eq_none_iff.mpr noText]
  · intro target place room
    obtain ⟨fits, -⟩ := settles_of_readChars isChar read
    have inside := fun value admits => (wellFormed.measured value admits).2
    have puts := puts_writeField wellFormed.writable inside fits place
    rw [fieldImage_ofBytes isChar] at puts
    exact puts target (by rwa [length_cleared])

/-- Behind the zero stands a byte, but the bytes in front of it are no text. -/
theorem sample_characters_written_back :
    ∃ value, readField ⟨true, true⟩ (Buffer.ofList [7, 255, 0, 1])
        ((Layout.scalar "char" .char).read ⟨true, true⟩ (Buffer.ofList [7, 255, 0, 1]))
        (.scalar "char" .char) (some 3) 1 = .ok value ∧
      writeField (Layout.scalar "char" .char).write (.scalar "char" .char) (some 3) value 0
          (Buffer.zeros 3) =
        .ok () ((Buffer.zeros 3).overwrite 0 (.ofList [255, 0, 1])) := by
  have holds : (Buffer.ofList [7, 255, 0, 1]).Holds 1 (Buffer.ofList [255, 0, 1]).toList :=
    ⟨[7], [], rfl, rfl⟩
  have isChar : (Layout.scalar "char" .char).isChar = true := rfl
  obtain ⟨value, read, -, -, written, -, -⟩ := characters_written_back isChar holds true
  have same : cleared (Buffer.ofList [255, 0, 1]) = [255, 0, 1] := by decide +kernel
  have back := written (Buffer.zeros 3) 0 (by decide)
  rw [same] at back
  exact ⟨value, read, back⟩

end TextField

namespace Sample

/-- A tag has a code of three characters. -/
def coded : List Declaration :=
  [.record "Tag" none [⟨"code", "char", some 3⟩]]

def tagLayout : Layout :=
  .record ⟨"Tag", [⟨"code", .scalar "char" .char, some 3, 0, 3⟩], 3⟩

/-- A tag with the code A. -/
def tag : Value :=
  .record ⟨"Tag", [⟨"code", .text "A"⟩]⟩

end Sample

/-- A letter behind the end of a text is read but not written again. -/
theorem Schema.letter_behind_text_cleared :
    ∃ schema, ofDeclarations Sample.coded = .ok schema ∧
      schema.find? "Tag" = some Sample.tagLayout ∧
      Sample.tagLayout.read ⟨true, true⟩ (Buffer.ofList [65, 0, 66]) 0 = .ok (Sample.tag, 3) ∧
      Sample.tagLayout.toBytes Sample.tag = .ok (Buffer.ofList [65, 0, 0]) ∧
      Buffer.ofList [65, 0, 0] ≠ Buffer.ofList [65, 0, 66] := by
  have accepted : ofDeclarations Sample.coded =
      .ok ((ofDeclarations Sample.coded).toOption.getD ⟨[], []⟩) :=
    eq_ok_getD (by decide +kernel) _
  refine ⟨_, accepted, ?_, ?_, ?_, ?_⟩
  · decide +kernel
  · decide +kernel
  · decide +kernel
  · decide

end RecordCodec
