import RecordCodec.Bytes.Buffer
import RecordCodec.Proofs.Bytes.BigEndian

/-!
# Buffers as lists of bytes

A buffer is compared with the list of its bytes.  `Buffer.Holds` says which
bytes lie from an offset on, which is all that reading can see of a buffer.
`Writing.Puts` says that an action replaces exactly the bytes from an offset
on, whatever was there before; two such actions on neighbouring ranges are one
action on the whole range.  `Writing.Yields` says no more than that it succeeds.
-/

namespace RecordCodec

namespace Buffer

theorem ext {first second : Buffer} (bytes : first.toList = second.toList) : first = second :=
  ByteArray.ext (Array.toList_inj.mp bytes)

@[simp] theorem length_toList (buffer : Buffer) : buffer.toList.length = buffer.size := rfl

@[simp] theorem toList_ofList (bytes : List UInt8) : (ofList bytes).toList = bytes := by
  simp [toList, ofList]

@[simp] theorem size_ofList (bytes : List UInt8) : (ofList bytes).size = bytes.length := by
  simp [ofList]

@[simp] theorem ofList_toList (buffer : Buffer) : ofList buffer.toList = buffer :=
  ext (toList_ofList _)

@[simp] theorem toList_append (first second : Buffer) :
    (first ++ second).toList = first.toList ++ second.toList := by
  simp [toList]

theorem toList_repeat_push (byte : UInt8) (count : Nat) (buffer : Buffer) :
    Buffer.toList (count.repeat (fun bytes => ByteArray.push bytes byte) buffer) =
      buffer.toList ++ List.replicate count byte := by
  induction count with
  | zero => simp [Nat.repeat]
  | succ count ih =>
      have pushed (bytes : Buffer) :
          Buffer.toList (ByteArray.push bytes byte) = bytes.toList ++ [byte] := by
        cases bytes
        simp [toList]
      rw [Nat.repeat, pushed, ih, List.append_assoc, List.replicate_succ']

@[simp] theorem toList_zeros (count : Nat) : (zeros count).toList = List.replicate count 0 :=
  toList_repeat_push 0 count _

theorem zeros_eq_ofList (count : Nat) : zeros count = ofList (List.replicate count 0) :=
  ext (by simp)

@[simp] theorem size_zeros (count : Nat) : (zeros count).size = count := by
  simp [zeros_eq_ofList]

@[simp] theorem toList_extract (buffer : Buffer) (start stop : Nat) :
    Buffer.toList (buffer.extract start stop) = (buffer.toList.take stop).drop start := by
  simp [toList, List.extract_eq_take_drop, List.drop_take]

theorem toList_slice (buffer : Buffer) (offset count : Nat) :
    (buffer.slice offset count).toList = (buffer.toList.drop offset).take count := by
  simp [slice, List.drop_take]

theorem size_slice {buffer : Buffer} {offset count : Nat} (room : offset + count ≤ buffer.size) :
    (buffer.slice offset count).size = count := by
  rw [← length_toList, toList_slice, List.length_take, List.length_drop, length_toList]
  omega

theorem toList_overwrite (buffer : Buffer) (offset : Nat) (bytes : List UInt8) :
    (buffer.overwrite offset (ofList bytes)).toList =
      buffer.toList.take offset ++ bytes ++ buffer.toList.drop (offset + bytes.length) := by
  have appended (first second : ByteArray) :
      Buffer.toList (first ++ second) = Buffer.toList first ++ Buffer.toList second := by
    simp [toList]
  have whole : buffer.toList.take buffer.data.size = buffer.toList :=
    List.take_of_length_le (Nat.le_of_eq rfl)
  rw [overwrite, ByteArray.copySlice_eq_append, appended, appended, toList_extract,
    toList_extract, toList_extract, whole]
  simp

theorem size_overwrite {buffer : Buffer} {offset : Nat} {bytes : List UInt8}
    (room : offset + bytes.length ≤ buffer.size) :
    (buffer.overwrite offset (ofList bytes)).size = buffer.size := by
  rw [← length_toList, toList_overwrite]
  simp
  omega

theorem overwrite_nil (buffer : Buffer) (offset : Nat) :
    buffer.overwrite offset (ofList []) = buffer :=
  ext (by simp [toList_overwrite])

/-- Writing over the whole of a buffer leaves nothing of it. -/
theorem overwrite_zeros (bytes : List UInt8) :
    (zeros bytes.length).overwrite 0 (ofList bytes) = ofList bytes :=
  ext (by simp [toList_overwrite])

/-- Writing next to what has just been written is writing both at once. -/
theorem overwrite_overwrite {buffer : Buffer} {offset : Nat} {bytes rest : List UInt8}
    (room : offset + bytes.length ≤ buffer.size) :
    (buffer.overwrite offset (ofList bytes)).overwrite (offset + bytes.length) (ofList rest) =
      buffer.overwrite offset (ofList (bytes ++ rest)) := by
  have front : (buffer.toList.take offset ++ bytes).length = offset + bytes.length := by
    simp
    omega
  apply ext
  rw [toList_overwrite, toList_overwrite, toList_overwrite, List.take_left' front, ← List.drop_drop,
    List.drop_left' front, List.drop_drop, List.length_append, Nat.add_assoc]
  simp only [List.append_assoc]

/-- What has just been written is what lies there. -/
theorem slice_overwrite {buffer : Buffer} {offset : Nat} {bytes : List UInt8}
    (room : offset + bytes.length ≤ buffer.size) :
    (buffer.overwrite offset (ofList bytes)).slice offset bytes.length = ofList bytes := by
  have front : (buffer.toList.take offset).length = offset := by
    simp
    omega
  apply ext
  rw [toList_slice, toList_overwrite, toList_ofList, List.append_assoc, List.drop_left' front,
    List.take_left]

/-- The bytes lie in the buffer from the offset on. -/
def Holds (buffer : Buffer) (offset : Nat) (bytes : List UInt8) : Prop :=
  ∃ before after, buffer.toList = before ++ bytes ++ after ∧ before.length = offset

theorem holds_ofList (bytes : List UInt8) : Holds (ofList bytes) 0 bytes :=
  ⟨[], [], by simp, rfl⟩

/-- The bytes that are there between two offsets. -/
theorem holds_slice {buffer : Buffer} {offset count : Nat} (room : offset + count ≤ buffer.size) :
    buffer.Holds offset (buffer.slice offset count).toList := by
  refine ⟨buffer.toList.take offset, buffer.toList.drop (offset + count), ?_, ?_⟩
  · rw [toList_slice, List.append_assoc, ← List.drop_drop, List.take_append_drop,
      List.take_append_drop]
  · simp
    omega

/-- What has just been written lies there. -/
theorem holds_overwrite {buffer : Buffer} {offset : Nat} {bytes : List UInt8}
    (room : offset + bytes.length ≤ buffer.size) :
    (buffer.overwrite offset (ofList bytes)).Holds offset bytes := by
  have inside : offset + bytes.length ≤ (buffer.overwrite offset (ofList bytes)).size := by
    rw [size_overwrite room]
    exact room
  have lies := holds_slice inside
  rwa [slice_overwrite room, toList_ofList] at lies

namespace Holds

variable {buffer : Buffer} {offset : Nat} {bytes first second : List UInt8}

theorem room (holds : buffer.Holds offset bytes) : offset + bytes.length ≤ buffer.size := by
  obtain ⟨before, after, whole, rfl⟩ := holds
  rw [← length_toList, whole]
  simp

theorem left (holds : buffer.Holds offset (first ++ second)) : buffer.Holds offset first := by
  obtain ⟨before, after, whole, start⟩ := holds
  exact ⟨before, second ++ after, by simpa using whole, start⟩

theorem right (holds : buffer.Holds offset (first ++ second)) :
    buffer.Holds (offset + first.length) second := by
  obtain ⟨before, after, whole, rfl⟩ := holds
  exact ⟨before ++ first, after, by simpa using whole, by simp⟩

/-- Each of several runs of the same length lies at a multiple of it. -/
theorem flatMap {α : Type} {items : List α} {run : α → List UInt8} {length : Nat}
    (lengths : ∀ item ∈ items, (run item).length = length)
    (holds : buffer.Holds offset (items.flatMap run)) (index : Nat)
    (inside : index < items.length) :
    buffer.Holds (offset + index * length) (run items[index]) := by
  induction items generalizing offset index with
  | nil => exact absurd inside (Nat.not_lt_zero index)
  | cons item rest ih =>
      rw [List.flatMap_cons] at holds
      cases index with
      | zero => simpa using holds.left
      | succ index =>
          have behind := holds.right
          rw [lengths item (by simp)] at behind
          have lies := ih (fun other member => lengths other (by simp [member])) behind index
            (Nat.lt_of_succ_lt_succ inside)
          rw [Nat.succ_mul, Nat.add_comm (index * length), ← Nat.add_assoc]
          exact lies

theorem empty (inside : offset ≤ buffer.size) : buffer.Holds offset [] :=
  ⟨buffer.toList.take offset, buffer.toList.drop offset, by simp, by simp [inside]⟩

/-- Runs that lie next to each other are one run. -/
theorem append (front : buffer.Holds offset first)
    (behind : buffer.Holds (offset + first.length) second) :
    buffer.Holds offset (first ++ second) := by
  obtain ⟨before, after, whole, rfl⟩ := front
  obtain ⟨longer, rest, again, length⟩ := behind
  rw [whole, List.append_assoc longer] at again
  obtain ⟨-, rfl⟩ := List.append_inj again (by simp [length])
  exact ⟨before, rest, by rw [whole]; simp only [List.append_assoc], rfl⟩

/-- Runs of the same length that lie at the multiples of it are one run. -/
theorem of_flatMap {α : Type} {items : List α} {run : α → List UInt8} {length : Nat}
    (inside : offset ≤ buffer.size) (lengths : ∀ item ∈ items, (run item).length = length)
    (each : ∀ index (bound : index < items.length),
      buffer.Holds (offset + index * length) (run items[index])) :
    buffer.Holds offset (items.flatMap run) := by
  induction items generalizing offset with
  | nil => exact empty inside
  | cons item rest ih =>
      have first : buffer.Holds offset (run item) := by
        simpa using each 0 (Nat.zero_lt_succ _)
      rw [List.flatMap_cons]
      refine first.append (ih first.room (fun other member => lengths other (by simp [member])) ?_)
      intro index bound
      have next := each (index + 1) (Nat.succ_lt_succ bound)
      rw [Nat.succ_mul, Nat.add_comm (index * length), ← Nat.add_assoc] at next
      rwa [lengths item (by simp)]

theorem toList_slice_eq (holds : buffer.Holds offset bytes) :
    (buffer.slice offset bytes.length).toList = bytes := by
  obtain ⟨before, after, whole, rfl⟩ := holds
  rw [toList_slice, whole]
  simp

theorem read_eq (holds : buffer.Holds offset bytes) :
    buffer.read offset bytes.length = .ok (ofList bytes) := by
  have sliced : buffer.slice offset bytes.length = ofList bytes :=
    ext (by rw [holds.toList_slice_eq, toList_ofList])
  simp only [read, require, if_pos holds.room, sliced]
  rfl

theorem readWord_eq (holds : buffer.Holds offset bytes) :
    buffer.readWord offset bytes.length = .ok (BigEndian.word bytes) := by
  simp only [readWord, holds.read_eq]
  exact congrArg (fun run => Except.ok (BigEndian.word run)) (toList_ofList bytes)

end Holds

/-- The number that the bytes from an offset on spell. -/
def numberAt (buffer : Buffer) (offset width : Nat) : Nat :=
  BigEndian.number (buffer.slice offset width).toList

theorem Holds.numberAt_eq {buffer : Buffer} {offset : Nat} {bytes : List UInt8}
    (holds : buffer.Holds offset bytes) :
    buffer.numberAt offset bytes.length = BigEndian.number bytes :=
  congrArg BigEndian.number holds.toList_slice_eq

/-- No more than eight bytes spell a number that a word holds. -/
theorem numberAt_lt {buffer : Buffer} {offset width : Nat} (room : offset + width ≤ buffer.size)
    (atMostEight : width ≤ 8) : buffer.numberAt offset width < 2 ^ 64 := by
  have below := BigEndian.number_lt (buffer.slice offset width).toList
  rw [length_toList, size_slice room] at below
  exact Nat.lt_of_lt_of_le below (Nat.pow_le_pow_right (by decide : 0 < 256) atMostEight)

theorem readWord_of_room {buffer : Buffer} {offset width : Nat}
    (room : offset + width ≤ buffer.size) :
    buffer.readWord offset width = .ok (UInt64.ofNat (buffer.numberAt offset width)) := by
  have size := size_slice room
  have word := (holds_slice room).readWord_eq
  rw [length_toList, size] at word
  rw [word, numberAt]
  exact congrArg Except.ok (UInt64.toNat_inj.mp (BigEndian.toNat_word _))

theorem read_eq_error {buffer : Buffer} {offset count : Nat}
    (short : buffer.size < offset + count) :
    buffer.read offset count = .error (.outOfBounds offset count buffer.size) := by
  rw [Buffer.read, require, if_neg (Nat.not_le.mpr short)]
  rfl

theorem readWord_eq_error {buffer : Buffer} {offset width : Nat}
    (short : buffer.size < offset + width) :
    buffer.readWord offset width = .error (.outOfBounds offset width buffer.size) := by
  rw [readWord, read_eq_error short]
  rfl

/-- A successful read gives the bytes that lie at the offset. -/
theorem holds_of_read {buffer bytes : Buffer} {offset count : Nat}
    (read : buffer.read offset count = .ok bytes) :
    bytes.size = count ∧ buffer.Holds offset bytes.toList := by
  by_cases room : offset + count ≤ buffer.size
  · simp only [Buffer.read, require, if_pos room] at read
    obtain rfl : buffer.slice offset count = bytes := by
      simpa [bind, Except.bind, pure, Except.pure] using read
    exact ⟨size_slice room, holds_slice room⟩
  · simp [Buffer.read, require, if_neg room, bind, Except.bind] at read

/-- A word that was read is the word of the bytes that lie at the offset. -/
theorem holds_of_readWord {buffer : Buffer} {offset width : Nat} {word : UInt64}
    (read : buffer.readWord offset width = .ok word) :
    ∃ bytes : List UInt8, bytes.length = width ∧ buffer.Holds offset bytes ∧
      word = BigEndian.word bytes := by
  cases run : buffer.read offset width with
  | error error => simp [readWord, run, bind, Except.bind] at read
  | ok bytes =>
      obtain ⟨size, holds⟩ := holds_of_read run
      refine ⟨bytes.toList, size, holds, ?_⟩
      simpa [readWord, run, bind, Except.bind, pure, Except.pure, eq_comm] using read

/-- The bytes of a word that was read lie at the offset. -/
theorem holds_bytes_of_readWord {buffer : Buffer} {offset width : Nat} {word : UInt64}
    (atMostEight : width ≤ 8) (read : buffer.readWord offset width = .ok word) :
    buffer.Holds offset (BigEndian.bytes width word) := by
  obtain ⟨bytes, rfl, holds, rfl⟩ := holds_of_readWord read
  rwa [BigEndian.bytes_word atMostEight]

end Buffer

namespace Writing

variable {α β : Type} {offset : Nat} {bytes rest : List UInt8}

/-- Given room, the action succeeds with the result and puts the bytes at the
offset, and changes nothing else. -/
def Puts (action : Writing α) (offset : Nat) (bytes : List UInt8) (result : α) : Prop :=
  ∀ buffer : Buffer, offset + bytes.length ≤ buffer.size →
    action buffer = .ok result (buffer.overwrite offset (.ofList bytes))

namespace Puts

theorem pure (result : α) : Puts (Pure.pure result) offset [] result := by
  intro buffer _
  rw [Buffer.overwrite_nil]
  rfl

/-- Two actions that write next to each other. -/
theorem bind {action : Writing α} {next : α → Writing β} {middle : α} {result : β}
    (first : Puts action offset bytes middle)
    (second : Puts (next middle) (offset + bytes.length) rest result) :
    Puts (action >>= next) offset (bytes ++ rest) result := by
  intro buffer room
  rw [List.length_append, ← Nat.add_assoc] at room
  have firstRoom : offset + bytes.length ≤ buffer.size := by omega
  change EStateM.bind action next buffer = _
  rw [EStateM.bind, first buffer firstRoom]
  change next middle _ = _
  rw [second _ (by rw [Buffer.size_overwrite firstRoom]; exact room),
    Buffer.overwrite_overwrite firstRoom]

/-- An action whose result is replaced. -/
theorem andReturn {action : Writing α} {middle : α} (puts : Puts action offset bytes middle)
    (result : β) : Puts (action >>= fun _ => Pure.pure result) offset bytes result := by
  have returned : Puts (Pure.pure result : Writing β) (offset + bytes.length) [] result :=
    pure result
  have both : Puts (action >>= fun _ => Pure.pure result) offset (bytes ++ []) result :=
    puts.bind returned
  rwa [List.append_nil] at both

theorem of_andReturn {action : Writing Unit} {result : β}
    (puts : Puts (action >>= fun _ => Pure.pure result) offset bytes result) :
    Puts action offset bytes () := by
  intro buffer room
  have run := puts buffer room
  change EStateM.bind action (fun _ => Pure.pure result) buffer = _ at run
  cases written : action buffer with
  | error error after => simp [EStateM.bind, written] at run
  | ok _ after =>
      simp only [EStateM.bind, written] at run
      obtain ⟨-, rfl⟩ := EStateM.Result.ok.inj run
      rfl

/-- A test that succeeds, in front of an action. -/
theorem check {test : Except Error α} {next : α → Writing β} {middle : α} {result : β}
    (passed : test = .ok middle) (action : Puts (next middle) offset bytes result) :
    Puts (ofExcept test >>= next) offset bytes result := by
  intro buffer room
  rw [passed]
  exact action buffer room

/-- A test of the bounds of a range inside the one that is written. -/
theorem require {need : Nat} {next : Unit → Writing α} {result : α}
    (inside : need ≤ bytes.length) (action : Puts (next ()) offset bytes result) :
    Puts (Writing.require offset need >>= next) offset bytes result := by
  intro buffer room
  have required : Buffer.require buffer.size offset need = .ok () :=
    if_pos (by omega)
  change EStateM.bind (Writing.require offset need) next buffer = _
  simp only [EStateM.bind, Writing.require, required, ofExcept]
  exact action buffer room

theorem overwrite (source : Buffer) :
    Puts (Writing.overwrite offset source) offset source.toList () := by
  intro buffer _
  rw [Buffer.ofList_toList]
  rfl

theorem zeros (count : Nat) :
    Puts (Writing.overwrite offset (Buffer.zeros count)) offset (List.replicate count 0) () := by
  simpa using overwrite (Buffer.zeros count)

theorem write : Puts (Writing.write offset (.ofList bytes)) offset bytes () :=
  require (by simp) (by simpa using overwrite (Buffer.ofList bytes))

theorem writeWord (width : Nat) (value : UInt64) :
    Puts (Writing.writeWord offset width value) offset (BigEndian.bytes width value) () :=
  write

end Puts

/-- The action can succeed with the result, from some buffer. -/
def Yields (action : Writing α) (result : α) : Prop :=
  ∃ before after, action before = .ok result after

namespace Yields

theorem of_bind {action : Writing α} {next : α → Writing β} {result : β}
    (yields : Yields (action >>= next) result) :
    ∃ middle, Yields action middle ∧ Yields (next middle) result := by
  obtain ⟨before, after, run⟩ := yields
  change EStateM.bind action next before = _ at run
  cases first : action before with
  | error error stopped => simp [EStateM.bind, first] at run
  | ok middle between =>
      simp only [EStateM.bind, first] at run
      exact ⟨middle, ⟨before, between, first⟩, between, after, run⟩

theorem andReturn {action : Writing α} {middle : α} (yields : Yields action middle) (result : β) :
    Yields (action >>= fun _ => pure result) result := by
  obtain ⟨before, after, run⟩ := yields
  refine ⟨before, after, ?_⟩
  change EStateM.bind action (fun _ => pure result) before = _
  rw [EStateM.bind, run]
  rfl

theorem of_ofExcept {test : Except Error α} {result : α}
    (yields : Yields (ofExcept test) result) : test = .ok result := by
  obtain ⟨before, after, run⟩ := yields
  cases test with
  | error error => simp [ofExcept] at run
  | ok value =>
      simp only [ofExcept, EStateM.Result.ok.injEq] at run
      rw [run.1]

theorem not_throw {error : Error} {result : α} : ¬ Yields (throw error : Writing α) result := by
  rintro ⟨before, after, run⟩
  cases run

end Yields

end Writing

end RecordCodec
