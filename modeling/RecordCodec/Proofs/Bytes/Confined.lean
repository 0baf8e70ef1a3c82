import RecordCodec.Proofs.Bytes.Buffer

/-!
# Actions confined to a range

`Buffer.SameOutside` says that two buffers are of one size and differ at most
in a range.  `Writing.Confined` says that an action leaves such a buffer behind,
whether it succeeds or fails part of the way.  A confined action may be
followed by another one on the same range, and a range may be widened, so an
action on nested ranges is confined to the outermost one.
-/

namespace RecordCodec

namespace Buffer

/-- The buffers have the same size and the same bytes before `start` and from `stop` on. -/
structure SameOutside (before after : Buffer) (start stop : Nat) : Prop where
  size : after.size = before.size
  bytes : ∀ position, position < start ∨ stop ≤ position →
    after.toList[position]? = before.toList[position]?

namespace SameOutside

variable {before between after : Buffer} {start stop : Nat}

theorem refl (buffer : Buffer) (start stop : Nat) : buffer.SameOutside buffer start stop :=
  ⟨rfl, fun _ _ => rfl⟩

theorem trans (first : before.SameOutside between start stop)
    (second : between.SameOutside after start stop) : before.SameOutside after start stop :=
  ⟨second.size.trans first.size, fun position outside =>
    (second.bytes position outside).trans (first.bytes position outside)⟩

theorem widen (same : before.SameOutside after start stop) {widerStart widerStop : Nat}
    (left : widerStart ≤ start) (right : stop ≤ widerStop) :
    before.SameOutside after widerStart widerStop := by
  refine ⟨same.size, fun position outside => same.bytes position ?_⟩
  omega

end SameOutside

/-- Replacing bytes changes nothing in front of them and behind them. -/
theorem sameOutside_overwrite {buffer source : Buffer} {offset : Nat}
    (room : offset + source.size ≤ buffer.size) :
    buffer.SameOutside (buffer.overwrite offset source) offset (offset + source.size) := by
  have front : (buffer.toList.take offset).length = offset := by
    simp
    omega
  have whole := toList_overwrite buffer offset source.toList
  rw [ofList_toList, length_toList] at whole
  constructor
  · rw [← ofList_toList source]
    exact size_overwrite room
  · intro position outside
    rw [whole, List.append_assoc]
    rcases outside with before | behind
    · rw [List.getElem?_append_left (by omega), List.getElem?_take_of_lt before]
    · rw [List.getElem?_append_right (by omega), List.getElem?_append_right, List.getElem?_drop,
        front, length_toList]
      · congr 1
        omega
      · rw [front, length_toList]
        omega

end Buffer

namespace Writing

variable {α β : Type} {offset length : Nat}

/-- The buffer that an action leaves behind, even if it fails. -/
def left (action : Writing α) (buffer : Buffer) : Buffer :=
  match action buffer with
  | .ok _ after => after
  | .error _ after => after

/-- Given room for the range, the action changes nothing outside it, even if it fails. -/
def Confined (action : Writing α) (offset length : Nat) : Prop :=
  ∀ buffer : Buffer, offset + length ≤ buffer.size →
    buffer.SameOutside (action.left buffer) offset (offset + length)

namespace Confined

theorem pure (result : α) : Confined (Pure.pure result : Writing α) offset length :=
  fun buffer _ => .refl buffer _ _

theorem throw (error : Error) : Confined (MonadExcept.throw error : Writing α) offset length :=
  fun buffer _ => .refl buffer _ _

/-- One action after another on the same range. -/
theorem bind {action : Writing α} {next : α → Writing β}
    (first : Confined action offset length)
    (second : ∀ result, Confined (next result) offset length) :
    Confined (action >>= next) offset length := by
  intro buffer room
  have step := first buffer room
  change buffer.SameOutside (left (EStateM.bind action next) buffer) _ _
  unfold left at step ⊢
  cases run : action buffer with
  | error error stopped =>
      simp only [run] at step
      simpa only [EStateM.bind, run] using step
  | ok result between =>
      simp only [run] at step
      simp only [EStateM.bind, run]
      exact step.trans (second result between (by rw [step.size]; exact room))

/-- An action is left as it is by a result that replaces its own. -/
theorem of_andReturn {action : Writing α} {result : β}
    (confined : Confined (action >>= fun _ => Pure.pure result) offset length) :
    Confined action offset length := by
  intro buffer room
  have step := confined buffer room
  change buffer.SameOutside (left (EStateM.bind action fun _ => Pure.pure result) buffer) _ _
    at step
  unfold left at step ⊢
  cases run : action buffer with
  | error error stopped => simpa only [EStateM.bind, run] using step
  | ok middle between =>
      simp only [EStateM.bind, run] at step
      exact step

/-- A test in front of an action, which may rely on its success. -/
theorem check {test : Except Error α} {next : α → Writing β}
    (action : ∀ result, test = .ok result → Confined (next result) offset length) :
    Confined (ofExcept test >>= next) offset length := by
  cases test with
  | error error => exact fun buffer _ => .refl buffer _ _
  | ok result => exact action result rfl

theorem require {need : Nat} : Confined (Writing.require offset need) offset length := by
  intro buffer _
  unfold left Writing.require ofExcept
  cases Buffer.require buffer.size offset need <;> exact .refl buffer _ _

theorem widen {action : Writing α} (confined : Confined action offset length)
    {widerOffset widerLength : Nat} (start : widerOffset ≤ offset)
    (stop : offset + length ≤ widerOffset + widerLength) :
    Confined action widerOffset widerLength :=
  fun buffer room => (confined buffer (Nat.le_trans stop room)).widen start stop

theorem overwrite (source : Buffer) :
    Confined (Writing.overwrite offset source) offset source.size :=
  fun _ room => Buffer.sameOutside_overwrite room

/-- Filling up with zeros stays in the range, even if it is full already. -/
theorem zeros (written : Nat) :
    Confined (Writing.overwrite (offset + written) (Buffer.zeros (length - written))) offset
      length := by
  by_cases inside : written ≤ length
  · apply (overwrite (Buffer.zeros (length - written))).widen
    · omega
    · rw [Buffer.size_zeros]
      omega
  · intro buffer _
    have nothing : Buffer.zeros (length - written) = .ofList [] := by
      rw [Buffer.zeros_eq_ofList, Nat.sub_eq_zero_of_le (by omega), List.replicate_zero]
    unfold left Writing.overwrite
    rw [nothing, Buffer.overwrite_nil]
    exact .refl buffer _ _

theorem write (bytes : Buffer) : Confined (Writing.write offset bytes) offset bytes.size :=
  require.bind fun _ => overwrite bytes

theorem writeWord (width : Nat) (value : UInt64) :
    Confined (Writing.writeWord offset width value) offset width := by
  have size : (Buffer.ofList (BigEndian.bytes width value)).size = width := by
    rw [Buffer.size_ofList, BigEndian.length_bytes]
  have written : Confined (Writing.writeWord offset width value) offset
      (Buffer.ofList (BigEndian.bytes width value)).size := write _
  rwa [size] at written

end Confined

end Writing

end RecordCodec
