/-!
# Text from UTF-8

`decode?` takes well-formed UTF-8 only.  `decodeLossy` takes any bytes: each
longest run that could begin a character but does not become one, and each
byte that cannot begin one, is read as the replacement character.
-/

namespace RecordCodec.Utf8

/-- The text that the bytes encode, if they are well-formed UTF-8. -/
def decode? (bytes : ByteArray) : Option String :=
  String.fromUTF8? bytes

/-- A character of several bytes of which some have been read. -/
structure Partial where
  bits : Nat
  remaining : Nat
  /-- The least value that the next byte may have. -/
  lower : UInt8
  /-- The greatest value that the next byte may have. -/
  upper : UInt8

/-- The characters read so far, the last one first, and what is unfinished. -/
structure State where
  /-- The characters read so far, the last one first. -/
  characters : List Char
  /-- The character that has begun, if there is one. -/
  unfinished : Option Partial

def replacement : Char := Char.ofNat 0xfffd

/-- Reads a byte where a character begins. -/
def start (characters : List Char) (byte : UInt8) : State :=
  let begun := fun bits remaining lower upper =>
    ⟨characters, some ⟨bits, remaining, lower, upper⟩⟩
  if byte < 0x80 then ⟨Char.ofNat byte.toNat :: characters, none⟩
  else if byte < 0xc2 then ⟨replacement :: characters, none⟩
  else if byte < 0xe0 then begun (byte.toNat - 0xc0) 1 0x80 0xbf
  else if byte = 0xe0 then begun 0 2 0xa0 0xbf
  else if byte = 0xed then begun 0xd 2 0x80 0x9f
  else if byte < 0xf0 then begun (byte.toNat - 0xe0) 2 0x80 0xbf
  else if byte = 0xf0 then begun 0 3 0x90 0xbf
  else if byte < 0xf4 then begun (byte.toNat - 0xf0) 3 0x80 0xbf
  else if byte = 0xf4 then begun 4 3 0x80 0x8f
  else ⟨replacement :: characters, none⟩

/-- Reads one byte. -/
def step (state : State) (byte : UInt8) : State :=
  match state.unfinished with
  | none => start state.characters byte
  | some part =>
      if part.lower ≤ byte ∧ byte ≤ part.upper then
        let bits := part.bits * 64 + (byte.toNat - 0x80)
        if part.remaining ≤ 1 then ⟨Char.ofNat bits :: state.characters, none⟩
        else ⟨state.characters, some ⟨bits, part.remaining - 1, 0x80, 0xbf⟩⟩
      else start (replacement :: state.characters) byte

/-- The text of any bytes, with the replacement character for damaged ones. -/
def decodeLossy (bytes : ByteArray) : String :=
  let state := bytes.foldl step ⟨[], none⟩
  let characters := match state.unfinished with
    | none => state.characters
    | some _ => replacement :: state.characters
  String.ofList characters.reverse

end RecordCodec.Utf8
