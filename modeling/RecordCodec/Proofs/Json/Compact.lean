import RecordCodec.Proofs.Json.Token
import RecordCodec.Proofs.Text.Utf8

/-!
# Compact text read back

What is written compactly is read as what was written, as long as the numbers are integers and no
more arrays and objects are open at once than the reader allows.  The text that has been written so
far is followed by the machine that has read it: `Stands` says that a token may begin behind the
text, `Reaches` that one may just have ended there.
-/

namespace RecordCodec.Json

/-- The numbers in the value are integers, and at most so many arrays and objects are inside each
other. -/
def IntegralWithin : Nat → Json → Prop
  | _, .null | _, .bool _ | _, .text _ | _, .number (.integer _ _) => True
  | _, .number (.float _ _) => False
  | 0, .array _ | 0, .object _ => False
  | levels + 1, .array items => ∀ item ∈ items, IntegralWithin levels item
  | levels + 1, .object members => ∀ member ∈ members, IntegralWithin levels member.value

/-- The text is read as tokens that bring the machine into the state, and a token may begin behind
it. -/
def Stands (text : String) (machine : Machine) : Prop :=
  ∃ tokens, text.toList.foldlM readCharacter? ⟨[], .none⟩ = some ⟨tokens, .none⟩ ∧
    tokens.reverse.foldlM readToken? ⟨[], .value⟩ = some machine

/-- The text is read as tokens that bring the machine into the state, of which the last one may
only just have ended. -/
def Reaches (text : String) (machine : Machine) : Prop :=
  ∃ reading tokens, text.toList.foldlM readCharacter? ⟨[], .none⟩ = some reading ∧
    reading.Ends tokens ∧ tokens.reverse.foldlM readToken? ⟨[], .value⟩ = some machine

variable {text written : String} {reading : Reading} {machine next : Machine} {token : Token}

theorem stands_empty : Stands "" ⟨[], .value⟩ :=
  ⟨[], rfl, rfl⟩

/-- What is written behind a text is read on from where the text ends. -/
theorem readText_append {after : Reading}
    (before : text.toList.foldlM readCharacter? ⟨[], .none⟩ = some reading)
    (behind : written.toList.foldlM readCharacter? reading = some after) :
    (text ++ written).toList.foldlM readCharacter? ⟨[], .none⟩ = some after := by
  rw [String.toList_append, List.foldlM_append, before, Option.bind_eq_bind, Option.bind_some,
    behind]

/-- One more token is read behind those before it. -/
theorem readTokens_concat {tokens : List Token}
    (before : tokens.reverse.foldlM readToken? ⟨[], .value⟩ = some machine)
    (read : readToken? machine token = some next) :
    (token :: tokens).reverse.foldlM readToken? ⟨[], .value⟩ = some next := by
  rw [List.reverse_cons, List.foldlM_append, before]
  simp [read]

theorem Stands.reaches (stands : Stands text machine) : Reaches text machine := by
  obtain ⟨tokens, read, reached⟩ := stands
  exact ⟨_, tokens, read, ends_none tokens, reached⟩

/-- A bracket, a comma or a colon ends the token in front of it. -/
theorem Reaches.mark (reaches : Reaches text machine) {mark : Char}
    (spelled : written.toList = [mark])
    (begins : ∀ tokens, begin? tokens mark = some ⟨token :: tokens, .none⟩)
    (breaks : mark.isLower = false ∧ continuesNumber mark = false)
    (read : readToken? machine token = some next) : Stands (text ++ written) next := by
  obtain ⟨reading, tokens, characters, ends, reached⟩ := reaches
  refine ⟨token :: tokens, readText_append characters ?_, readTokens_concat reached read⟩
  simp [spelled, ends.next mark breaks.1 breaks.2, begins]

theorem Stands.quoted (stands : Stands text machine) {value : String}
    (read : readToken? machine (.text value) = some next) : Stands (text ++ quoted value) next := by
  obtain ⟨tokens, characters, reached⟩ := stands
  exact ⟨.text value :: tokens, readText_append characters (read_quoted value),
    readTokens_concat reached read⟩

/-- A word or a number is at its end when its characters have been read. -/
theorem Stands.reaches_append (stands : Stands text machine)
    (spelled : ∀ tokens, ∃ reading, written.toList.foldlM readCharacter? ⟨tokens, .none⟩ =
      some reading ∧ reading.Ends (token :: tokens))
    (read : readToken? machine token = some next) : Reaches (text ++ written) next := by
  obtain ⟨tokens, characters, reached⟩ := stands
  obtain ⟨reading, behind, ends⟩ := spelled tokens
  exact ⟨reading, token :: tokens, readText_append characters behind, ends,
    readTokens_concat reached read⟩

theorem read?_of_reaches {json : Json} (reaches : Reaches text ⟨[], .nothing json⟩) :
    read? text = some json := by
  obtain ⟨reading, tokens, characters, ends, reached⟩ := reaches
  have complete : tokens? text = some tokens.reverse := by
    simp [tokens?, characters, ends.complete]
  simp [read?, complete, reached]

/-- The machine takes a token as the first one of a value inside the open frames. -/
def Machine.Awaits (machine : Machine) (stack : List Frame) : Prop :=
  ∀ token next, beginValue? stack token = some next → readToken? machine token = some next

theorem awaits_value (stack : List Frame) : Machine.Awaits ⟨stack, .value⟩ stack :=
  fun _ _ begun => begun

theorem awaits_firstItem (frame : Frame) (stack : List Frame) :
    Machine.Awaits ⟨frame :: stack, .firstItem⟩ (frame :: stack) := by
  intro token next begun
  cases token with
  | closeArray => cases begun
  | _ => exact begun

/-- Wherever a value is awaited, its compact text is read as it. -/
def ReadsBack (levels : Nat) (json : Json) : Prop :=
  ∀ text machine stack, Stands text machine → machine.Awaits stack →
    stack.length + levels ≤ nestingLimit → Reaches (appendCompact text json) (deliver stack json)

variable {levels : Nat} {stack : List Frame}

theorem Reaches.appendItems (room : stack.length + 1 + levels ≤ nestingLimit) {items : List Json}
    (each : ∀ item ∈ items, ReadsBack levels item) (done : List Json)
    (reaches : Reaches text ⟨.array done :: stack, .separator⟩) :
    Reaches (appendItems text "," items) ⟨.array (items.reverse ++ done) :: stack, .separator⟩ := by
  induction items generalizing text done with
  | nil => exact reaches
  | cons item rest ih =>
      obtain ⟨first, others⟩ := List.forall_mem_cons.mp each
      have comma : Stands (text ++ ",") ⟨.array done :: stack, .value⟩ :=
        reaches.mark rfl (fun _ => rfl) (by decide) rfl
      have read := first _ _ (.array done :: stack) comma (awaits_value _) room
      rw [List.reverse_cons, List.append_assoc]
      exact ih others (item :: done) read

/-- A member is read wherever its key is awaited. -/
theorem Stands.appendMember (room : stack.length + 1 + levels ≤ nestingLimit)
    {key last : String} {value : Json} {done : List JsonMember} (stands : Stands text machine)
    (taken : readToken? machine (.text key) = some ⟨.object done last :: stack, .colon done key⟩)
    (reads : ReadsBack levels value) :
    Reaches (appendCompact (text ++ Json.quoted key ++ ":") value)
      ⟨.object (⟨key, value⟩ :: done) key :: stack, .separator⟩ := by
  have colon : Stands (text ++ Json.quoted key ++ ":") ⟨.object done key :: stack, .value⟩ :=
    (stands.quoted taken).reaches.mark rfl (fun _ => rfl) (by decide) rfl
  exact reads _ _ (.object done key :: stack) colon (awaits_value _) room

theorem Reaches.appendMembers (room : stack.length + 1 + levels ≤ nestingLimit)
    {members : List JsonMember} (each : ∀ member ∈ members, ReadsBack levels member.value)
    {done : List JsonMember} {last : String}
    (reaches : Reaches text ⟨.object done last :: stack, .separator⟩) :
    ∃ last, Reaches (appendMembers text "," members)
      ⟨.object (members.reverse ++ done) last :: stack, .separator⟩ := by
  induction members generalizing text done last with
  | nil => exact ⟨last, reaches⟩
  | cons member rest ih =>
      obtain ⟨first, others⟩ := List.forall_mem_cons.mp each
      have comma : Stands (text ++ ",") ⟨.object done last :: stack, .key done⟩ :=
        reaches.mark rfl (fun _ => rfl) (by decide) rfl
      obtain ⟨key, value⟩ := member
      rw [List.reverse_cons, List.append_assoc]
      exact ih others (comma.appendMember room rfl first)

theorem readsBack_array {items : List Json} (each : ∀ item ∈ items, ReadsBack levels item) :
    ReadsBack (levels + 1) (.array items) := by
  intro text machine stack stands awaits room
  have bracket : Stands (text ++ "[") ⟨.array [] :: stack, .firstItem⟩ :=
    stands.reaches.mark rfl (fun _ => rfl) (by decide) (awaits _ _ (if_pos (by omega)))
  have room : stack.length + 1 + levels ≤ nestingLimit := by omega
  cases items with
  | nil =>
      rw [appendCompact, Json.appendItems]
      exact (bracket.reaches.mark rfl (fun _ => rfl) (by decide) rfl).reaches
  | cons item rest =>
      obtain ⟨first, others⟩ := List.forall_mem_cons.mp each
      have read := first _ _ (.array [] :: stack) bracket (awaits_firstItem _ _) room
      have all := read.appendItems room others
      have closed : readToken? ⟨.array (rest.reverse ++ [item]) :: stack, .separator⟩ .closeArray =
          some (deliver stack (.array (item :: rest))) := by
        simp [readToken?]
      rw [appendCompact, Json.appendItems, String.append_empty]
      exact (all.mark rfl (fun _ => rfl) (by decide) closed).reaches

theorem readsBack_object {members : List JsonMember}
    (each : ∀ member ∈ members, ReadsBack levels member.value) :
    ReadsBack (levels + 1) (.object members) := by
  intro text machine stack stands awaits room
  have brace : Stands (text ++ "\x7b") ⟨.object [] "" :: stack, .firstKey⟩ :=
    stands.reaches.mark rfl (fun _ => rfl) (by decide) (awaits _ _ (if_pos (by omega)))
  have room : stack.length + 1 + levels ≤ nestingLimit := by omega
  cases members with
  | nil =>
      rw [appendCompact, Json.appendMembers]
      exact (brace.reaches.mark rfl (fun _ => rfl) (by decide) rfl).reaches
  | cons member rest =>
      obtain ⟨first, others⟩ := List.forall_mem_cons.mp each
      obtain ⟨key, value⟩ := member
      obtain ⟨last, all⟩ := (brace.appendMember room rfl first).appendMembers room others
      have closed : readToken? ⟨.object (rest.reverse ++ [⟨key, value⟩]) last :: stack, .separator⟩
          .closeObject = some (deliver stack (.object (⟨key, value⟩ :: rest))) := by
        simp [readToken?]
      rw [appendCompact, Json.appendMembers, String.append_empty]
      exact (all.mark rfl (fun _ => rfl) (by decide) closed).reaches

theorem readsBack_null : ReadsBack levels .null := by
  intro text machine stack stands awaits room
  exact stands.reaches_append (fun tokens => ⟨_, rfl, ends_word rfl⟩) (awaits .null _ rfl)

theorem readsBack_bool (value : Bool) : ReadsBack levels (.bool value) := by
  intro text machine stack stands awaits room
  cases value with
  | false =>
      exact stands.reaches_append (fun tokens => ⟨_, rfl, ends_word rfl⟩)
        (awaits (.bool false) _ rfl)
  | true =>
      exact stands.reaches_append (fun tokens => ⟨_, rfl, ends_word rfl⟩)
        (awaits (.bool true) _ rfl)

theorem readsBack_text (value : String) : ReadsBack levels (.text value) := by
  intro text machine stack stands awaits room
  exact (stands.quoted (awaits (.text value) _ rfl)).reaches

theorem readsBack_integer (value : Int) (fits : -2 ^ 63 ≤ value ∧ value < 2 ^ 64) :
    ReadsBack levels (.number (.integer value fits)) := by
  intro text machine stack stands awaits room
  exact stands.reaches_append (fun tokens => read_integer value fits)
    (awaits (.number (.integer value fits)) _ rfl)

theorem IntegralWithin.readsBack {json : Json} (integral : json.IntegralWithin levels) :
    ReadsBack levels json := by
  fun_induction IntegralWithin levels json with
  | case1 => exact readsBack_null
  | case2 _ value => exact readsBack_bool value
  | case3 _ value => exact readsBack_text value
  | case4 _ value fits => exact readsBack_integer value fits
  | case5 | case6 | case7 => exact integral.elim
  | case8 levels items ih => exact readsBack_array fun item member => ih item (integral item member)
  | case9 levels members ih =>
      exact readsBack_object fun member among => ih member (integral member among)

/-- A value of integers that is not nested too deeply is read back from its compact text. -/
theorem read?_compact {json : Json} (integral : json.IntegralWithin levels)
    (shallow : levels ≤ nestingLimit) : read? json.compact = some json := by
  have room : ([] : List Frame).length + levels ≤ nestingLimit := by simpa using shallow
  exact read?_of_reaches (integral.readsBack "" _ [] stands_empty (awaits_value []) room)

end RecordCodec.Json

namespace RecordCodec

/-- What is asked of a reader of JSON: a value of integers that is not nested too deeply is read
back from its compact text. -/
def JsonReader.ReadsCompact (json? : JsonReader) : Prop :=
  ∀ {levels : Nat} {json : Json}, json.IntegralWithin levels → levels ≤ Json.nestingLimit →
    json? json.compact.toUTF8 = some json

theorem Json.readBytes?_readsCompact : JsonReader.ReadsCompact Json.readBytes? := by
  intro levels json integral shallow
  have decoded : Utf8.decode? json.compact.toUTF8 = some json.compact :=
    Utf8.decode?_eq_some_iff.mpr rfl
  simp only [readBytes?, decoded, Option.bind_eq_bind, Option.bind_some,
    read?_compact integral shallow]

end RecordCodec
