import RecordCodec.CommandLine.Run
import RecordCodec.Json.Reader
import RecordCodec.Proofs.Codec.Settled
import RecordCodec.Proofs.Document.Acceptance
import RecordCodec.Proofs.Input.Ceiling

/-!
# Files that are written and read back

Decoding looks at two files and changes none, so what it ends with follows from
what they hold.  Encoding looks at two files and then replaces the bytes of a
third.  A file with the bytes of a value is read back as that value, unless its
first bytes are those of a compressed frame: then its content is unpacked first.
Of the libraries, only the reader of arguments has to behave in a certain way.
-/

namespace RecordCodec

variable {σ α β : Type}

namespace Files

/-- What a file holds in a state of the files. -/
def held (files : Files (StateM σ)) (state : σ) (path : String) : Except Error Buffer :=
  match ((files.read path).run state).1 with
  | some raw => .ok raw
  | none => .error .io

/-- The files behave as ordinary ones: to read changes nothing, the target holds what has been
written to it, and another file is spared by that. -/
structure Ordinary (files : Files (StateM σ)) (target other : String) : Prop where
  reads : ∀ path state, ((files.read path).run state).2 = state
  written : ∀ bytes before after, (files.write target bytes).run before = (true, after) →
    files.held after target = .ok bytes
  spared : ∀ bytes before after, (files.write target bytes).run before = (true, after) →
    files.held after other = files.held before other

end Files

/-- The schema of a file is that of its declarations. -/
theorem CommandLine.accepted_of_openSchema {libraries : Libraries} {raw : Buffer}
    {file : SchemaFile} (opened : openSchema libraries raw = .ok file) :
    Schema.ofDeclarations file.declarations = .ok file.schema := by
  simp only [openSchema, bind_eq_ok] at opened
  obtain ⟨_, -, json, -, opened⟩ := opened
  split at opened
  · simp only [bind_eq_ok, pure_eq_ok] at opened
    obtain ⟨schema, accepted, rfl⟩ := opened
    exact accepted
  · cases opened

/-- What has been written can be read, and what is read has a document. -/
theorem Layout.WellFormed.exists_document_of_toBytes {layout : Layout}
    (wellFormed : layout.WellFormed) (options : DecodeOptions) {value : Value}
    (held : value.Held) {bytes : Buffer} (written : layout.toBytes value = .ok bytes) :
    ∃ decoded used document, layout.read options bytes 0 = .ok (decoded, used) ∧
      layout.document decoded = .ok document := by
  obtain ⟨admits, rfl⟩ := wellFormed.toBytes_eq_ok_iff.mp written
  have small : (Buffer.ofList (layout.image value)).size < 2 ^ 64 := by
    rw [Buffer.size_ofList]
    exact wellFormed.length_image_lt admits
  have read := wellFormed.readable options small value admits held 0 (Buffer.holds_ofList _)
  have settled := wellFormed.settles options 0 _ _ read
  obtain ⟨document, shown⟩ := (wellFormed.documented _).mpr settled.1
  exact ⟨_, _, document, read, shown⟩

namespace CommandLine

/-- The action has this result in this state of the files, and leaves the state as it is. -/
def Looks (state : σ) (action : ExceptT Error (StateM σ) α) (result : Except Error α) : Prop :=
  action.run.run state = (result, state)

namespace Looks

variable {state : σ}

theorem bind {action : ExceptT Error (StateM σ) α} {next : α → ExceptT Error (StateM σ) β}
    {result : Except Error α} {later : α → Except Error β} (first : Looks state action result)
    (behind : ∀ value, Looks state (next value) (later value)) :
    Looks state (action >>= next) (result >>= later) := by
  unfold Looks at *
  rw [ExceptT.run_bind, StateT.run_bind, first]
  cases result with
  | error error => rfl
  | ok value => exact behind value

theorem pure (value : α) : Looks state (pure value) (.ok value) :=
  rfl

theorem lift (result : Except Error α) : Looks state (liftM result) result :=
  rfl

theorem of_run {action : ExceptT Error (StateM σ) α} {result : Except Error α} {value : α}
    {after : σ} (looks : Looks state action result)
    (run : action.run.run state = (.ok value, after)) : result = .ok value ∧ state = after := by
  rw [looks] at run
  exact Prod.mk.inj run

end Looks

/-- What is asked of a reader of arguments.  A line of `encode` is understood as this command or not
at all, and where it is understood, the line of `decode` for the file that it writes is, too. -/
structure ReadsLines (command? : List String → Option Command) : Prop where
  encode {path type input target : String} {command : Command} :
    command? ["encode", path, "--type", type, input, "--out", target] = some command →
      command = .encode path type input (some target)
  decode {path type input target : String} :
    command? ["encode", path, "--type", type, input, "--out", target] =
        some (.encode path type input (some target)) →
      command? ["decode", path, "--type", type, target] =
        some (.decode path type target 0 false false false)

variable {libraries : Libraries} {files : Files (StateM σ)}
  {target other path type input : String} {before state after : σ}

theorem run_bind_eq_ok {action : ExceptT Error (StateM σ) α}
    {next : α → ExceptT Error (StateM σ) β} {result : β} :
    (action >>= next).run.run before = (.ok result, after) ↔
      ∃ middle between, action.run.run before = (.ok middle, between) ∧
        (next middle).run.run between = (.ok result, after) := by
  rw [ExceptT.run_bind, StateT.run_bind]
  rcases action.run.run before with ⟨error | middle, between⟩
  · constructor
    · rintro ⟨⟩
    · rintro ⟨_, _, ⟨⟩, -⟩
  · constructor
    · intro run
      exact ⟨middle, between, rfl, run⟩
    · rintro ⟨_, _, ⟨⟩, run⟩
      exact run

/-- An action on the files alone cannot fail. -/
theorem run_files (action : StateM σ α) :
    (liftM action : ExceptT Error (StateM σ) α).run.run before =
      (.ok (action.run before).1, (action.run before).2) :=
  rfl

theorem looks_readFile (ordinary : files.Ordinary target other) :
    Looks state (readFile files path) (files.held state path) := by
  have unchanged := ordinary.reads path state
  unfold Looks readFile Files.held
  rw [ExceptT.run_bind, StateT.run_bind, run_files, unchanged]
  cases ((files.read path).run state).1 with
  | none => rfl
  | some raw => rfl

section Contents

variable (libraries : Libraries)

/-- The layout of a type that a schema file declares. -/
def typeIn (raw : Buffer) (type : String) : Except Error Layout := do
  (← openSchema libraries raw).schema.lookup type

/-- The content of an input file. -/
def contentIn (raw : Buffer) : Except Error Buffer := do
  return (← Compression.unpack libraries.zstd raw).2

/-- The value whose document is the content of a file. -/
def valueIn (layout : Layout) (raw : Buffer) : Except Error Value := do
  let json ← readJson libraries (← contentIn libraries raw)
  layout.ofDocument json.normalize []

/-- The document of the value at the start of the content of a file. -/
def documentIn (layout : Layout) (raw : Buffer) : Except Error Json := do
  decodeContent libraries layout (← contentIn libraries raw) 0 false .standard

end Contents

theorem looks_readSchema (ordinary : files.Ordinary target other) :
    Looks state (readSchema libraries files path)
      (files.held state path >>= openSchema libraries) := by
  apply (looks_readFile ordinary).bind
  intro raw
  exact .lift _

theorem looks_readInput (ordinary : files.Ordinary target other) :
    Looks state (readInput libraries files path)
      (files.held state path >>= contentIn libraries) := by
  apply (looks_readFile ordinary).bind
  intro raw
  apply (Looks.lift (Compression.unpack libraries.zstd raw)).bind
  intro unpacked
  exact .pure unpacked.2

/-- What is decoded follows from what the two files hold. -/
theorem looks_runDecode (ordinary : files.Ordinary target other) :
    Looks state (runDecode libraries files path type input 0 false .standard)
      (files.held state path >>= (typeIn libraries · type) >>= fun layout =>
        files.held state input >>= fun raw => prettyLines <$> documentIn libraries layout raw) := by
  have looks : Looks state (runDecode libraries files path type input 0 false .standard) (do
      let layout ← (← files.held state path >>= openSchema libraries).schema.lookup type
      let content ← files.held state input >>= contentIn libraries
      return prettyLines (← decodeContent libraries layout content 0 false .standard)) := by
    apply (looks_readSchema ordinary).bind
    intro file
    apply (Looks.lift (file.schema.lookup type)).bind
    intro layout
    apply (looks_readInput ordinary).bind
    intro content
    apply (Looks.lift (decodeContent libraries layout content 0 false .standard)).bind
    intro document
    exact .pure _
  simpa only [typeIn, documentIn, bind_assoc, map_bind, bind_pure_comp] using looks

/-- An input file holds the document of a value of a type that a schema file declares, and the
value has these bytes. -/
structure Encodes (libraries : Libraries) (files : Files (StateM σ)) (state : σ)
    (path type input : String) (layout : Layout) (value : Value) (bytes : Buffer) : Prop where
  typed : files.held state path >>= (typeIn libraries · type) = .ok layout
  parsed : files.held state input >>= valueIn libraries layout = .ok value
  written : layout.toBytes value = .ok bytes

/-- A value that has been encoded into a file has bytes, and these have been written to it. -/
theorem encodes_of_run (ordinary : files.Ordinary target other) {text : String}
    (run : (runEncode libraries files path type input (some target)).run.run before =
      (.ok text, after)) :
    ∃ layout value bytes, Encodes libraries files before path type input layout value bytes ∧
      (files.write target bytes).run before = (true, after) := by
  simp only [runEncode, run_bind_eq_ok] at run
  obtain ⟨file, _, openRun, layout, _, lookupRun, content, _, inputRun, bytes, _, encodeRun, done,
    _, writeRun, finished⟩ := run
  obtain ⟨opened, rfl⟩ := (looks_readSchema ordinary).of_run openRun
  obtain ⟨looked, rfl⟩ := (Looks.lift (file.schema.lookup type)).of_run lookupRun
  obtain ⟨taken, rfl⟩ := (looks_readInput ordinary).of_run inputRun
  obtain ⟨encoded, rfl⟩ := (Looks.lift (encodeContent libraries layout content)).of_run encodeRun
  simp only [encodeContent, bind_eq_ok] at encoded
  obtain ⟨json, read, value, built, made⟩ := encoded
  refine ⟨layout, value, bytes, ⟨?_, ?_, made⟩, ?_⟩
  · obtain ⟨schemaFile, held, opened⟩ := bind_eq_ok.mp opened
    exact bind_eq_ok.mpr ⟨schemaFile, held, bind_eq_ok.mpr ⟨file, opened, looked⟩⟩
  · obtain ⟨valueFile, held, unpacked⟩ := bind_eq_ok.mp taken
    exact bind_eq_ok.mpr ⟨valueFile, held,
      bind_eq_ok.mpr ⟨content, unpacked, bind_eq_ok.mpr ⟨json, read, built⟩⟩⟩
  · rw [run_files] at writeRun
    obtain ⟨wrote, rfl⟩ := Prod.mk.inj writeRun
    split at finished
    · rename_i isDone
      obtain ⟨-, rfl⟩ := Prod.mk.inj finished
      exact Prod.ext ((Except.ok.inj wrote).trans isDone) rfl
    · cases finished

theorem Outcome.eq_ok_of_printed {result : Except Error String} {text : String}
    (printed : ofResult result = .printed text) : result = .ok text := by
  unfold ofResult at printed
  split at printed
  · rw [Outcome.printed.inj printed]
  · cases printed
  · cases printed

theorem run_eq {arguments : List String} {command : Command}
    (understood : libraries.command? arguments = some command) :
    (run libraries files arguments).run before =
      (Outcome.ofResult ((command.run libraries files).run.run before).1,
        ((command.run libraries files).run.run before).2) := by
  unfold run
  rw [understood]
  rfl

theorem exists_of_run_eq_printed {arguments : List String} {text : String}
    (printed : (run libraries files arguments).run before = (.printed text, after)) :
    ∃ command, libraries.command? arguments = some command ∧
      (command.run libraries files).run.run before = (.ok text, after) := by
  cases understood : libraries.command? arguments with
  | none =>
      unfold run at printed
      rw [understood] at printed
      cases (Prod.mk.inj printed).1
  | some command =>
      rw [run_eq understood] at printed
      obtain ⟨succeeded, rfl⟩ := Prod.mk.inj printed
      exact ⟨command, rfl, Prod.ext (Outcome.eq_ok_of_printed succeeded) rfl⟩

theorem run_of_ran {arguments : List String} {command : Command} {result : Except Error String}
    (understood : libraries.command? arguments = some command)
    (ran : (command.run libraries files).run.run before = (result, after)) :
    (run libraries files arguments).run before = (Outcome.ofResult result, after) := by
  rw [run_eq understood, ran]

theorem wellFormed_of_typeIn {raw : Buffer} {layout : Layout}
    (found : typeIn libraries raw type = .ok layout) : layout.WellFormed := by
  simp only [typeIn, bind_eq_ok] at found
  obtain ⟨file, opened, looked⟩ := found
  have accepted := accepted_of_openSchema opened
  cases known : file.schema.find? type with
  | none => simp [Schema.lookup, known] at looked
  | some other =>
      obtain rfl : other = layout := by simpa [Schema.lookup, known] using looked
      exact Schema.wellFormed_of_find? accepted known

theorem contentIn_of_ne_magic {raw : Buffer} (other : (raw.slice 0 4).toList ≠ Compression.magic) :
    contentIn libraries raw = .ok raw := by
  rw [contentIn, Compression.unpack, if_neg other]
  rfl

/-- Where a file has been encoded, to decode it shows what it holds. -/
theorem run_decode_eq (ordinary : files.Ordinary target path)
    (asked : libraries.command? ["decode", path, "--type", type, target] =
      some (.decode path type target 0 false false false))
    {layout : Layout} (typed : files.held state path >>= (typeIn libraries · type) = .ok layout)
    {bytes : Buffer} (held : files.held state target = .ok bytes) :
    (run libraries files ["decode", path, "--type", type, target]).run state =
      (Outcome.ofResult (prettyLines <$> documentIn libraries layout bytes), state) := by
  have looks : Looks state (runDecode libraries files path type target 0 false .standard) _ :=
    looks_runDecode ordinary
  rw [typed, held] at looks
  exact run_of_ran asked looks

end CommandLine

open CommandLine

namespace Sample

/-- Files that are kept as a list, the last one written first. -/
def listedFiles : Files (StateM (List (String × Buffer))) where
  read path := do return (← get).lookup path
  write path bytes := do
    modify ((path, bytes) :: ·)
    return true

theorem held_listedFiles {state : List (String × Buffer)} {path : String} :
    listedFiles.held state path = match state.lookup path with
      | some raw => .ok raw
      | none => .error .io :=
  rfl

theorem listedFiles_ordinary {target other : String} (differ : other ≠ target) :
    listedFiles.Ordinary target other := by
  constructor
  · intro path state
    rfl
  · rintro bytes before _ ⟨⟩
    rw [held_listedFiles, List.lookup_cons_self]
  · rintro bytes before _ ⟨⟩
    rw [held_listedFiles, List.lookup_cons, beq_false_of_ne differ]
    rfl

/-- Understands the two lines of `encode` and `decode` with these options. -/
def line? : List String → Option Command
  | ["encode", path, "--type", type, input, "--out", target] =>
      some (.encode path type input (some target))
  | ["decode", path, "--type", type, target] =>
      some (.decode path type target 0 false false false)
  | _ => none

/-- A library that finds every frame damaged. -/
def damagedReader : Decompressor where
  Stream := Unit
  open? _ := some ()
  read? _ _ := none

def libraries : Libraries :=
  ⟨line?, Json.readBytes?, Hex.decode, damagedReader⟩

theorem libraries_readsLines : ReadsLines libraries.command? where
  encode understood := (Option.some.inj understood).symm
  decode _ := rfl

/-- A schema, a document for its record, a schema with the built-in types only, and a number. -/
def disk : List (String × Buffer) :=
  [("schema", "[[\"Struct\",\"Event\",4,[[\"serial\",\"u16\"],[\"text\",\"char\",2]]]]".toUTF8),
    ("event", "\x7b\"text\":\"h\",\"serial\":513\x7d".toUTF8),
    ("empty", "[]".toUTF8), ("number", "682962941".toUTF8)]

/-- The layout of the record. -/
def eventLayout : Layout :=
  (listedFiles.held disk "schema" >>= (typeIn libraries · "Event")).toOption.getD
    (.scalar "" .bool)

def event : Value :=
  .record ⟨"Event", [⟨"serial", .unsigned 513⟩, ⟨"text", .text "h"⟩]⟩

def eventBytes : Buffer :=
  Buffer.ofList [2, 1, 104, 0]

/-- The layout of the number. -/
def number : Layout :=
  (typeIn libraries "[]".toUTF8 "u32").toOption.getD (.scalar "" .bool)

/-- The number in four bytes, which are those that a compressed frame begins with. -/
def numberBytes : Buffer :=
  Buffer.ofList [0x28, 0xb5, 0x2f, 0xfd]

theorem event_held : event.Held := by
  simp only [event, RecordValue.held_iff, List.forall_mem_cons, List.not_mem_nil, false_imp_iff,
    implies_true, and_true]
  exact ⟨Value.held_of_isLeaf rfl, Value.held_of_isLeaf rfl⟩

theorem event_typed :
    listedFiles.held disk "schema" >>= (typeIn libraries · "Event") = .ok eventLayout :=
  eq_ok_getD (by decide +kernel) _

theorem event_parsed :
    listedFiles.held disk "event" >>= valueIn libraries eventLayout = .ok event := by
  decide +kernel

theorem event_encoded :
    (run libraries listedFiles
      ["encode", "schema", "--type", "Event", "event", "--out", "bytes"]).run disk =
      (.printed "wrote 4 bytes to bytes\n", ("bytes", eventBytes) :: disk) := by
  have ran : @Eq (Except Error String × List (String × Buffer))
      (((Command.encode "schema" "Event" "event" (some "bytes")).run libraries listedFiles).run.run
        disk)
      (.ok "wrote 4 bytes to bytes\n", ("bytes", eventBytes) :: disk) := by decide +kernel
  exact run_of_ran rfl ran

end Sample

namespace CommandLine

variable {libraries : Libraries} {files : Files (StateM σ)} {target path type input : String}
  {before after : σ}

/-- A file into which a value has been encoded holds the bytes of the value.  Decoding it shows
the value that these bytes are read as, unless they begin like a compressed frame: then it shows
what the content of the frame is read as, or fails as unpacking does.  No more is taken for granted
than how lines of arguments are understood, and that the value has been in memory. -/
theorem encoded_file_read_back (lines : ReadsLines libraries.command?)
    (ordinary : files.Ordinary target path) {text : String}
    (encoded : (run libraries files
      ["encode", path, "--type", type, input, "--out", target]).run before =
        (.printed text, after)) :
    ∃ layout value bytes, Encodes libraries files before path type input layout value bytes ∧
      files.held after target = .ok bytes ∧
      ((bytes.slice 0 4).toList ≠ Compression.magic → value.Held →
        ∃ decoded used document, layout.read .standard bytes 0 = .ok (decoded, used) ∧
          layout.document decoded = .ok document ∧
          (run libraries files ["decode", path, "--type", type, target]).run after =
            (.printed (prettyLines document), after)) ∧
      ((bytes.slice 0 4).toList = Compression.magic →
        (run libraries files ["decode", path, "--type", type, target]).run after =
          (Outcome.ofResult (prettyLines <$> (Compression.unpack libraries.zstd bytes >>=
            fun unpacked => decodeContent libraries layout unpacked.2 0 false .standard)),
            after)) := by
  obtain ⟨command, understood, run⟩ := exists_of_run_eq_printed encoded
  obtain rfl := lines.encode understood
  obtain ⟨layout, value, bytes, encodes, written⟩ := encodes_of_run ordinary run
  have held := ordinary.written bytes _ _ written
  have typed := encodes.typed
  rw [← ordinary.spared bytes _ _ written] at typed
  have decodes := run_decode_eq ordinary (lines.decode understood) typed held
  refine ⟨layout, value, bytes, encodes, held, ?_, ?_⟩
  · intro other inMemory
    obtain ⟨schemaFile, -, found⟩ := bind_eq_ok.mp typed
    have wellFormed := wellFormed_of_typeIn found
    obtain ⟨decoded, used, document, read, shown⟩ :=
      wellFormed.exists_document_of_toBytes .standard inMemory encodes.written
    have content : decodeContent libraries layout bytes 0 false .standard = .ok document :=
      bind_eq_ok.mpr ⟨bytes, rfl, bind_eq_ok.mpr ⟨(decoded, used), read, shown⟩⟩
    have documented : documentIn libraries layout bytes = .ok document :=
      bind_eq_ok.mpr ⟨bytes, contentIn_of_ne_magic other, content⟩
    rw [documented] at decodes
    exact ⟨decoded, used, document, read, shown, decodes⟩
  · intro _
    rw [decodes, documentIn, contentIn, bind_assoc]
    rfl

open Sample

theorem sample_event_read_back :
    (run Sample.libraries listedFiles
        ["encode", "schema", "--type", "Event", "event", "--out", "bytes"]).run disk =
        (.printed "wrote 4 bytes to bytes\n", ("bytes", eventBytes) :: disk) ∧
      ∃ (layout : Layout) (decoded : Value) (used : Nat) (document : Json),
        layout.read .standard eventBytes 0 = .ok (decoded, used) ∧
        layout.document decoded = .ok document ∧
        (run Sample.libraries listedFiles ["decode", "schema", "--type", "Event", "bytes"]).run
            (("bytes", eventBytes) :: disk) =
          (.printed (prettyLines document), ("bytes", eventBytes) :: disk) := by
  obtain ⟨layout, value, bytes, encodes, held, plain, -⟩ :=
    encoded_file_read_back libraries_readsLines (listedFiles_ordinary (by decide)) event_encoded
  rw [held_listedFiles, List.lookup_cons_self] at held
  obtain rfl := Except.ok.inj held
  have sameLayout : layout = eventLayout := Except.ok.inj (encodes.typed.symm.trans event_typed)
  have parsed := encodes.parsed
  rw [sameLayout, event_parsed, Except.ok.injEq] at parsed
  have inMemory : value.Held := parsed ▸ event_held
  obtain ⟨decoded, used, document, read, shown, decodes⟩ := plain (by decide) inMemory
  exact ⟨event_encoded, layout, decoded, used, document, read, shown, decodes⟩

theorem sample_number_not_read_back :
    ReadsLines Sample.libraries.command? ∧ listedFiles.Ordinary "bytes" "empty" ∧
      (run Sample.libraries listedFiles
          ["encode", "empty", "--type", "u32", "number", "--out", "bytes"]).run disk =
        (.printed "wrote 4 bytes to bytes\n", ("bytes", numberBytes) :: disk) ∧
      typeIn Sample.libraries "[]".toUTF8 "u32" = .ok number ∧
      number.toBytes (.unsigned 682962941) = .ok numberBytes ∧
      number.read .standard numberBytes 0 = .ok (.unsigned 682962941, 4) ∧
      (run Sample.libraries listedFiles ["decode", "empty", "--type", "u32", "bytes"]).run
          (("bytes", numberBytes) :: disk) = (.failed .io, ("bytes", numberBytes) :: disk) := by
  have encodes : @Eq (Except Error String × List (String × Buffer))
      (((Command.encode "empty" "u32" "number" (some "bytes")).run Sample.libraries
        listedFiles).run.run disk)
      (.ok "wrote 4 bytes to bytes\n", ("bytes", numberBytes) :: disk) := by decide +kernel
  have written : number.toBytes (.unsigned 682962941) = .ok numberBytes := by decide +kernel
  have read : number.read .standard numberBytes 0 = .ok (.unsigned 682962941, 4) := by
    decide +kernel
  have typed : typeIn Sample.libraries "[]".toUTF8 "u32" = .ok number :=
    eq_ok_getD (by decide +kernel) _
  have found : listedFiles.held (("bytes", numberBytes) :: disk) "empty" >>=
      (typeIn Sample.libraries · "u32") = .ok number := typed
  have ordinary : listedFiles.Ordinary "bytes" "empty" := listedFiles_ordinary (by decide)
  have nothing : damagedReader.Brings () [] () := .nothing _
  have damaged : Compression.Unpacks damagedReader numberBytes (.error .io) :=
    .broken rfl nothing (Nat.zero_le _) rfl
  have unpacked : contentIn Sample.libraries numberBytes = .error .io :=
    congrArg (Prod.snd <$> ·) (damaged.unpack_eq ⟨[], rfl⟩)
  have decodes : (run Sample.libraries listedFiles
      ["decode", "empty", "--type", "u32", "bytes"]).run (("bytes", numberBytes) :: disk) =
        (.ofResult (prettyLines <$> documentIn Sample.libraries number numberBytes), _) :=
    run_decode_eq ordinary rfl found rfl
  rw [documentIn, unpacked] at decodes
  exact ⟨libraries_readsLines, ordinary, run_of_ran rfl encodes, typed, written, read, decodes⟩

end CommandLine

end RecordCodec
