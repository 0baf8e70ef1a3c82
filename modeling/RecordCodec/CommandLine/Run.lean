import RecordCodec.Bytes.Hex
import RecordCodec.Codec.Decode
import RecordCodec.Codec.Encode
import RecordCodec.Input.Compression
import RecordCodec.Json.Writer
import RecordCodec.Document.Read
import RecordCodec.Document.Write
import RecordCodec.Schema.Report
import RecordCodec.Schema.Resolve
import RecordCodec.Text.Utf8

/-!
# Running a command

A command reads files, and `encode` may write one.  What files there are is
left open: a command runs in any monad that reads and writes them.  So are the
libraries that read arguments, JSON, hexadecimal digits and compressed frames.
A command ends with the text to print or with the reason why there is none.
-/

namespace RecordCodec

/-- How a command gets at files. -/
structure Files (m : Type → Type) where
  /-- The bytes of a file, if it can be read. -/
  read : String → m (Option Buffer)
  /-- Replaces the bytes of a file and tells whether that was possible. -/
  write : String → Buffer → m Bool

/-- A schema with the file from which it comes. -/
structure SchemaFile where
  compression : Compression
  declarations : List Declaration
  schema : Schema

namespace CommandLine

/-- What the program is asked to do. -/
inductive Command
  /-- Show all types of a schema, or the layout of one of them. -/
  | schema (path : String) (type : Option String) (json : Bool)
  /-- Decode a value of a type and show its document. -/
  | decode (path type input : String) (offset : Nat) (hex strictPadding rawChars : Bool)
  /-- Encode a value of a type from its document. -/
  | encode (path type input : String) (out : Option String)
deriving DecidableEq

/-- What the program leaves to libraries. -/
structure Libraries where
  /-- Reads the arguments of the program, if they ask for something that it can do. -/
  command? : List String → Option Command
  json? : JsonReader
  hexDigits : Hex.Decoder
  zstd : Decompressor

/-- What a command ends with. -/
inductive Outcome
  | printed (text : String)
  | failed (error : Error)
  /-- The program stops where it has no error to report. -/
  | stopped (cause : Panic)
  /-- The arguments ask for nothing that the program can do. -/
  | misused

/-- The outcome of a command that has been understood. -/
def Outcome.ofResult : Except Error String → Outcome
  | .ok text => .printed text
  | .error (.panicked cause) => .stopped cause
  | .error error => .failed error

/-- Lines of text, each of them ended. -/
def lines (texts : List String) : String :=
  String.join (texts.map (· ++ "\n"))

def prettyLines (json : Json) : String :=
  json.pretty ++ "\n"

variable (libraries : Libraries)

def readJson (content : Buffer) : Except Error Json := do
  let some json := libraries.json? content | throw .json
  return json

def openSchema (raw : Buffer) : Except Error SchemaFile := do
  let (compression, content) ← Compression.unpack libraries.zstd raw
  let some declarations := Declaration.listOfJson? (← readJson libraries content) | throw .json
  return ⟨compression, declarations, ← Schema.ofDeclarations declarations⟩

variable {m : Type → Type} [Monad m]

def readFile (files : Files m) (path : String) : ExceptT Error m Buffer := do
  match ← files.read path with
  | some raw => return raw
  | none => throw .io

def readInput (files : Files m) (path : String) : ExceptT Error m Buffer := do
  return (← Compression.unpack libraries.zstd (← readFile files path)).2

def readSchema (files : Files m) (path : String) : ExceptT Error m SchemaFile := do
  openSchema libraries (← readFile files path)

/-- Shows all types of a schema, or the layout of one of them. -/
def runSchema (files : Files m) (path : String) (type : Option String) (json : Bool) :
    ExceptT Error m String := do
  let file ← readSchema libraries files path
  match type with
  | some name =>
      let layout ← file.schema.lookup name
      return if json then prettyLines (Report.layoutJson layout)
        else lines (Report.layoutLines layout)
  | none =>
      let compression := file.compression.label
      return if json then
          prettyLines (Report.schemaJson path compression file.schema file.declarations)
        else lines (Report.schemaLines path compression file.schema file.declarations)

/-- The document of the value that a file holds at an offset. -/
def decodeContent (layout : Layout) (content : Buffer) (offset : Nat) (hex : Bool)
    (options : DecodeOptions) : Except Error Json := do
  let bytes ←
    if hex then Buffer.ofList <$> Hex.parse libraries.hexDigits (Utf8.decodeLossy content)
    else pure content
  let (value, _) ← layout.read options bytes offset
  layout.document value

def runDecode (files : Files m) (path type input : String) (offset : Nat) (hex : Bool)
    (options : DecodeOptions) : ExceptT Error m String := do
  let layout ← (← readSchema libraries files path).schema.lookup type
  let content ← readInput libraries files input
  return prettyLines (← decodeContent libraries layout content offset hex options)

/-- The bytes of the value whose document a file holds. -/
def encodeContent (layout : Layout) (content : Buffer) : Except Error Buffer := do
  let json ← readJson libraries content
  layout.toBytes (← layout.ofDocument json.normalize [])

/-- Encodes a value, into a file or as digits. -/
def runEncode (files : Files m) (path type input : String) (out : Option String) :
    ExceptT Error m String := do
  let layout ← (← readSchema libraries files path).schema.lookup type
  let bytes ← encodeContent libraries layout (← readInput libraries files input)
  match out with
  | none => return lines [Hex.render bytes.toList]
  | some target =>
      if ← files.write target bytes then
        return lines ["wrote " ++ toString bytes.size ++ " bytes to " ++ target]
      else throw .io

def Command.run (files : Files m) : Command → ExceptT Error m String
  | .schema path type json => runSchema libraries files path type json
  | .decode path type input offset hex strictPadding rawChars =>
      runDecode libraries files path type input offset hex ⟨strictPadding, !rawChars⟩
  | .encode path type input out => runEncode libraries files path type input out

/-- Runs what the arguments of the program ask for. -/
def run (files : Files m) (arguments : List String) : m Outcome := do
  match libraries.command? arguments with
  | none => return .misused
  | some command => return .ofResult (← (command.run libraries files).run)

end CommandLine

end RecordCodec
