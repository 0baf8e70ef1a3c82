import RecordCodec.Json.Basic
import RecordCodec.Number.Shortest
import RecordCodec.Text.Character

/-!
# Writing JSON

Values are written compactly or spread over lines with two spaces for each
level.  In a text the quote, the backslash and the controls below the space
are escaped and all else stands as it is.  A float is written in the shortest
digits that read back, with a fraction where the number lies between `1e-5`
and `1e16` and with a signed exponent elsewhere.
-/

namespace RecordCodec.Json

/-- The decimal digits of a number. -/
def digitsText (value : Nat) : String :=
  String.ofList (Nat.toDigits 10 value)

/-- The text of a float.  One that is no finite number is written as `null`. -/
def floatText (bits : UInt64) : String :=
  match Binary.double.decode bits.toNat with
  | .finite negative significand _ =>
      let sign := if negative then "-" else ""
      if significand = 0 then sign ++ "0.0" else
        let magnitude := UInt64.ofNat (bits.toNat % Binary.double.signWeight)
        let decimal := Shortest.ofPositive magnitude
        let digits := Nat.toDigits 10 decimal.digits
        let leading : Int := decimal.exponent + digits.length - 1
        let characters :=
          if -5 ≤ leading ∧ leading < 16 then
            if 0 ≤ decimal.exponent then
              digits ++ List.replicate decimal.exponent.toNat '0' ++ ['.', '0']
            else if 0 ≤ leading then
              digits.take (leading.toNat + 1) ++ '.' :: digits.drop (leading.toNat + 1)
            else
              '0' :: '.' :: List.replicate (-leading - 1).toNat '0' ++ digits
          else
            let mantissa := if digits.length = 1 then digits else
              digits.take 1 ++ '.' :: digits.drop 1
            let exponentSign := if leading < 0 then '-' else '+'
            mantissa ++ 'e' :: exponentSign :: Nat.toDigits 10 leading.natAbs
        sign ++ String.ofList characters
  | _ => "null"

def numberText : JsonNumber → String
  | .integer value _ => (if value < 0 then "-" else "") ++ digitsText value.natAbs
  | .float bits _ => floatText bits

/-- A character inside a text. -/
def escapedCharacter (character : Char) : List Char :=
  if character == '"' then ['\\', '"']
  else if character == '\\' then ['\\', '\\']
  else if character == '\x08' then ['\\', 'b']
  else if character == '\x0c' then ['\\', 'f']
  else if character == '\n' then ['\\', 'n']
  else if character == '\r' then ['\\', 'r']
  else if character == '\t' then ['\\', 't']
  else if character.toNat < 0x20 then
    ['\\', 'u', '0', '0', HexDigit.ofValue (character.toNat / 16),
      HexDigit.ofValue (character.toNat % 16)]
  else [character]

def quoted (text : String) : String :=
  "\"" ++ String.ofList (text.toList.flatMap escapedCharacter) ++ "\""

mutual
/-- Appends a value in compact form to a text. -/
def appendCompact (before : String) : Json → String
  | .null => before ++ "null"
  | .bool value => before ++ (if value then "true" else "false")
  | .number value => before ++ numberText value
  | .text value => before ++ quoted value
  | .array items => appendItems (before ++ "[") "" items ++ "]"
  | .object members => appendMembers (before ++ "\x7b") "" members ++ "\x7d"
def appendItems (before separator : String) : List Json → String
  | [] => before
  | item :: rest => appendItems (appendCompact (before ++ separator) item) "," rest
def appendMembers (before separator : String) : List JsonMember → String
  | [] => before
  | ⟨key, value⟩ :: rest =>
      appendMembers (appendCompact (before ++ separator ++ quoted key ++ ":") value) "," rest
end

def compact (json : Json) : String :=
  appendCompact "" json

/-- A line feed and the space in front of a line of a level. -/
def lineBreak (level : Nat) : String :=
  "\n" ++ String.ofList (List.replicate (2 * level) ' ')

mutual
/-- Appends a value that begins on a line of the given level. -/
def appendPretty (before : String) (level : Nat) : Json → String
  | .array [] => before ++ "[]"
  | .array items =>
      appendItemLines (before ++ "[") (level + 1) "" items ++ lineBreak level ++ "]"
  | .object [] => before ++ "\x7b\x7d"
  | .object members =>
      appendMemberLines (before ++ "\x7b") (level + 1) "" members ++ lineBreak level ++ "\x7d"
  | .null => before ++ "null"
  | .bool value => before ++ (if value then "true" else "false")
  | .number value => before ++ numberText value
  | .text value => before ++ quoted value
/-- Appends items, each on a line of its own. -/
def appendItemLines (before : String) (level : Nat) (separator : String) : List Json → String
  | [] => before
  | item :: rest =>
      let after := appendPretty (before ++ separator ++ lineBreak level) level item
      appendItemLines after level "," rest
/-- Appends members, each on a line of its own. -/
def appendMemberLines (before : String) (level : Nat) (separator : String) :
    List JsonMember → String
  | [] => before
  | ⟨key, value⟩ :: rest =>
      let opened := before ++ separator ++ lineBreak level ++ quoted key ++ ": "
      appendMemberLines (appendPretty opened level value) level "," rest
end

/-- A value spread over lines with two spaces for each level. -/
def pretty (json : Json) : String :=
  appendPretty "" 0 json

end RecordCodec.Json
