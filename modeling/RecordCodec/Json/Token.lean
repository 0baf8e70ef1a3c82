import RecordCodec.Json.Basic
import RecordCodec.Text.Character

/-!
# JSON tokens

A text is read one character at a time.  The reading state holds the tokens
that are complete and what is known of the one that has begun.  A number and a
word end where the first character stands that cannot continue them; that
character then begins the next token.
-/

namespace RecordCodec.Json

/-- A token of JSON text. -/
inductive Token
  | openArray
  | closeArray
  | openObject
  | closeObject
  | comma
  | colon
  | null
  | bool (value : Bool)
  | number (value : JsonNumber)
  | text (value : String)

/-- What is known of the token that has begun.  Characters are held last one first. -/
inductive Pending
  | none
  | word (letters : List Char)
  | number (characters : List Char)
  | text (characters : List Char)
  | escape (characters : List Char)
  /-- A text inside the four digits of a code unit, maybe behind a leading surrogate. -/
  | unit (characters : List Char) (leading : Option Nat) (digits value : Nat)
  /-- A text behind a leading surrogate, where an escape has to follow. -/
  | surrogate (characters : List Char) (leading : Nat)
  /-- A text behind a leading surrogate and a backslash. -/
  | surrogateEscape (characters : List Char) (leading : Nat)

/-- The complete tokens, the last one first, and the one that has begun. -/
structure Reading where
  /-- The complete tokens, the last one first. -/
  tokens : List Token
  pending : Pending

/-- A space, a tab, a line feed or a carriage return. -/
def isSpace (character : Char) : Bool :=
  character == ' ' || character == '\t' || character == '\n' || character == '\r'

/-- A character that may stand in a number. -/
def continuesNumber (character : Char) : Bool :=
  character.isDigit || character == '-' || character == '+' || character == '.' ||
    character == 'e' || character == 'E'

/-- The value of a run of decimal digits. -/
def digitsValue (digits : List Char) : Nat :=
  digits.foldl (fun value digit => value * 10 + (digit.toNat - 0x30)) 0

def splitSign : List Char → Bool × List Char
  | '-' :: rest => (true, rest)
  | rest => (false, rest)

/-- Splits off the exponent, which is zero where none is written. -/
def exponent? : List Char → Option Int
  | [] => some 0
  | mark :: rest =>
      if mark == 'e' || mark == 'E' then
        let (negative, digits) := match rest with
          | '+' :: digits => (false, digits)
          | digits => splitSign digits
        if digits.isEmpty || !digits.all Char.isDigit then none
        else some (if negative then -(digitsValue digits : Int) else digitsValue digits)
      else none

/-- The digits behind the point and what follows them, none where there is no point. -/
def fraction? : List Char → Option (List Char × List Char)
  | '.' :: rest =>
      let digits := rest.takeWhile Char.isDigit
      if digits.isEmpty then none else some (digits, rest.dropWhile Char.isDigit)
  | rest => some ([], rest)

/--
The number that the characters spell.  Without fraction and exponent it is an
integer if it fits a word; every other one is the nearest float and must be
finite.  The integer `-0` is the float, because only that has a negative zero.
-/
def number? (characters : List Char) : Option JsonNumber := do
  let (negative, unsigned) := splitSign characters
  let whole := unsigned.takeWhile Char.isDigit
  let rest := unsigned.dropWhile Char.isDigit
  if whole.isEmpty || (whole.head? == some '0' && whole.length != 1) then none
  else if rest.isEmpty then
    let magnitude := digitsValue whole
    if negative && magnitude == 0 then
      JsonNumber.ofFloat? (Binary.ofDecimal true 0 0)
    else
      let value : Int := if negative then -(magnitude : Int) else magnitude
      JsonNumber.ofInt? value <|> JsonNumber.ofFloat? (Binary.ofDecimal negative magnitude 0)
  else
    let (decimals, rest) ← fraction? rest
    let exponent ← exponent? rest
    JsonNumber.ofFloat?
      (Binary.ofDecimal negative (digitsValue (whole ++ decimals)) (exponent - decimals.length))

def word? (letters : List Char) : Option Token :=
  if letters == ['n', 'u', 'l', 'l'] then some .null
  else if letters == ['t', 'r', 'u', 'e'] then some (.bool true)
  else if letters == ['f', 'a', 'l', 's', 'e'] then some (.bool false)
  else none

/-- Reads a character where no token has begun. -/
def begin? (tokens : List Token) (character : Char) : Option Reading :=
  match character with
  | '[' => some ⟨.openArray :: tokens, .none⟩
  | ']' => some ⟨.closeArray :: tokens, .none⟩
  | '\x7b' => some ⟨.openObject :: tokens, .none⟩
  | '\x7d' => some ⟨.closeObject :: tokens, .none⟩
  | ',' => some ⟨.comma :: tokens, .none⟩
  | ':' => some ⟨.colon :: tokens, .none⟩
  | '"' => some ⟨tokens, .text []⟩
  | _ =>
      if isSpace character then some ⟨tokens, .none⟩
      else if character == '-' || character.isDigit then some ⟨tokens, .number [character]⟩
      else if character.isLower then some ⟨tokens, .word [character]⟩
      else none

/-- Completes a token at its end. -/
def complete? (reading : Reading) : Option (List Token) :=
  match reading.pending with
  | .none => some reading.tokens
  | .word letters => (word? letters.reverse).map (· :: reading.tokens)
  | .number characters =>
      (number? characters.reverse).map (.number · :: reading.tokens)
  | _ => none

/-- The character that a letter behind a backslash stands for. -/
def escaped? (letter : Char) : Option Char :=
  match letter with
  | '"' => some '"'
  | '\\' => some '\\'
  | '/' => some '/'
  | 'b' => some '\x08'
  | 'f' => some '\x0c'
  | 'n' => some '\n'
  | 'r' => some '\r'
  | 't' => some '\t'
  | _ => none

/-- Goes on behind a whole code unit.  Surrogates count only as a pair in order. -/
def codeUnit? (characters : List Char) (leading : Option Nat) (value : Nat) : Option Pending :=
  let isTrailing := 0xdc00 ≤ value && value < 0xe000
  match leading with
  | some first =>
      let scalar := 0x10000 + (first - 0xd800) * 0x400 + (value - 0xdc00)
      if isTrailing then some (.text (Char.ofNat scalar :: characters)) else none
  | none =>
      if isTrailing then none
      else if 0xd800 ≤ value && value < 0xdc00 then some (.surrogate characters value)
      else some (.text (Char.ofNat value :: characters))

/-- Reads one character. -/
def readCharacter? (reading : Reading) (character : Char) : Option Reading :=
  let goOn := fun pending => some ⟨reading.tokens, pending⟩
  match reading.pending with
  | .none => begin? reading.tokens character
  | .word letters =>
      if character.isLower then goOn (.word (character :: letters))
      else (complete? reading).bind (begin? · character)
  | .number characters =>
      if continuesNumber character then goOn (.number (character :: characters))
      else (complete? reading).bind (begin? · character)
  | .text characters =>
      if character == '"' then
        some ⟨.text (String.ofList characters.reverse) :: reading.tokens, .none⟩
      else if character == '\\' then goOn (.escape characters)
      else if character.toNat < 0x20 then none
      else goOn (.text (character :: characters))
  | .escape characters =>
      if character == 'u' then goOn (.unit characters none 0 0)
      else (escaped? character).bind fun meant => goOn (.text (meant :: characters))
  | .unit characters leading digits value => do
      let value := value * 16 + (← HexDigit.value? character)
      if digits < 3 then goOn (.unit characters leading (digits + 1) value)
      else (codeUnit? characters leading value).bind goOn
  | .surrogate characters leading =>
      if character == '\\' then goOn (.surrogateEscape characters leading) else none
  | .surrogateEscape characters leading =>
      if character == 'u' then goOn (.unit characters (some leading) 0 0) else none

/-- The tokens of a text, if it consists of tokens. -/
def tokens? (text : String) : Option (List Token) := do
  let reading ← text.toList.foldlM readCharacter? ⟨[], .none⟩
  return (← complete? reading).reverse

end RecordCodec.Json
